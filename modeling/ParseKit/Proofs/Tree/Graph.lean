import ParseKit.Proofs.Tree.NodeStore

/-!
# Graphs as stores of nodes

In a graph, cells share one array of node numbers, and several cells may name the same entries.
Calls only ever add to this array, so each call changes the store as if every node had a list of
children of its own: `graph_refines_store`.
-/

namespace ParseKit

namespace NodeStore

/-- Stores a node once more. -/
def copy (s : NodeStore) (id : NodeId) : NodeStore := s.append s.nodes[id.index]?.toList

def setChildren (s : NodeStore) (id : NodeId) (children : List NodeId) : NodeStore :=
  { s with nodes := s.nodes.modify id.index fun record => { record with children } }

end NodeStore

namespace SyntaxTree

def entries (t : SyntaxTree) : List NodeId :=
  match t.layout with
  | .tree => []
  | .graph adjacency => adjacency.toList

/-- What a cell holds in a graph at this moment. -/
def record (t : SyntaxTree) (cell : Cell) : Record :=
  ⟨cell.label, (t.entries.drop cell.first.toNat).take cell.count.toNat⟩

/-- The run of the cell lies inside the array of its layout. -/
def Inside (t : SyntaxTree) (cell : Cell) : Prop :=
  cell.first.toNat + cell.count.toNat ≤ t.runLimit

/-- The array of a graph lists these nodes from `first` on. -/
structure Lists (t : SyntaxTree) (first : UInt32) (ids : List NodeId) : Prop where
  inside : first.toNat ≤ t.entries.length
  run : ids <+: t.entries.drop first.toNat

/-- All that is read from a graph is what the store holds. -/
structure Reveals (t : SyntaxTree) (s : NodeStore) : Prop extends t.Shows s where
  adjacents : ∀ id, t.adjacents id = (s.record id).map Record.children

end SyntaxTree

/-! ### Calls -/

inductive GraphCall where
  | store (cells : List Cell)
  | storeChildren (cells : List Cell)
  | storeRoot (cell : Cell)
  | storeSymbol (label : Label)
  | storeAdjacents (ids : List NodeId)
  | copyNode (id : NodeId)
  | setAdjacents (id : NodeId) (ids : List NodeId)
  | commitInto (block : Block)
  /-- Commits the block of an inserted node. -/
  | commit (label : Label) (children : List Block)

inductive Answer where
  | node (id : NodeId)
  | run (first : UInt32)
  | cells (cells : List Cell)
  | done
deriving DecidableEq

namespace GraphCall

def perform (t : SyntaxTree) : GraphCall → Except Violation (Answer × SyntaxTree)
  | store cells => .ok (.node (t.store cells).1, (t.store cells).2)
  | storeChildren cells => .ok (.run (t.storeChildren cells).1, (t.storeChildren cells).2)
  | storeRoot cell => .ok (.node (t.storeRoot cell).1, (t.storeRoot cell).2)
  | storeSymbol label => (t.storeSymbol label).map fun (id, t) => (.node id, t)
  | storeAdjacents ids => (t.storeAdjacents ids).map fun (first, t) => (.run first, t)
  | copyNode id => (t.copyNode id).map fun (id, t) => (.node id, t)
  | setAdjacents id ids => (t.setAdjacents id ids).map fun t => (.done, t)
  | commitInto block =>
    ((Staging.ofBlock block).commitInto t).map fun (cells, t) => (.cells cells, t)
  | commit label children =>
    ((Staging.ofBlock (.node label .insert children)).commit t).map fun (id, t) => (.node id, t)

/-- The call names runs inside the array and nodes of the graph, and stages a complete block. -/
def Legal (t : SyntaxTree) : GraphCall → Prop
  | store cells | storeChildren cells => ∀ cell ∈ cells, t.Inside cell
  | storeRoot cell => t.Inside cell
  | storeSymbol _ | storeAdjacents _ => True
  | copyNode id | setAdjacents id _ => id.index < t.nodeCount
  | commitInto block => block.Narrow
  | commit label children => (Block.node label .insert children).Narrow

/-- What the call does to the store. -/
def effect (t : SyntaxTree) (s : NodeStore) : GraphCall → NodeStore
  | store cells | storeChildren cells => s.append (cells.map t.record)
  | storeRoot cell => s.plant (t.record cell)
  | storeSymbol label => s.append [⟨label, []⟩]
  | storeAdjacents _ => s
  | copyNode id => s.copy id
  | setAdjacents id ids => s.setChildren id ids
  | commitInto block => (block.settle s).2
  | commit label children =>
    let (records, below) := Block.settleAll children s
    (below.append records).plant ⟨label, below.nextIds records.length⟩

/-- What the call answers, read in the graph after it. -/
def Answers (s : NodeStore) (t' : SyntaxTree) : GraphCall → Answer → Prop
  | store _, .node id | storeRoot _, .node id | storeSymbol _, .node id | copyNode _, .node id =>
    id = s.nextId
  | storeChildren cells, .run first => t'.Lists first (s.nextIds cells.length)
  | storeAdjacents ids, .run first => t'.Lists first ids
  | setAdjacents _ _, .done => True
  | commitInto block, .cells cells =>
    (∀ cell ∈ cells, t'.Inside cell) ∧ cells.map t'.record = (block.settle s).1
  | commit _ _, .node id => t'.root = some id
  | _, _ => False

/-- Call by call, the graph reads as the store. A legal call goes through and keeps every run of the
graph, and it changes the store and answers as it should, as long as 32-bit numbers name all nodes
and entries. -/
def Refines : List GraphCall → SyntaxTree → NodeStore → Prop
  | [], t, s => t.Reveals s
  | call :: rest, t, s => t.Reveals s ∧
    (call.Legal t → ∃ answer t', call.perform t = .ok (answer, t') ∧
      (∀ first ids, t.Lists first ids → t'.Lists first ids) ∧
        (t'.Numbered → call.Answers s t' answer ∧ Refines rest t' (call.effect t s)))

end GraphCall

/-! ### Runs in a graph -/

theorem forall₂_set_modify {α β : Type} {R : α → β → Prop} {xs : List α} {ys : List β}
    (related : List.Forall₂ R xs ys) {i : Nat} {x : α} {f : β → β}
    (changed : ∀ y, ys[i]? = some y → R x (f y)) : List.Forall₂ R (xs.set i x) (ys.modify i f) := by
  induction related generalizing i with
  | nil => cases i <;> exact .nil
  | cons head tail ih =>
    cases i with
    | zero => exact .cons (changed _ rfl) tail
    | succ i => exact .cons head (ih changed)

namespace SyntaxTree

variable {t t' : SyntaxTree} {s : NodeStore} {cell : Cell} {record : Record}

theorem layout_of_isGraph (graph : t.isGraph) : ∃ adjacency, t.layout = .graph adjacency := by
  unfold isGraph at graph
  split at graph
  · contradiction
  · exact ⟨_, ‹_›⟩

theorem isGraph_of_extends (grown : t.Extends t') (graph : t.isGraph) : t'.isGraph := by
  obtain ⟨adjacency, layout⟩ := layout_of_isGraph graph
  have layouts := grown.layout
  rw [layout] at layouts
  unfold isGraph
  cases after : t'.layout with
  | tree =>
    rw [after] at layouts
    exact layouts.elim
  | graph _ => rfl

theorem runLimit_of_isGraph (graph : t.isGraph) : t.runLimit = t.entries.length := by
  obtain ⟨adjacency, layout⟩ := layout_of_isGraph graph
  simp [runLimit, entries, layout]

theorem slot_of_isGraph (graph : t.isGraph) (cell : Cell) (i : Nat) :
    t.slot cell i = inBounds t.entries[cell.first.toNat + i]? := by
  obtain ⟨adjacency, layout⟩ := layout_of_isGraph graph
  simp [slot, entries, layout]

theorem store_extends (t : SyntaxTree) (cells : List Cell) : t.Extends (t.store cells).2 :=
  ⟨by simp [store], (t.extends_refl).layout⟩

theorem runLimit_setNodes (graph : t.isGraph) (nodes : Array Cell) :
    runLimit { t with nodes } = t.runLimit := by
  obtain ⟨adjacency, layout⟩ := layout_of_isGraph graph
  simp only [runLimit, layout]

theorem length_record (graph : t.isGraph) (inside : t.Inside cell) :
    (t.record cell).children.length = cell.count.toNat := by
  unfold Inside at inside
  rw [runLimit_of_isGraph graph] at inside
  simp only [SyntaxTree.record, List.length_take, List.length_drop]
  omega

theorem reads_unique {other : Record} (reads : t.Reads cell record) (again : t.Reads cell other) :
    record = other := by
  obtain ⟨label, width, slots⟩ := reads
  obtain ⟨label', width', slots'⟩ := again
  have children : record.children = other.children := by
    apply List.ext_getElem (width.symm.trans width')
    intro i h h'
    exact Except.ok.inj ((slots i h).symm.trans (slots' i h'))
  cases record
  cases other
  exact congrArg₂ Record.mk (label.symm.trans label') children

/-- The cell reads as the record, and its run lies inside the array. -/
structure Carries (t : SyntaxTree) (cell : Cell) (record : Record) : Prop
    extends t.Reads cell record where
  inside : t.Inside cell

theorem carries_of_extends (grown : t.Extends t') (carries : t.Carries cell record) :
    t'.Carries cell record :=
  ⟨reads_of_extends grown carries.toReads,
    Nat.le_trans carries.inside (runLimit_le_of_extends grown)⟩

theorem inside_storeChildren {cells : List Cell} (numbered : (t.storeChildren cells).2.Numbered)
    (label : Label) : (t.storeChildren cells).2.Inside
      ⟨label, .ofNat cells.length, (t.storeChildren cells).1⟩ := by
  have total := numbered.2
  have few := length_lt_of_numbered numbered
  unfold Inside
  rw [runLimit_storeChildren] at total ⊢
  have start : (UInt32.ofNat t.runLimit).toNat = t.runLimit :=
    UInt32.toNat_ofNat_of_lt' (by omega)
  rw [first_storeChildren, UInt32.toNat_ofNat_of_lt' few]
  show (UInt32.ofNat t.runLimit).toNat + cells.length ≤ _
  omega

theorem reading_carries : Reading Carries where
  grow grown carries := carries_of_extends grown carries
  leaf t label := ⟨reading_reads.leaf t label, Nat.zero_le _⟩
  parent label numbered :=
    ⟨reading_reads.parent label numbered, inside_storeChildren numbered label⟩

theorem carries_setNodes (graph : t.isGraph) (carries : t.Carries cell record)
    (nodes : Array Cell) : Carries { t with nodes } cell record := by
  obtain ⟨⟨label, names⟩, inside⟩ := carries
  refine ⟨⟨label, names⟩, ?_⟩
  unfold Inside
  rwa [runLimit_setNodes graph]

theorem carries_record (graph : t.isGraph) (inside : t.Inside cell) :
    t.Carries cell (t.record cell) := by
  have width := length_record graph inside
  refine ⟨⟨rfl, width.symm, ?_⟩, inside⟩
  intro i h
  rw [slot_of_isGraph graph, inBounds_eq_ok]
  have below : i < cell.count.toNat := width ▸ h
  unfold Inside at inside
  rw [runLimit_of_isGraph graph] at inside
  rw [List.getElem?_eq_getElem (by omega)]
  simp [SyntaxTree.record]

theorem record_of_carries (graph : t.isGraph) (carries : t.Carries cell record) :
    t.record cell = record :=
  reads_unique (carries_record graph carries.inside).toReads carries.toReads

theorem carries_records (graph : t.isGraph) {cells : List Cell}
    (inside : ∀ cell ∈ cells, t.Inside cell) :
    List.Forall₂ t.Carries cells (cells.map t.record) := by
  rw [List.forall₂_map_right_iff, List.forall₂_same]
  exact fun cell member => carries_record graph (inside cell member)

theorem records_of_carries (graph : t.isGraph) {cells : List Cell} {records : List Record}
    (carries : List.Forall₂ t.Carries cells records) :
    (∀ cell ∈ cells, t.Inside cell) ∧ cells.map t.record = records := by
  induction carries with
  | nil => simp
  | cons first _ ih =>
    obtain ⟨inside, same⟩ := ih
    exact ⟨List.forall_mem_cons.mpr ⟨first.inside, inside⟩,
      congrArg₂ List.cons (record_of_carries graph first) same⟩

/-! ### Runs that the array lists -/

theorem entries_of_extends (grown : t.layout.Extends t'.layout) : t.entries <+: t'.entries := by
  unfold entries
  cases before : t.layout <;> cases after : t'.layout <;>
    simp only [before, after, Layout.Extends] at grown ⊢
  · exact List.prefix_rfl
  · exact grown

theorem lists_of_extends (grown : t.layout.Extends t'.layout) {first : UInt32} {ids : List NodeId}
    (lists : t.Lists first ids) : t'.Lists first ids := by
  obtain ⟨more, entries⟩ := entries_of_extends grown
  refine ⟨?_, ?_⟩
  · rw [← entries, List.length_append]
    exact Nat.le_add_right_of_le lists.inside
  · rw [← entries, List.drop_append_of_le_length lists.inside]
    exact lists.run.trans (List.prefix_append _ more)

theorem carries_of_lists (graph : t.isGraph) {first : UInt32} {ids : List NodeId}
    (lists : t.Lists first ids) (few : ids.length < UInt32.size) (label : Label) :
    t.Carries ⟨label, .ofNat ids.length, first⟩ ⟨label, ids⟩ := by
  have inside : t.Inside ⟨label, .ofNat ids.length, first⟩ := by
    have shorter := lists.run.length_le
    have start := lists.inside
    rw [List.length_drop] at shorter
    unfold Inside
    rw [runLimit_of_isGraph graph, UInt32.toNat_ofNat_of_lt' few]
    show first.toNat + ids.length ≤ _
    omega
  have same : t.record ⟨label, .ofNat ids.length, first⟩ = ⟨label, ids⟩ := by
    rw [SyntaxTree.record, UInt32.toNat_ofNat_of_lt' few, ← List.prefix_iff_eq_take.mp lists.run]
  rw [← same]
  exact carries_record graph inside

/-- Entries that were added to the array of a graph. -/
theorem lists_of_grown {adjacency : Array NodeId} {ids : List NodeId}
    (grown : t'.layout = .graph (adjacency ++ ids)) (numbered : t'.Numbered) :
    t'.Lists (.ofNat adjacency.size) ids ∧ ids.length < UInt32.size := by
  have entries : t'.entries = adjacency.toList ++ ids := by simp [entries, grown]
  have limit := numbered.2
  rw [runLimit_of_isGraph (by simp [isGraph, grown]), entries, List.length_append,
    Array.length_toList] at limit
  have start : (UInt32.ofNat adjacency.size).toNat = adjacency.toList.length := by
    rw [Array.length_toList]
    exact UInt32.toNat_ofNat_of_lt' (by omega)
  refine ⟨⟨?_, ?_⟩, by omega⟩
  · rw [start, entries, List.length_append]
    omega
  · exact ⟨[], by rw [List.append_nil, start, entries, List.drop_left]⟩

/-! ### Graphs that hold a store -/

structure IsGraphOf (t : SyntaxTree) (s : NodeStore) : Prop where
  graph : t.isGraph
  holds : Holds Carries t s

section

variable (graph : t.IsGraphOf s)
include graph

theorem adjacents_of_graph (id : NodeId) :
    t.adjacents id = (s.record id).map Record.children := by
  obtain ⟨adjacency, layout⟩ := layout_of_isGraph graph.graph
  unfold adjacents
  rcases cell_of_holds graph.holds id with
    ⟨cell, record, stored, recorded, carries⟩ | ⟨missing, unrecorded⟩
  · have children := congrArg Record.children (record_of_carries graph.graph carries)
    have inside := carries.inside
    unfold Inside at inside
    simp only [SyntaxTree.record, entries, layout] at children
    simp only [runLimit, layout] at inside
    rw [stored, recorded, ok_bind, SyntaxTree.adjacency, layout, ok_bind, run, if_pos inside,
      children, map_ok]
  · rw [missing, unrecorded]
    rfl

theorem reveals_of_graph : t.Reveals s := by
  have holds : Holds Reads t s :=
    ⟨graph.holds.nodes.imp fun _ _ carries => carries.toReads, graph.holds.root⟩
  exact ⟨shows_of_holds holds, adjacents_of_graph graph⟩

theorem exists_cell_of_graph {id : NodeId} (stored : id.index < t.nodeCount) :
    ∃ cell record, t.cell id = .ok cell ∧ s.nodes[id.index]? = some record ∧
      t.Carries cell record := by
  rcases cell_of_holds graph.holds id with
    ⟨cell, record, found, recorded, carries⟩ | ⟨missing, _⟩
  · exact ⟨cell, record, found, inBounds_eq_ok.mp recorded, carries⟩
  · unfold nodeCount at stored
    rw [SyntaxTree.cell, Array.getElem?_eq_getElem stored] at missing
    contradiction

/-! ### Storing -/

theorem store_graph {cells : List Cell} {records : List Record}
    (carries : List.Forall₂ t.Carries cells records) :
    (t.store cells).1 = s.nextId ∧ (t.store cells).2.IsGraphOf (s.append records) :=
  ⟨nextId_of_holds graph.holds, graph.graph,
    holds_append reading_carries graph.holds (t.store_extends cells) (by simp [store]) carries rfl⟩

theorem storeChildren_graph {cells : List Cell} {records : List Record}
    (carries : List.Forall₂ t.Carries cells records) :
    (t.storeChildren cells).2.IsGraphOf (s.append records) :=
  ⟨isGraph_of_extends (t.storeChildren_extends cells) graph.graph,
    holds_storeChildren reading_carries graph.holds carries⟩

theorem lists_storeChildren {cells : List Cell} (numbered : (t.storeChildren cells).2.Numbered) :
    (t.storeChildren cells).2.Lists (t.storeChildren cells).1 (s.nextIds cells.length) := by
  obtain ⟨adjacency, layout⟩ := layout_of_isGraph graph.graph
  have grown : (t.storeChildren cells).2.layout = .graph (adjacency ++ t.nextIds cells.length) := by
    simp only [storeChildren, layout]
  have first : (t.storeChildren cells).1 = .ofNat adjacency.size := by
    simp only [storeChildren, layout]
  rw [first, ← nextIds_of_holds graph.holds]
  exact (lists_of_grown grown numbered).1

theorem storeRoot_graph (carries : t.Carries cell record) :
    (t.storeRoot cell).1 = s.nextId ∧ (t.storeRoot cell).2.IsGraphOf (s.plant record) := by
  obtain ⟨id, holds⟩ := holds_storeRoot reading_carries graph.holds carries
  exact ⟨id, graph.graph, holds⟩

theorem lower_graph (block : Block) (numbered : (block.lower t).2.Numbered) :
    (block.lower t).2.IsGraphOf (block.settle s).2 ∧
      List.Forall₂ (block.lower t).2.Carries (block.lower t).1 (block.settle s).1 := by
  obtain ⟨holds, carries⟩ := block.lower_holds reading_carries graph.holds numbered
  exact ⟨⟨isGraph_of_extends (block.lower_extends t) graph.graph, holds⟩, carries⟩

theorem storeAdjacents_graph (ids : List NodeId) :
    ∃ first t', t.storeAdjacents ids = .ok (first, t') ∧ t.Extends t' ∧ t'.IsGraphOf s ∧
      (t'.Numbered → t'.Lists first ids ∧ ids.length < UInt32.size) := by
  obtain ⟨adjacency, layout⟩ := layout_of_isGraph graph.graph
  have grown : t.Extends { t with layout := .graph (adjacency ++ ids) } := by
    refine ⟨List.prefix_rfl, ?_⟩
    rw [layout]
    simp [Layout.Extends]
  have added : t.storeAdjacents ids =
      .ok (.ofNat adjacency.size, { t with layout := .graph (adjacency ++ ids) }) := by
    rw [storeAdjacents, SyntaxTree.adjacency, layout]
    rfl
  have kept := graph.holds.nodes.imp fun _ _ => carries_of_extends grown
  exact ⟨_, _, added, grown, ⟨rfl, kept, graph.holds.root⟩, lists_of_grown rfl⟩

/-- A copy of a node with children is a node over a new run of the same children. -/
theorem copyNode_of_graph {id : NodeId} (found : t.cell id = .ok cell)
    (carries : t.Carries cell record) :
    t.copyNode id =
      if cell.count = 0 then .ok (t.store [.leaf cell.label])
      else (t.storeAdjacents record.children).map fun (first, t) =>
        t.store [{ cell with first }] := by
  obtain ⟨adjacency, layout⟩ := layout_of_isGraph graph.graph
  have inside := carries.inside
  unfold Inside at inside
  simp only [runLimit, layout] at inside
  rw [← record_of_carries graph.graph carries]
  simp only [copyNode, storeAdjacents, SyntaxTree.adjacency, layout, found, ok_bind, run,
    if_pos inside, SyntaxTree.record, entries]
  split <;> rfl

theorem copyNode_graph {id : NodeId} (stored : id.index < t.nodeCount) :
    ∃ after, t.copyNode id = .ok after ∧ t.Extends after.2 ∧
      (after.2.Numbered → after.1 = s.nextId ∧ after.2.IsGraphOf (s.copy id)) := by
  obtain ⟨cell, record, found, recorded, carries⟩ := exists_cell_of_graph graph stored
  obtain ⟨width, _⟩ := carries.names
  rw [copyNode_of_graph graph found carries, NodeStore.copy, recorded, Option.toList_some]
  by_cases childless : cell.count = 0
  · rw [if_pos childless]
    have same : record = ⟨cell.label, []⟩ := by
      rw [childless] at width
      rw [carries.label, ← List.eq_nil_of_length_eq_zero width.symm]
    rw [same]
    refine ⟨_, rfl, t.store_extends _, fun _ => ?_⟩
    exact store_graph graph (.cons (reading_carries.leaf t _) .nil)
  · rw [if_neg childless]
    obtain ⟨first, t', added, grown, kept, lists⟩ := storeAdjacents_graph graph record.children
    rw [added, map_ok]
    refine ⟨_, rfl, extends_trans grown (t'.store_extends _), fun numbered => ?_⟩
    obtain ⟨lists, few⟩ := lists (numbered_of_extends (t'.store_extends _) numbered)
    have copied : Cell.mk cell.label cell.count first =
        ⟨record.label, .ofNat record.children.length, first⟩ := by
      rw [carries.label, ← width, UInt32.ofNat_toNat]
    simp only [copied]
    exact store_graph kept (.cons (carries_of_lists kept.graph lists few _) .nil)

/-- A node of a graph gets another cell. -/
theorem setCell_graph {i : Nat} {f : Record → Record}
    (carries : ∀ record, s.nodes[i]? = some record → t.Carries cell (f record)) :
    IsGraphOf { t with nodes := t.nodes.setIfInBounds i cell }
      { s with nodes := s.nodes.modify i f } := by
  refine ⟨graph.graph, ?_, graph.holds.root⟩
  rw [Array.toList_setIfInBounds]
  exact (forall₂_set_modify graph.holds.nodes carries).imp fun _ _ carries =>
    carries_setNodes graph.graph carries _

theorem setAdjacents_graph {id : NodeId} (stored : id.index < t.nodeCount) (ids : List NodeId) :
    ∃ t', t.setAdjacents id ids = .ok t' ∧ t.layout.Extends t'.layout ∧
      (t'.Numbered → t'.IsGraphOf (s.setChildren id ids)) := by
  obtain ⟨first, t₁, added, grown, kept, lists⟩ := storeAdjacents_graph graph ids
  obtain ⟨cell, record, found, recorded, carries⟩ := exists_cell_of_graph graph stored
  have changed : t.setAdjacents id ids = .ok { t₁ with
      nodes := t₁.nodes.setIfInBounds id.index ⟨cell.label, .ofNat ids.length, first⟩ } := by
    rw [setAdjacents, added, ok_bind]
    show (t₁.cell id >>= _) = _
    rw [cell_of_extends grown found]
    rfl
  refine ⟨_, changed, grown.layout, fun numbered => ?_⟩
  have before : t₁.Numbered := by
    obtain ⟨nodes, limit⟩ := numbered
    rw [runLimit_setNodes kept.graph] at limit
    exact ⟨by simpa [nodeCount] using nodes, limit⟩
  obtain ⟨lists, few⟩ := lists before
  apply setCell_graph kept
  intro other again
  obtain rfl := Option.some.inj (recorded.symm.trans again)
  rw [carries.label]
  exact carries_of_lists kept.graph lists few _

end

theorem graph_empty : emptyGraph.IsGraphOf .empty := ⟨rfl, holds_empty rfl rfl⟩

end SyntaxTree

/-! ### Calls -/

namespace GraphCall

variable {t : SyntaxTree} {s : NodeStore}

theorem call_refines (graph : t.IsGraphOf s) {call : GraphCall} (legal : call.Legal t) :
    ∃ answer t', call.perform t = .ok (answer, t') ∧ t.layout.Extends t'.layout ∧
      (t'.Numbered → call.Answers s t' answer ∧ t'.IsGraphOf (call.effect t s)) := by
  cases call with
  | store cells =>
    refine ⟨_, _, rfl, (t.store_extends cells).layout, fun _ => ?_⟩
    exact SyntaxTree.store_graph graph (SyntaxTree.carries_records graph.graph legal)
  | storeChildren cells =>
    refine ⟨_, _, rfl, (t.storeChildren_extends cells).layout, fun numbered => ?_⟩
    exact ⟨SyntaxTree.lists_storeChildren graph numbered,
      SyntaxTree.storeChildren_graph graph (SyntaxTree.carries_records graph.graph legal)⟩
  | storeRoot cell =>
    refine ⟨_, _, rfl, (t.storeRoot_extends cell).layout, fun _ => ?_⟩
    exact SyntaxTree.storeRoot_graph graph (SyntaxTree.carries_record graph.graph legal)
  | storeSymbol label =>
    refine ⟨.node (t.store [.leaf label]).1, (t.store [.leaf label]).2, ?_,
      (t.store_extends [.leaf label]).layout, fun _ => ?_⟩
    · rw [perform, SyntaxTree.storeSymbol, if_pos graph.graph]
      rfl
    · exact SyntaxTree.store_graph graph (.cons (SyntaxTree.reading_carries.leaf t label) .nil)
  | storeAdjacents ids =>
    obtain ⟨first, t', added, grown, kept, lists⟩ := SyntaxTree.storeAdjacents_graph graph ids
    refine ⟨.run first, t', ?_, grown.layout, fun numbered => ⟨(lists numbered).1, kept⟩⟩
    rw [perform, added]
    rfl
  | copyNode id =>
    obtain ⟨⟨copy, t'⟩, copied, grown, after⟩ := SyntaxTree.copyNode_graph graph legal
    refine ⟨.node copy, t', ?_, grown.layout, after⟩
    rw [perform, copied]
    rfl
  | setAdjacents id ids =>
    obtain ⟨t', changed, grown, after⟩ := SyntaxTree.setAdjacents_graph graph legal ids
    refine ⟨.done, t', ?_, grown, fun numbered => ⟨trivial, after numbered⟩⟩
    rw [perform, changed]
    rfl
  | commitInto block =>
    refine ⟨.cells (block.lower t).1, (block.lower t).2, ?_, (block.lower_extends t).layout,
      fun numbered => ?_⟩
    · rw [perform, Staging.commitInto_ofBlock legal]
      rfl
    · obtain ⟨after, carries⟩ := SyntaxTree.lower_graph graph block numbered
      exact ⟨SyntaxTree.records_of_carries after.graph carries, after⟩
  | commit label children =>
    obtain ⟨root, below, lowered, committed⟩ := Staging.commit_ofBlock legal t
    have before := (Block.node label .insert children).lower_extends t
    have mirrored := SyntaxTree.lower_graph graph (.node label .insert children)
    rw [lowered] at before mirrored
    have grown := below.storeRoot_extends root
    refine ⟨.node (below.storeRoot root).1, (below.storeRoot root).2, ?_,
      (SyntaxTree.extends_trans before grown).layout, fun numbered => ?_⟩
    · rw [perform, committed]
      rfl
    · obtain ⟨after, carries⟩ := mirrored (SyntaxTree.numbered_of_extends grown numbered)
      exact ⟨rfl, (SyntaxTree.storeRoot_graph after (List.forall₂_cons.mp carries).1).2⟩

theorem refines_of_graph (graph : t.IsGraphOf s) (calls : List GraphCall) : Refines calls t s := by
  induction calls generalizing t s with
  | nil => exact SyntaxTree.reveals_of_graph graph
  | cons call rest ih =>
    refine ⟨SyntaxTree.reveals_of_graph graph, fun legal => ?_⟩
    obtain ⟨answer, t', performed, grown, after⟩ := call_refines graph legal
    refine ⟨answer, t', performed, fun _ _ => SyntaxTree.lists_of_extends grown, fun numbered => ?_⟩
    obtain ⟨answers, graph⟩ := after numbered
    exact ⟨answers, ih graph⟩

/-- Calls on an empty graph change what it holds as if no two nodes shared a run. -/
theorem graph_refines_store (calls : List GraphCall) : Refines calls .emptyGraph .empty :=
  refines_of_graph SyntaxTree.graph_empty calls

/-- Legal calls, one after the other, from a graph and its store to the graph and the store after them,
with 32-bit numbers for all nodes and entries on the way. -/
inductive Run : List GraphCall → SyntaxTree → NodeStore → SyntaxTree → NodeStore → Prop where
  | nil (t : SyntaxTree) (s : NodeStore) : Run [] t s t s
  | cons {call : GraphCall} {rest : List GraphCall} {t u t' : SyntaxTree} {s s' : NodeStore}
      {answer : Answer} (legal : call.Legal t) (performed : call.perform t = .ok (answer, u))
      (numbered : u.Numbered) (more : Run rest u (call.effect t s) t' s') :
      Run (call :: rest) t s t' s'

theorem reveals_of_run {calls : List GraphCall} {t' : SyntaxTree} {s' : NodeStore}
    (run : Run calls t s t' s') (refines : Refines calls t s) : t'.Reveals s' := by
  induction run with
  | nil => exact refines
  | cons legal performed numbered _ ih =>
    obtain ⟨_, _, again, -, after⟩ := refines.2 legal
    obtain ⟨-, rfl⟩ := Prod.ext_iff.mp (Except.ok.inj (performed.symm.trans again))
    exact ih (after numbered).2

/-- A copy that gets other children while the original keeps its own, and a commit behind them. -/
theorem graph_refines_store_copied :
    let calls : List GraphCall := [.storeSymbol ⟨1⟩, .storeSymbol ⟨2⟩, .storeSymbol ⟨3⟩,
      .setAdjacents ⟨2⟩ [⟨0⟩, ⟨1⟩], .copyNode ⟨2⟩, .setAdjacents ⟨3⟩ [⟨1⟩, ⟨1⟩],
      .commit ⟨4⟩ [.node ⟨5⟩ .insert []]]
    let t : SyntaxTree := ⟨.graph #[⟨0⟩, ⟨1⟩, ⟨0⟩, ⟨1⟩, ⟨1⟩, ⟨1⟩, ⟨4⟩],
      #[.leaf ⟨1⟩, .leaf ⟨2⟩, ⟨⟨3⟩, 2, 0⟩, ⟨⟨3⟩, 2, 4⟩, .leaf ⟨5⟩, ⟨⟨4⟩, 1, 6⟩], some ⟨5⟩⟩
    let s : NodeStore := ⟨[⟨⟨1⟩, []⟩, ⟨⟨2⟩, []⟩, ⟨⟨3⟩, [⟨0⟩, ⟨1⟩]⟩, ⟨⟨3⟩, [⟨1⟩, ⟨1⟩]⟩,
      ⟨⟨5⟩, []⟩, ⟨⟨4⟩, [⟨4⟩]⟩], some ⟨5⟩⟩
    Run calls .emptyGraph .empty t s ∧ t.Reveals s := by
  intro calls t s
  have run : Run calls .emptyGraph .empty t s := by
    refine .cons trivial rfl (by decide) ?_
    refine .cons trivial rfl (by decide) ?_
    refine .cons trivial rfl (by decide) ?_
    refine .cons (by unfold Legal; decide) rfl (by decide) ?_
    refine .cons (by unfold Legal; decide) rfl (by decide) ?_
    refine .cons (by unfold Legal; decide) rfl (by decide) ?_
    refine .cons (Block.narrow_of_size _ (by decide)) rfl (by decide) ?_
    exact .nil t s
  exact ⟨run, reveals_of_run run (graph_refines_store calls)⟩

end GraphCall

end ParseKit
