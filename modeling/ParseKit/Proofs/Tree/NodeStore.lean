import ParseKit.Proofs.Tree.Splicing

/-!
# Trees as stores of nodes

A `NodeStore` is what a tree holds in either layout: a label and a list of children for each node,
and the root. `SyntaxTree.Holds` says that a tree holds a store, and `shows_of_holds` that all its
readings then follow from the store.
-/

namespace ParseKit

structure Record where
  label : Label
  children : List NodeId
deriving DecidableEq

structure NodeStore where
  nodes : List Record
  root : Option NodeId
deriving DecidableEq

namespace NodeStore

def empty : NodeStore := ⟨[], none⟩

def nextId (s : NodeStore) : NodeId := .ofIndex s.nodes.length

def nextIds (s : NodeStore) (n : Nat) : List NodeId :=
  (List.range n).map fun i => .ofIndex (s.nodes.length + i)

def append (s : NodeStore) (records : List Record) : NodeStore :=
  { s with nodes := s.nodes ++ records }

/-- Stores one more node, as the root. -/
def plant (s : NodeStore) (record : Record) : NodeStore := ⟨s.nodes ++ [record], some s.nextId⟩

def record (s : NodeStore) (id : NodeId) : Except Violation Record := inBounds s.nodes[id.index]?

def child (s : NodeStore) (id : NodeId) (i : Nat) : Except Violation NodeId := do
  let record ← s.record id
  match record.children[i]? with
  | some child => return child
  | none => throw (.noSuchChild i id.raw (.ofNat record.children.length))

theorem append_nil (s : NodeStore) : s.append [] = s := by
  simp [append]

end NodeStore

namespace Block

mutual

/-- Stores all that lies below a block and gives the records that its parent adopts. -/
def settle : Block → NodeStore → List Record × NodeStore
  | node label action children, s =>
    let (records, s) := settleAll children s
    match action with
    | .replace => (records, s)
    | .insert => ([⟨label, s.nextIds records.length⟩], s.append records)

def settleAll : List Block → NodeStore → List Record × NodeStore
  | [], s => ([], s)
  | block :: rest, s =>
    let (records, s) := settle block s
    let (more, s) := settleAll rest s
    (records ++ more, s)

end

end Block

namespace SyntaxTree

variable {t t' : SyntaxTree} {s : NodeStore} {cell : Cell} {record : Record}

/-- The cell names these children: as many as it counts, in the order of its run. -/
def Names (t : SyntaxTree) (cell : Cell) (ids : List NodeId) : Prop :=
  cell.count.toNat = ids.length ∧ ∀ (i : Nat) (h : i < ids.length), t.slot cell i = .ok ids[i]

structure Reads (t : SyntaxTree) (cell : Cell) (record : Record) : Prop where
  label : cell.label = record.label
  names : t.Names cell record.children

/-- The tree holds the store, where a cell that is related by `R` to a record stands for it. -/
structure Holds (R : SyntaxTree → Cell → Record → Prop) (t : SyntaxTree) (s : NodeStore) :
    Prop where
  nodes : List.Forall₂ (R t) t.nodes.toList s.nodes
  root : t.root = s.root

/-- All that is read from the tree is what the store holds. -/
structure Shows (t : SyntaxTree) (s : NodeStore) : Prop where
  nodeCount : t.nodeCount = s.nodes.length
  root : t.root = s.root
  label : ∀ id, t.label id = (s.record id).map Record.label
  childCount : ∀ id, t.childCount id = (s.record id).map fun record => record.children.length
  child : ∀ id i, t.child id i = s.child id i

theorem names_leaf (t : SyntaxTree) (label : Label) (first : UInt32) :
    t.Names ⟨label, 0, first⟩ [] :=
  ⟨rfl, fun _ h => absurd h (Nat.not_lt_zero _)⟩

theorem names_of_extends (grown : t.Extends t') {ids : List NodeId} (names : t.Names cell ids) :
    t'.Names cell ids :=
  ⟨names.1, fun i h => slot_of_extends grown (names.2 i h)⟩

theorem reads_of_extends (grown : t.Extends t') (reads : t.Reads cell record) :
    t'.Reads cell record :=
  ⟨reads.label, names_of_extends grown reads.names⟩

/-! ### What a tree shows -/

section

variable {R : SyntaxTree → Cell → Record → Prop}

theorem holds_empty (nodes : t.nodes = #[]) (root : t.root = none) : Holds R t .empty := by
  refine ⟨?_, root⟩
  rw [nodes]
  exact .nil

section

variable (holds : Holds R t s)
include holds

theorem nodeCount_of_holds : t.nodeCount = s.nodes.length := by
  rw [nodeCount, ← Array.length_toList]
  exact holds.nodes.length_eq

theorem nextId_of_holds : t.nextId = s.nextId := by
  rw [nextId, nodeCount_of_holds holds]
  rfl

theorem nextIds_of_holds (n : Nat) : t.nextIds n = s.nextIds n := by
  rw [nextIds, nodeCount_of_holds holds]
  rfl

theorem cell_of_holds (id : NodeId) :
    (∃ cell record, t.cell id = .ok cell ∧ s.record id = .ok record ∧ R t cell record) ∨
      (t.cell id = .error .outOfBounds ∧ s.record id = .error .outOfBounds) := by
  obtain ⟨length, each⟩ := List.forall₂_iff_get.mp holds.nodes
  unfold SyntaxTree.cell NodeStore.record
  rw [← Array.getElem?_toList]
  by_cases stored : id.index < t.nodes.toList.length
  · left
    refine ⟨_, _, ?_, ?_, each id.index stored (length ▸ stored)⟩
    · rw [List.getElem?_eq_getElem stored, inBounds_some]
      rfl
    · rw [List.getElem?_eq_getElem (length ▸ stored), inBounds_some]
      rfl
  · right
    rw [List.getElem?_eq_none (Nat.le_of_not_lt stored),
      List.getElem?_eq_none (length ▸ Nat.le_of_not_lt stored)]
    exact ⟨rfl, rfl⟩

end

end

theorem shows_of_holds (holds : Holds Reads t s) : t.Shows s := by
  refine ⟨nodeCount_of_holds holds, holds.root, ?_, ?_, ?_⟩
  · intro id
    rcases cell_of_holds holds id with
      ⟨cell, record, stored, recorded, reads⟩ | ⟨missing, unrecorded⟩
    · rw [label, stored, recorded, map_ok, map_ok, reads.label]
    · rw [label, missing, unrecorded]
      rfl
  · intro id
    rcases cell_of_holds holds id with
      ⟨cell, record, stored, recorded, reads⟩ | ⟨missing, unrecorded⟩
    · rw [childCount, stored, recorded, map_ok, map_ok, reads.names.1]
    · rw [childCount, missing, unrecorded]
      rfl
  · intro id i
    unfold child NodeStore.child
    rcases cell_of_holds holds id with
      ⟨cell, record, stored, recorded, reads⟩ | ⟨missing, unrecorded⟩
    · obtain ⟨width, slots⟩ := reads.names
      rw [stored, recorded, ok_bind, ok_bind, width]
      by_cases inside : i < record.children.length
      · rw [if_pos inside, slots i inside, List.getElem?_eq_getElem inside]
        rfl
      · rw [if_neg inside, List.getElem?_eq_none (Nat.le_of_not_lt inside), ← width,
          UInt32.ofNat_toNat]
    · rw [missing, unrecorded]
      rfl

/-! ### Storing -/

/-- Every node and every place in a run has a 32-bit number. -/
def Numbered (t : SyntaxTree) : Prop := t.nodeCount < UInt32.size ∧ t.runLimit < UInt32.size

instance (t : SyntaxTree) : Decidable t.Numbered := inferInstanceAs (Decidable (_ ∧ _))

theorem indexable_of_numbered (numbered : t.Numbered) : t.Indexable :=
  ⟨Nat.le_of_lt numbered.1, Nat.le_of_lt numbered.2⟩

theorem numbered_of_extends (grown : t.Extends t') (numbered : t'.Numbered) : t.Numbered :=
  ⟨Nat.lt_of_le_of_lt (nodeCount_le_of_extends grown) numbered.1,
    Nat.lt_of_le_of_lt (runLimit_le_of_extends grown) numbered.2⟩

theorem root_storeChildren (t : SyntaxTree) (cells : List Cell) :
    (t.storeChildren cells).2.root = t.root := by
  unfold storeChildren
  split <;> rfl

theorem length_nextIds (t : SyntaxTree) (n : Nat) : (t.nextIds n).length = n := by
  simp [nextIds]

theorem length_lt_of_numbered {cells : List Cell} (numbered : (t.storeChildren cells).2.Numbered) :
    cells.length < UInt32.size := by
  have total := numbered.1
  rw [nodeCount_storeChildren] at total
  omega

/-- The run that is handed out for children that were stored. -/
theorem names_storeChildren {cells : List Cell} (numbered : (t.storeChildren cells).2.Numbered)
    (label : Label) :
    (t.storeChildren cells).2.Names ⟨label, .ofNat cells.length, (t.storeChildren cells).1⟩
      (t.nextIds cells.length) := by
  refine ⟨?_, ?_⟩
  · rw [t.length_nextIds]
    exact UInt32.toNat_ofNat_of_lt' (length_lt_of_numbered numbered)
  · intro i h
    rw [t.length_nextIds] at h
    rw [slot_storeChildren (indexable_of_numbered numbered) label _ h]
    simp [nextIds]

/-- A relation of cells and records that outlasts storing, and that relates a parent to the children
that were stored for it. -/
structure Reading (R : SyntaxTree → Cell → Record → Prop) : Prop where
  grow : ∀ {t t' cell record}, t.Extends t' → R t cell record → R t' cell record
  leaf : ∀ t label, R t (.leaf label) ⟨label, []⟩
  parent : ∀ {t : SyntaxTree} {cells : List Cell} (label : Label),
    (t.storeChildren cells).2.Numbered →
      R (t.storeChildren cells).2 ⟨label, .ofNat cells.length, (t.storeChildren cells).1⟩
        ⟨label, t.nextIds cells.length⟩

theorem reading_reads : Reading Reads where
  grow grown reads := reads_of_extends grown reads
  leaf t label := ⟨rfl, t.names_leaf label 0⟩
  parent label numbered := ⟨rfl, names_storeChildren numbered label⟩

section

variable {R : SyntaxTree → Cell → Record → Prop} (reading : Reading R) (holds : Holds R t s)
include reading holds

theorem holds_append {cells : List Cell} {records : List Record} (grown : t.Extends t')
    (stored : t'.nodes.toList = t.nodes.toList ++ cells)
    (related : List.Forall₂ (R t) cells records) (root : t'.root = t.root) :
    Holds R t' (s.append records) := by
  refine ⟨?_, root.trans holds.root⟩
  rw [stored]
  exact (List.rel_append holds.nodes related).imp fun _ _ => reading.grow grown

theorem holds_storeChildren {cells : List Cell} {records : List Record}
    (related : List.Forall₂ (R t) cells records) :
    Holds R (t.storeChildren cells).2 (s.append records) :=
  holds_append reading holds (t.storeChildren_extends cells) (toList_nodes_storeChildren t cells)
    related (t.root_storeChildren cells)

theorem holds_storeRoot (related : R t cell record) :
    (t.storeRoot cell).1 = s.nextId ∧ Holds R (t.storeRoot cell).2 (s.plant record) := by
  have next := nextId_of_holds holds
  refine ⟨next, ?_, congrArg some next⟩
  simp only [storeRoot, Array.toList_push]
  exact (List.rel_append holds.nodes (.cons related .nil)).imp fun _ _ =>
    reading.grow (t.storeRoot_extends cell)

theorem holds_adopt {cells : List Cell} {records : List Record}
    (related : List.Forall₂ (R t) cells records) (label : Label)
    (numbered : (t.adopt label cells).2.Numbered) :
    Holds R (t.adopt label cells).2 (s.append records) ∧
      R (t.adopt label cells).2 (t.adopt label cells).1 ⟨label, s.nextIds records.length⟩ := by
  unfold adopt at numbered ⊢
  split at numbered
  · next none =>
    obtain rfl := List.isEmpty_iff.mp none
    cases related
    rw [s.append_nil]
    exact ⟨holds, reading.leaf t label⟩
  · next some =>
    rw [if_neg some, ← related.length_eq, ← nextIds_of_holds holds]
    exact ⟨holds_storeChildren reading holds related, reading.parent label numbered⟩

end

end SyntaxTree

namespace Block

section

variable {R : SyntaxTree → Cell → Record → Prop}

mutual

theorem lower_holds (reading : SyntaxTree.Reading R) :
    ∀ (block : Block) {t : SyntaxTree} {s : NodeStore}, SyntaxTree.Holds R t s →
      (block.lower t).2.Numbered → SyntaxTree.Holds R (block.lower t).2 (block.settle s).2 ∧
        List.Forall₂ (R (block.lower t).2) (block.lower t).1 (block.settle s).1
  | node label .replace children, t, s, holds, numbered => by
    rw [lower_replace] at numbered ⊢
    exact lowerAll_holds reading children holds numbered
  | node label .insert children, t, s, holds, numbered => by
    rw [lower_insert] at numbered ⊢
    have grown := (lowerAll children t).2.adopt_extends label (lowerAll children t).1
    obtain ⟨below, cells⟩ :=
      lowerAll_holds reading children holds (SyntaxTree.numbered_of_extends grown numbered)
    obtain ⟨adopted, cell⟩ := SyntaxTree.holds_adopt reading below cells label numbered
    exact ⟨adopted, .cons cell .nil⟩

theorem lowerAll_holds (reading : SyntaxTree.Reading R) :
    ∀ (blocks : List Block) {t : SyntaxTree} {s : NodeStore}, SyntaxTree.Holds R t s →
      (lowerAll blocks t).2.Numbered →
        SyntaxTree.Holds R (lowerAll blocks t).2 (settleAll blocks s).2 ∧
          List.Forall₂ (R (lowerAll blocks t).2) (lowerAll blocks t).1 (settleAll blocks s).1
  | [], t, s, holds, _ => ⟨holds, .nil⟩
  | block :: rest, t, s, holds, numbered => by
    rw [lowerAll_cons] at numbered ⊢
    have grown := lowerAll_extends rest (block.lower t).2
    obtain ⟨first, cells⟩ :=
      lower_holds reading block holds (SyntaxTree.numbered_of_extends grown numbered)
    obtain ⟨last, more⟩ := lowerAll_holds reading rest first numbered
    exact ⟨last, List.rel_append (cells.imp fun _ _ => reading.grow grown) more⟩

end

end

end Block

end ParseKit
