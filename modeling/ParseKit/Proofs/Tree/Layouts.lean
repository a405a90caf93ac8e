import ParseKit.Proofs.Tree.NodeStore

/-!
# One tree in two layouts

A `Builder` stores a tree and hands out runs of children and adopted cells, which later calls use
again. The same calls on an empty tree and on an empty graph build trees that no reading tells
apart: `layouts_alike`.
-/

namespace ParseKit

/-- A cell to be stored, told by where its children come from. -/
inductive Given where
  | leaf (label : Label) (first : UInt32)
  /-- A node over the run of children that was handed out with this number. -/
  | parent (label : Label) (run : Nat)
  /-- The cell that was handed out with this number by a commit. -/
  | adopted (place : Nat)
deriving DecidableEq

inductive BuildCall where
  | storeChildren (given : List Given)
  | storeRoot (given : Given)
  | commitInto (staged : Staging)
  | commit (staged : Staging)
deriving DecidableEq

/-- A tree under construction and what it has handed out: runs, as cells without a label, and
adopted cells. -/
structure Builder where
  tree : SyntaxTree
  runs : List Cell
  adopted : List Cell
deriving DecidableEq

namespace Builder

def onTree : Builder := ⟨.emptyTree, [], []⟩

def onGraph : Builder := ⟨.emptyGraph, [], []⟩

def cell? (b : Builder) : Given → Option Cell
  | .leaf label first => some ⟨label, 0, first⟩
  | .parent label run => b.runs[run]?.map fun cell => { cell with label }
  | .adopted place => b.adopted[place]?

/-- What a call answers, if it is a node, and the builder after it. -/
def call (b : Builder) : BuildCall → Except Violation (Option NodeId × Builder)
  | .storeChildren given => do
    let cells ← inBounds (given.mapM b.cell?)
    let (first, tree) := b.tree.storeChildren cells
    return (none, { b with tree, runs := b.runs ++ [⟨.empty, .ofNat cells.length, first⟩] })
  | .storeRoot given => do
    let cell ← inBounds (b.cell? given)
    let (id, tree) := b.tree.storeRoot cell
    return (some id, { b with tree })
  | .commitInto staged => do
    let (cells, tree) ← staged.commitInto b.tree
    return (none, { b with tree, adopted := b.adopted ++ cells })
  | .commit staged => do
    let (id, tree) ← staged.commit b.tree
    return (some id, { b with tree })

end Builder

/-- Both computations fail alike, or both give results that are related. -/
def Agree {α β : Type} (R : α → β → Prop) : Except Violation α → Except Violation β → Prop
  | .ok a, .ok b => R a b
  | .error e, .error e' => e = e'
  | _, _ => False

/-- No reading tells the trees apart. -/
structure SyntaxTree.Alike (t u : SyntaxTree) : Prop where
  nodeCount : t.nodeCount = u.nodeCount
  root : t.root = u.root
  label : ∀ id, t.label id = u.label id
  childCount : ∀ id, t.childCount id = u.childCount id
  child : ∀ id i, t.child id i = u.child id i

/-- The call names what was handed out, and stages one complete block. -/
def BuildCall.Legal (b : Builder) : BuildCall → Prop
  | .storeChildren given => ∀ cell ∈ given, (b.cell? cell).isSome
  | .storeRoot given => (b.cell? given).isSome
  | .commitInto staged => ∃ block : Block, block.Narrow ∧ staged = .ofBlock block
  | .commit staged => ∃ label children, (Block.node label .insert children).Narrow ∧
    staged = .ofBlock (.node label .insert children)

/-- Call by call, a legal call goes through, the builders answer the same nodes and their trees are
alike, as long as 32-bit numbers name all nodes. -/
def Builder.Lockstep : List BuildCall → Builder → Builder → Prop
  | [], b, c => b.tree.Alike c.tree
  | call :: rest, b, c => b.tree.Alike c.tree ∧
    (call.Legal b → ∃ answer, b.call call = .ok answer) ∧
    Agree (fun x y => x.2.tree.nodeCount < UInt32.size → y.2.tree.nodeCount < UInt32.size →
      x.1 = y.1 ∧ Lockstep rest x.2 y.2) (b.call call) (c.call call)

/-! ### What any layout builds -/

/-- What a builder has stored and handed out, without its arrays. -/
structure Ledger where
  store : NodeStore
  runs : List (List NodeId)
  adopted : List Record
deriving DecidableEq

namespace Ledger

def empty : Ledger := ⟨.empty, [], []⟩

def record? (l : Ledger) : Given → Option Record
  | .leaf label _ => some ⟨label, []⟩
  | .parent label run => l.runs[run]?.map fun children => ⟨label, children⟩
  | .adopted place => l.adopted[place]?

def commitInto (l : Ledger) (staged : Staging) : Except Violation (List Record × NodeStore) :=
  if staged.isEmpty then .error .emptyStaging
  else (inBounds (Block.ofEntries staged.entries.toList).head?).map fun block => block.settle l.store

def call (l : Ledger) : BuildCall → Except Violation (Option NodeId × Ledger)
  | .storeChildren given => do
    let records ← inBounds (given.mapM l.record?)
    return (none, { l with
      store := l.store.append records, runs := l.runs ++ [l.store.nextIds records.length] })
  | .storeRoot given => do
    let record ← inBounds (l.record? given)
    return (some l.store.nextId, { l with store := l.store.plant record })
  | .commitInto staged => do
    let (records, store) ← l.commitInto staged
    return (none, { l with store, adopted := l.adopted ++ records })
  | .commit staged =>
    if (staged.entryAt? 0).map Entry.action = some .insert then do
      let (records, store) ← l.commitInto staged
      let record ← inBounds records.head?
      return (some store.nextId, { l with store := store.plant record })
    else .error .rootNotInserted

end Ledger

/-- Runs take no more places than there are nodes. -/
def SyntaxTree.Compact (t : SyntaxTree) : Prop := t.runLimit ≤ t.nodeCount

/-- The builder holds what the ledger says. -/
structure Builder.Follows (b : Builder) (l : Ledger) : Prop where
  holds : SyntaxTree.Holds SyntaxTree.Reads b.tree l.store
  runs : List.Forall₂ b.tree.Names b.runs l.runs
  adopted : List.Forall₂ b.tree.Reads b.adopted l.adopted
  compact : b.tree.Compact

/-! ### Related outcomes -/

section

variable {α β γ δ : Type} {R : α → β → Prop} {S : γ → δ → Prop}

theorem agree_inBounds {x : Option α} {y : Option β} (h : Option.Rel R x y) :
    Agree R (inBounds x) (inBounds y) := by
  cases h with
  | some h => exact h
  | none => exact rfl

theorem agree_bind {x : Except Violation α} {y : Except Violation β} (h : Agree R x y)
    {f : α → Except Violation γ} {g : β → Except Violation δ}
    (each : ∀ a b, R a b → Agree S (f a) (g b)) : Agree S (x >>= f) (y >>= g) := by
  match x, y, h with
  | .ok a, .ok b, h => exact each a b h
  | .error _, .error _, h => exact h

theorem agree_join {x : Except Violation α} {y : Except Violation β} {z : Except Violation γ}
    {R : α → γ → Prop} {S : β → γ → Prop} {Q : α → β → Prop} (left : Agree R x z)
    (right : Agree S y z) (join : ∀ a b c, R a c → S b c → Q a b) : Agree Q x y := by
  match x, y, z, left, right with
  | .ok a, .ok b, .ok c, left, right => exact join a b c left right
  | .error _, .error _, .error _, left, right => exact left.trans right.symm

theorem rel_getElem? {xs : List α} {ys : List β} (h : List.Forall₂ R xs ys) (i : Nat) :
    Option.Rel R xs[i]? ys[i]? := by
  induction h generalizing i with
  | nil => exact .none
  | cons head _ ih =>
    cases i with
    | zero => exact .some head
    | succ i => exact ih i

theorem rel_mapM {f : γ → Option α} {g : γ → Option β} (each : ∀ x, Option.Rel R (f x) (g x))
    (xs : List γ) : Option.Rel (List.Forall₂ R) (xs.mapM f) (xs.mapM g) := by
  induction xs with
  | nil => exact .some .nil
  | cons x xs ih =>
    rw [List.mapM_cons, List.mapM_cons]
    have head := each x
    generalize f x = a, g x = b at head
    generalize xs.mapM f = as, xs.mapM g = bs at ih
    cases head with
    | none => exact .none
    | some head =>
      cases ih with
      | none => exact .none
      | some tail => exact .some (.cons head tail)

theorem exists_mapM {f : α → Option β} {xs : List α}
    (each : ∀ x ∈ xs, (f x).isSome) : ∃ ys, xs.mapM f = some ys := by
  induction xs with
  | nil => exact ⟨[], rfl⟩
  | cons x xs ih =>
    obtain ⟨y, first⟩ := Option.isSome_iff_exists.mp (each x List.mem_cons_self)
    obtain ⟨ys, later⟩ := ih fun x member => each x (List.mem_cons_of_mem _ member)
    rw [List.mapM_cons, first, later]
    exact ⟨y :: ys, rfl⟩

end

/-! ### One call -/

namespace SyntaxTree

variable {t : SyntaxTree}

theorem kept_compact : Kept Compact := by
  intro t cells compact
  unfold Compact
  rw [runLimit_storeChildren, nodeCount_storeChildren]
  exact Nat.add_le_add_right compact _

theorem compact_storeRoot (compact : t.Compact) (cell : Cell) : (t.storeRoot cell).2.Compact := by
  unfold Compact at compact ⊢
  cases layout : t.layout with
  | tree => simp [storeRoot, layout, runLimit]
  | graph adjacency =>
    simp only [storeRoot, layout, runLimit, nodeCount, Array.size_push] at compact ⊢
    omega

theorem numbered_of_compact (compact : t.Compact) (few : t.nodeCount < UInt32.size) : t.Numbered :=
  ⟨few, Nat.lt_of_le_of_lt compact few⟩

end SyntaxTree

namespace Builder

variable {b : Builder} {l : Ledger}

theorem rel_cell? (follows : b.Follows l) (given : Given) :
    Option.Rel b.tree.Reads (b.cell? given) (l.record? given) := by
  cases given with
  | leaf label first => exact .some ⟨rfl, b.tree.names_leaf label first⟩
  | parent label run =>
    have found := rel_getElem? follows.runs run
    rw [cell?, Ledger.record?]
    generalize b.runs[run]? = x, l.runs[run]? = y at found
    cases found with
    | none => exact .none
    | some names => exact .some ⟨rfl, names⟩
  | adopted place => exact rel_getElem? follows.adopted place

/-- A builder on a larger tree, with what it handed out before. -/
theorem follows_of_extends (follows : b.Follows l) {t : SyntaxTree} (grown : b.tree.Extends t)
    {s : NodeStore} (holds : SyntaxTree.Holds SyntaxTree.Reads t s) (compact : t.Compact) :
    Follows { b with tree := t } { l with store := s } :=
  ⟨holds, follows.runs.imp fun _ _ => SyntaxTree.names_of_extends grown,
    follows.adopted.imp fun _ _ => SyntaxTree.reads_of_extends grown, compact⟩

theorem storeChildren_follows (follows : b.Follows l) {cells : List Cell} {records : List Record}
    (reads : List.Forall₂ b.tree.Reads cells records)
    (few : (b.tree.storeChildren cells).2.nodeCount < UInt32.size) :
    Follows
      { b with
        tree := (b.tree.storeChildren cells).2
        runs := b.runs ++ [⟨.empty, .ofNat cells.length, (b.tree.storeChildren cells).1⟩] }
      { l with
        store := l.store.append records
        runs := l.runs ++ [l.store.nextIds records.length] } := by
  have compact := SyntaxTree.kept_compact b.tree cells follows.compact
  have numbered := SyntaxTree.numbered_of_compact compact few
  obtain ⟨holds, runs, adopted, _⟩ := follows_of_extends follows
    (b.tree.storeChildren_extends cells)
    (SyntaxTree.holds_storeChildren SyntaxTree.reading_reads follows.holds reads) compact
  refine ⟨holds, List.rel_append runs (.cons ?_ .nil), adopted, compact⟩
  rw [← reads.length_eq, ← SyntaxTree.nextIds_of_holds follows.holds]
  exact SyntaxTree.names_storeChildren numbered .empty

theorem lower_follows (follows : b.Follows l) (block : Block)
    (few : (block.lower b.tree).2.nodeCount < UInt32.size) :
    Follows { b with tree := (block.lower b.tree).2 } { l with store := (block.settle l.store).2 } ∧
      List.Forall₂ (block.lower b.tree).2.Reads (block.lower b.tree).1
        (block.settle l.store).1 := by
  have compact := Block.lower_keeps SyntaxTree.kept_compact block follows.compact
  obtain ⟨holds, reads⟩ := block.lower_holds SyntaxTree.reading_reads follows.holds
    (SyntaxTree.numbered_of_compact compact few)
  exact ⟨follows_of_extends follows (block.lower_extends b.tree) holds compact, reads⟩

end Builder

/-- The first block of a listing is that of the first entry. -/
theorem Block.head?_ofEntries {entries : List Entry} {entry : Entry} {block : Block}
    (first : entries.head? = some entry) (found : (ofEntries entries).head? = some block) :
    ∃ children, block = node entry.label entry.action children := by
  obtain ⟨rest, rfl⟩ := List.head?_eq_some_iff.mp first
  rw [ofEntries, List.foldr_cons, ← ofEntries] at found
  simp only [attach] at found
  split at found
  · exact ⟨_, (Option.some.inj found).symm⟩
  · contradiction

namespace Builder

variable {b : Builder} {l : Ledger}

theorem agree_commitInto (t : SyntaxTree) (l : Ledger) (staged : Staging) :
    Agree (fun x y => ∃ block, (Block.ofEntries staged.entries.toList).head? = some block ∧
        x = block.lower t ∧ y = block.settle l.store)
      (staged.commitInto t) (l.commitInto staged) := by
  unfold Staging.commitInto Ledger.commitInto
  split
  · exact rfl
  · cases (Block.ofEntries staged.entries.toList).head? with
    | none => exact rfl
    | some block => exact ⟨block, rfl, rfl, rfl⟩

theorem storeRoot_follows (follows : b.Follows l) {cell : Cell} {record : Record}
    (reads : b.tree.Reads cell record) :
    (b.tree.storeRoot cell).1 = l.store.nextId ∧
      Follows { b with tree := (b.tree.storeRoot cell).2 }
        { l with store := l.store.plant record } := by
  obtain ⟨id, holds⟩ := SyntaxTree.holds_storeRoot SyntaxTree.reading_reads follows.holds reads
  exact ⟨id, follows_of_extends follows (b.tree.storeRoot_extends cell) holds
    (SyntaxTree.compact_storeRoot follows.compact cell)⟩

theorem call_follows (follows : b.Follows l) (call : BuildCall) :
    Agree (fun x y => x.2.tree.nodeCount < UInt32.size → x.1 = y.1 ∧ x.2.Follows y.2)
      (b.call call) (l.call call) := by
  cases call with
  | storeChildren given =>
    refine agree_bind (agree_inBounds (rel_mapM (rel_cell? follows) given)) ?_
    intro cells records reads few
    exact ⟨rfl, storeChildren_follows follows reads few⟩
  | storeRoot given =>
    refine agree_bind (agree_inBounds (rel_cell? follows given)) ?_
    intro cell record reads _
    obtain ⟨id, stored⟩ := storeRoot_follows follows reads
    exact ⟨congrArg some id, stored⟩
  | commitInto staged =>
    refine agree_bind (agree_commitInto b.tree l staged) ?_
    rintro _ _ ⟨block, -, rfl, rfl⟩ few
    obtain ⟨⟨holds, runs, adopted, compact⟩, reads⟩ := lower_follows follows block few
    exact ⟨rfl, holds, runs, List.rel_append adopted reads, compact⟩
  | commit staged =>
    simp only [call, Ledger.call, Staging.commit]
    split
    · next inserted =>
      rw [bind_assoc]
      refine agree_bind (agree_commitInto b.tree l staged) ?_
      rintro _ _ ⟨block, front, rfl, rfl⟩
      obtain ⟨entry, first, action⟩ := Option.map_eq_some_iff.mp inserted
      rw [Staging.entryAt?, ← Array.getElem?_toList, ← List.head?_eq_getElem?] at first
      obtain ⟨children, rfl⟩ := Block.head?_ofEntries first front
      rw [action]
      intro few
      have grown := SyntaxTree.storeRoot_extends
        ((Block.node entry.label .insert children).lower b.tree).2
        ((Block.lowerAll children b.tree).2.adopt entry.label (Block.lowerAll children b.tree).1).1
      obtain ⟨below, reads⟩ := lower_follows follows (.node entry.label .insert children)
        (Nat.lt_of_le_of_lt (SyntaxTree.nodeCount_le_of_extends grown) few)
      obtain ⟨id, stored⟩ := storeRoot_follows below (List.forall₂_cons.mp reads).1
      exact ⟨congrArg some id, stored⟩
    · exact rfl

theorem call_of_legal {call : BuildCall} (legal : call.Legal b) :
    ∃ answer, b.call call = .ok answer := by
  cases call with
  | storeChildren given =>
    obtain ⟨cells, found⟩ := exists_mapM legal
    rw [Builder.call, found]
    exact ⟨_, rfl⟩
  | storeRoot given =>
    obtain ⟨cell, found⟩ := Option.isSome_iff_exists.mp legal
    rw [Builder.call, found]
    exact ⟨_, rfl⟩
  | commitInto staged =>
    obtain ⟨block, narrow, rfl⟩ := legal
    rw [Builder.call, Staging.commitInto_ofBlock narrow]
    exact ⟨_, rfl⟩
  | commit staged =>
    obtain ⟨label, children, narrow, rfl⟩ := legal
    obtain ⟨root, t, _, committed⟩ := Staging.commit_ofBlock narrow b.tree
    rw [Builder.call, committed]
    exact ⟨_, rfl⟩

theorem alike_of_follows {c : Builder} (left : b.Follows l) (right : c.Follows l) :
    b.tree.Alike c.tree := by
  obtain ⟨nodeCount, root, label, childCount, child⟩ :=
    SyntaxTree.shows_of_holds left.holds
  obtain ⟨nodeCount', root', label', childCount', child'⟩ :=
    SyntaxTree.shows_of_holds right.holds
  exact ⟨nodeCount.trans nodeCount'.symm, root.trans root'.symm,
    fun id => (label id).trans (label' id).symm,
    fun id => (childCount id).trans (childCount' id).symm,
    fun id i => (child id i).trans (child' id i).symm⟩

theorem lockstep_of_follows {c : Builder} (left : b.Follows l) (right : c.Follows l)
    (calls : List BuildCall) : Lockstep calls b c := by
  induction calls generalizing b c l with
  | nil => exact alike_of_follows left right
  | cons call rest ih =>
    refine ⟨alike_of_follows left right, call_of_legal, ?_⟩
    refine agree_join (call_follows left call) (call_follows right call) ?_
    intro x y z left right few few'
    obtain ⟨id, left⟩ := left few
    obtain ⟨id', right⟩ := right few'
    exact ⟨id.trans id'.symm, ih left right⟩

theorem follows_empty (t : SyntaxTree) (nodes : t.nodes = #[]) (root : t.root = none)
    (compact : t.Compact) : Follows ⟨t, [], []⟩ .empty :=
  ⟨SyntaxTree.holds_empty nodes root, .nil, .nil, compact⟩

/-- The same calls build trees that read the same in both layouts. -/
theorem layouts_alike (calls : List BuildCall) : Lockstep calls onTree onGraph :=
  lockstep_of_follows (follows_empty .emptyTree rfl rfl (Nat.le_refl 0))
    (follows_empty .emptyGraph rfl rfl (Nat.le_refl 0)) calls

/-- Legal calls, one after the other, with 32-bit numbers for all nodes on the way. -/
inductive Run : List BuildCall → Builder → Builder → Prop where
  | nil (b : Builder) : Run [] b b
  | cons {call : BuildCall} {rest : List BuildCall} {b b₁ b' : Builder} {id : Option NodeId}
      (legal : call.Legal b) (done : b.call call = .ok (id, b₁))
      (few : b₁.tree.nodeCount < UInt32.size) (more : Run rest b₁ b') : Run (call :: rest) b b'

theorem alike_of_run {calls : List BuildCall} {b' c c' : Builder} (left : Run calls b b')
    (right : Run calls c c') (lockstep : Lockstep calls b c) : b'.tree.Alike c'.tree := by
  induction left generalizing c with
  | nil =>
    cases right
    exact lockstep
  | cons _ done few _ ih =>
    cases right with
    | cons _ done' few' more =>
      obtain ⟨-, -, agree⟩ := lockstep
      rw [done, done'] at agree
      exact ih more (agree few few').2

/-- A root in between moves the runs of the two layouts apart, and the cells read the same. -/
theorem layouts_alike_apart :
    let pair := Block.node ⟨4⟩ .replace [.node ⟨5⟩ .insert [.node ⟨6⟩ .insert []],
      .node ⟨7⟩ .insert []]
    let calls : List BuildCall := [.storeChildren [.leaf ⟨1⟩ 0, .leaf ⟨2⟩ 0],
      .storeRoot (.parent ⟨3⟩ 0), .commitInto (.ofBlock pair),
      .storeChildren [.parent ⟨8⟩ 0, .adopted 0, .adopted 1],
      .commit (.ofBlock (.node ⟨9⟩ .insert [.node ⟨10⟩ .insert []]))]
    let b : Builder := ⟨⟨.tree,
      #[.leaf ⟨1⟩, .leaf ⟨2⟩, ⟨⟨3⟩, 2, 0⟩, .leaf ⟨6⟩, ⟨⟨8⟩, 2, 0⟩, ⟨⟨5⟩, 1, 3⟩, .leaf ⟨7⟩,
        .leaf ⟨10⟩, ⟨⟨9⟩, 1, 7⟩], some ⟨8⟩⟩,
      [⟨.empty, 2, 0⟩, ⟨.empty, 3, 4⟩], [⟨⟨5⟩, 1, 3⟩, .leaf ⟨7⟩]⟩
    let c : Builder := ⟨⟨.graph #[⟨0⟩, ⟨1⟩, ⟨3⟩, ⟨4⟩, ⟨5⟩, ⟨6⟩, ⟨7⟩],
      #[.leaf ⟨1⟩, .leaf ⟨2⟩, ⟨⟨3⟩, 2, 0⟩, .leaf ⟨6⟩, ⟨⟨8⟩, 2, 0⟩, ⟨⟨5⟩, 1, 2⟩, .leaf ⟨7⟩,
        .leaf ⟨10⟩, ⟨⟨9⟩, 1, 6⟩], some ⟨8⟩⟩,
      [⟨.empty, 2, 0⟩, ⟨.empty, 3, 3⟩], [⟨⟨5⟩, 1, 2⟩, .leaf ⟨7⟩]⟩
    Run calls onTree b ∧ Run calls onGraph c ∧ b.tree.Alike c.tree := by
  intro pair calls b c
  have narrow : pair.Narrow := Block.narrow_of_size pair (by decide)
  have below : (Block.node ⟨9⟩ .insert [.node ⟨10⟩ .insert []]).Narrow :=
    Block.narrow_of_size _ (by decide)
  have runs : Run calls onTree b ∧ Run calls onGraph c := by
    constructor
    all_goals
      refine .cons (by unfold BuildCall.Legal; decide) rfl (by decide) ?_
      refine .cons (by unfold BuildCall.Legal; decide) rfl (by decide) ?_
      refine .cons ⟨pair, narrow, rfl⟩ rfl (by decide) ?_
      refine .cons (by unfold BuildCall.Legal; decide) rfl (by decide) ?_
      refine .cons ⟨_, _, below, rfl⟩ rfl (by decide) ?_
      exact .nil _
  exact ⟨runs.1, runs.2, alike_of_run runs.1 runs.2 (layouts_alike calls)⟩

end Builder

end ParseKit
