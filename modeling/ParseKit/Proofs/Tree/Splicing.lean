import ParseKit.Proofs.Tree.Denotation
import ParseKit.Tree.Staging

/-!
# Committing a staged block

A block is staged as its listing: its nodes in pre-order, each with the number of its child blocks.
`commit_splices` reads what a commit stores back as the trees of the block, in which a replaced
node has given its place to its children.
-/

namespace ParseKit

namespace Block

mutual

def size : Block → Nat
  | node _ _ children => sizeAll children + 1

def sizeAll : List Block → Nat
  | [] => 0
  | block :: rest => size block + sizeAll rest

end

mutual

def listing : Block → List Entry
  | node label action children =>
    ⟨label, .ofNat children.length, action⟩ :: listingAll children

def listingAll : List Block → List Entry
  | [] => []
  | block :: rest => listing block ++ listingAll rest

end

mutual

/-- The trees that a parent adopts from a block. -/
def shapes : Block → List Shape
  | node _ .replace children => shapesAll children
  | node label .insert children => [.node label (shapesAll children)]

def shapesAll : List Block → List Shape
  | [] => []
  | block :: rest => shapes block ++ shapesAll rest

end

mutual

/-- Every node has few enough children for a 32-bit count. -/
def Narrow : Block → Prop
  | node _ _ children => children.length < UInt32.size ∧ NarrowAll children

def NarrowAll : List Block → Prop
  | [] => True
  | block :: rest => Narrow block ∧ NarrowAll rest

end

theorem length_le_sizeAll (blocks : List Block) : blocks.length ≤ sizeAll blocks := by
  induction blocks with
  | nil => simp [sizeAll]
  | cons block rest ih =>
    cases block
    simp only [List.length_cons, sizeAll, size]
    omega

mutual

theorem narrow_of_size : ∀ (block : Block), block.size < UInt32.size → block.Narrow
  | node _ _ children, small => by
    rw [size] at small
    have few := length_le_sizeAll children
    exact ⟨by omega, narrowAll_of_size children (by omega)⟩

theorem narrowAll_of_size : ∀ (blocks : List Block), sizeAll blocks < UInt32.size → NarrowAll blocks
  | [], _ => trivial
  | block :: rest, small => by
    rw [sizeAll] at small
    exact ⟨narrow_of_size block (by omega), narrowAll_of_size rest (by omega)⟩

end

/-! ### Reading a listing -/

theorem attach_append (label : Label) (action : Action) {children : List Block}
    (few : children.length < UInt32.size) (rest : List Block) :
    attach ⟨label, .ofNat children.length, action⟩ (children ++ rest) =
      node label action children :: rest := by
  simp [attach, UInt32.toNat_ofNat_of_lt' few]

mutual

theorem ofEntries_listing : ∀ (block : Block) (rest : List Entry), block.Narrow →
    ofEntries (block.listing ++ rest) = block :: ofEntries rest
  | node label action children, rest, ⟨few, below⟩ => by
    rw [listing, List.cons_append, ofEntries, List.foldr_cons, ← ofEntries,
      ofEntries_listingAll children rest below]
    exact attach_append label action few _

theorem ofEntries_listingAll : ∀ (blocks : List Block) (rest : List Entry), NarrowAll blocks →
    ofEntries (listingAll blocks ++ rest) = blocks ++ ofEntries rest
  | [], rest, _ => rfl
  | block :: blocks, rest, ⟨first, later⟩ => by
    rw [listingAll, List.append_assoc, ofEntries_listing block _ first,
      ofEntries_listingAll blocks rest later, List.cons_append]

end

/-! ### Storing a block -/

theorem lower_replace (label : Label) (children : List Block) (t : SyntaxTree) :
    (node label .replace children).lower t = lowerAll children t := rfl

theorem lower_insert (label : Label) (children : List Block) (t : SyntaxTree) :
    (node label .insert children).lower t =
      let below := lowerAll children t
      ([(below.2.adopt label below.1).1], (below.2.adopt label below.1).2) := rfl

theorem lowerAll_cons (block : Block) (rest : List Block) (t : SyntaxTree) :
    lowerAll (block :: rest) t =
      ((block.lower t).1 ++ (lowerAll rest (block.lower t).2).1,
        (lowerAll rest (block.lower t).2).2) := rfl

end Block

/-- A property of trees that no storing of children loses. -/
def SyntaxTree.Kept (P : SyntaxTree → Prop) : Prop :=
  ∀ t cells, P t → P (t.storeChildren cells).2

theorem SyntaxTree.kept_extends (t : SyntaxTree) : Kept t.Extends :=
  fun u cells grown => extends_trans grown (u.storeChildren_extends cells)

theorem SyntaxTree.adopt_keeps {P : SyntaxTree → Prop} (kept : Kept P) {t : SyntaxTree}
    (before : P t) (label : Label) (cells : List Cell) : P (t.adopt label cells).2 := by
  unfold adopt
  split
  · exact before
  · exact kept t cells before

theorem SyntaxTree.adopt_extends (t : SyntaxTree) (label : Label) (cells : List Cell) :
    t.Extends (t.adopt label cells).2 :=
  adopt_keeps t.kept_extends t.extends_refl label cells

theorem SyntaxTree.nodeCount_adopt (t : SyntaxTree) (label : Label) (cells : List Cell) :
    (t.adopt label cells).2.nodeCount = t.nodeCount + cells.length := by
  unfold adopt
  split
  · next none => simp [List.isEmpty_iff.mp none]
  · exact nodeCount_storeChildren t cells

theorem SyntaxTree.adopt_denotes {t : SyntaxTree} {cells : List Cell} {shapes : List Shape}
    (denoted : List.Forall₂ t.Denotes cells shapes) (label : Label)
    (small : (t.adopt label cells).2.Indexable) (few : cells.length < UInt32.size) :
    (t.adopt label cells).2.Denotes (t.adopt label cells).1 (.node label shapes) := by
  unfold adopt at small ⊢
  split at small
  · next empty =>
    obtain rfl := List.isEmpty_iff.mp empty
    cases denoted
    exact .node [] rfl (by simp) rfl (by simp)
  · next more =>
    rw [if_neg more]
    exact denotes_storeChildren denoted small few label

namespace Block

mutual

theorem lower_keeps {P : SyntaxTree → Prop} (kept : SyntaxTree.Kept P) :
    ∀ (block : Block) {t : SyntaxTree}, P t → P (block.lower t).2
  | node label .replace children, t, before => by
    rw [lower_replace]
    exact lowerAll_keeps kept children before
  | node label .insert children, t, before => by
    rw [lower_insert]
    exact SyntaxTree.adopt_keeps kept (lowerAll_keeps kept children before) label _

theorem lowerAll_keeps {P : SyntaxTree → Prop} (kept : SyntaxTree.Kept P) :
    ∀ (blocks : List Block) {t : SyntaxTree}, P t → P (lowerAll blocks t).2
  | [], t, before => before
  | block :: rest, t, before => by
    rw [lowerAll_cons]
    exact lowerAll_keeps kept rest (lower_keeps kept block before)

end

theorem lower_extends (block : Block) (t : SyntaxTree) : t.Extends (block.lower t).2 :=
  lower_keeps t.kept_extends block t.extends_refl

theorem lowerAll_extends (blocks : List Block) (t : SyntaxTree) : t.Extends (lowerAll blocks t).2 :=
  lowerAll_keeps t.kept_extends blocks t.extends_refl

mutual

theorem length_lower_le : ∀ (block : Block) (t : SyntaxTree), (block.lower t).1.length ≤ block.size
  | node label .replace children, t => by
    have below := length_lowerAll_le children t
    rw [lower_replace, size]
    omega
  | node label .insert children, t => by simp [lower_insert, size]

theorem length_lowerAll_le : ∀ (blocks : List Block) (t : SyntaxTree),
    (lowerAll blocks t).1.length ≤ sizeAll blocks
  | [], t => by simp [lowerAll]
  | block :: rest, t => by
    have first := length_lower_le block t
    have later := length_lowerAll_le rest (block.lower t).2
    rw [lowerAll_cons, sizeAll, List.length_append]
    omega

end

mutual

/-- Either bound keeps the number of adopted cells a 32-bit word: on the staged nodes, or on the nodes
stored in the end. -/
theorem lower_denotes_of_few : ∀ (block : Block) (t : SyntaxTree),
    block.size < UInt32.size ∨ (block.lower t).2.nodeCount < UInt32.size →
    (block.lower t).2.Indexable →
    List.Forall₂ (block.lower t).2.Denotes (block.lower t).1 block.shapes
  | node label .replace children, t, few, indexable => by
    rw [size] at few
    rw [lower_replace] at few indexable ⊢
    exact lowerAll_denotes_of_few children t (few.imp_left Nat.lt_of_succ_lt) indexable
  | node label .insert children, t, few, indexable => by
    rw [size] at few
    rw [lower_insert] at few indexable ⊢
    have grown := (lowerAll children t).2.adopt_extends label (lowerAll children t).1
    have below := lowerAll_denotes_of_few children t
      (few.imp Nat.lt_of_succ_lt (Nat.lt_of_le_of_lt (SyntaxTree.nodeCount_le_of_extends grown)))
      (SyntaxTree.indexable_of_extends grown indexable)
    have adopted : (lowerAll children t).1.length < UInt32.size := by
      have staged := length_lowerAll_le children t
      have stored := (lowerAll children t).2.nodeCount_adopt label (lowerAll children t).1
      rcases few with few | few
      · omega
      · exact Nat.lt_of_le_of_lt (stored ▸ Nat.le_add_left _ _) few
    exact .cons (SyntaxTree.adopt_denotes below label indexable adopted) .nil

theorem lowerAll_denotes_of_few : ∀ (blocks : List Block) (t : SyntaxTree),
    sizeAll blocks < UInt32.size ∨ (lowerAll blocks t).2.nodeCount < UInt32.size →
    (lowerAll blocks t).2.Indexable →
    List.Forall₂ (lowerAll blocks t).2.Denotes (lowerAll blocks t).1 (shapesAll blocks)
  | [], t, _, _ => .nil
  | block :: rest, t, few, indexable => by
    rw [sizeAll] at few
    rw [lowerAll_cons] at few indexable ⊢
    -- What the later blocks store comes after all that the first one stored.
    have grown := lowerAll_extends rest (block.lower t).2
    have count := SyntaxTree.nodeCount_le_of_extends grown
    have first := lower_denotes_of_few block t
      (few.imp (fun few => by omega) (Nat.lt_of_le_of_lt count))
      (SyntaxTree.indexable_of_extends grown indexable)
    have later := lowerAll_denotes_of_few rest (block.lower t).2
      (few.imp_left fun few => by omega) indexable
    exact List.rel_append (first.imp fun _ _ => SyntaxTree.denotes_of_extends grown) later

end

theorem lower_denotes (block : Block) (t : SyntaxTree) (small : block.size < UInt32.size) :
    (block.lower t).2.Indexable →
      List.Forall₂ (block.lower t).2.Denotes (block.lower t).1 block.shapes :=
  lower_denotes_of_few block t (.inl small)

end Block

/-! ### Committing -/

namespace SyntaxTree

/-- Every node that `old` stores has the same cell and the same children in `new`. -/
def Keeps (old new : SyntaxTree) : Prop :=
  ∀ id cell, old.cell id = .ok cell →
    new.cell id = .ok cell ∧ ∃ ids, old.children id = .ok ids ∧ new.children id = .ok ids

theorem keeps_of_extends {old new : SyntaxTree} (inside : old.RunsInside) (grown : old.Extends new) :
    old.Keeps new := by
  intro id cell stored
  obtain ⟨ids, children⟩ := children_of_runsInside inside stored
  exact ⟨cell_of_extends grown stored, ids, children, children_of_extends grown children⟩

theorem storeRoot_extends (t : SyntaxTree) (cell : Cell) : t.Extends (t.storeRoot cell).2 :=
  ⟨by simp [storeRoot], (t.extends_refl).layout⟩

theorem nodeCount_storeRoot (t : SyntaxTree) (cell : Cell) :
    (t.storeRoot cell).2.nodeCount = t.nodeCount + 1 :=
  Array.size_push cell

theorem index_storeRoot {t : SyntaxTree} {cell : Cell}
    (few : (t.storeRoot cell).2.nodeCount ≤ UInt32.size) :
    (t.storeRoot cell).1.index + 1 = (t.storeRoot cell).2.nodeCount := by
  rw [nodeCount_storeRoot] at few ⊢
  exact congrArg (· + 1) (NodeId.index_ofIndex few)

theorem cell_storeRoot {t : SyntaxTree} {cell : Cell}
    (few : (t.storeRoot cell).2.nodeCount ≤ UInt32.size) :
    (t.storeRoot cell).2.cell (t.storeRoot cell).1 = .ok cell := by
  rw [nodeCount_storeRoot] at few
  simp only [storeRoot, SyntaxTree.cell, nextId, NodeId.index_ofIndex few, inBounds_eq_ok]
  simp [nodeCount]

end SyntaxTree

namespace Staging

def ofBlock (block : Block) : Staging := ⟨block.listing.toArray⟩

theorem commitInto_ofBlock {block : Block} (narrow : block.Narrow) (t : SyntaxTree) :
    (ofBlock block).commitInto t = .ok (block.lower t) := by
  have read := Block.ofEntries_listing block [] narrow
  rw [List.append_nil] at read
  have filled : (ofBlock block).isEmpty = false := by
    cases block
    simp [isEmpty, ofBlock, Block.listing]
  rw [commitInto, filled, ofBlock, read]
  rfl

theorem commit_ofBlock {label : Label} {children : List Block}
    (narrow : (Block.node label .insert children).Narrow) (t : SyntaxTree) :
    ∃ root t', (Block.node label .insert children).lower t = ([root], t') ∧
      (ofBlock (.node label .insert children)).commit t = .ok (t'.storeRoot root) := by
  refine ⟨_, _, Block.lower_insert label children t, ?_⟩
  have first : ((ofBlock (.node label .insert children)).entryAt? 0).map Entry.action =
      some .insert := by simp [ofBlock, entryAt?, Block.listing]
  rw [commit, if_pos first, commitInto_ofBlock narrow, Block.lower_insert]
  rfl

/-- A commit gives cells that denote the trees of the block, and keeps all that was stored before. -/
theorem commit_splices (block : Block) (t : SyntaxTree) (small : block.size < UInt32.size)
    (inside : t.RunsInside) :
    (∃ cells t', (ofBlock block).commitInto t = .ok (cells, t') ∧ t.Keeps t' ∧
      (t'.Indexable → List.Forall₂ t'.Denotes cells block.shapes)) ∧
    ∀ label children, block = .node label .insert children →
      ∃ id t', (ofBlock block).commit t = .ok (id, t') ∧ t'.root = some id ∧ t.Keeps t' ∧
        (t'.Indexable → ∃ cell shape, t'.cell id = .ok cell ∧ block.shapes = [shape] ∧
          t'.Denotes cell shape) := by
  constructor
  · refine ⟨_, _, commitInto_ofBlock (block.narrow_of_size small) t, ?_,
      Block.lower_denotes block t small⟩
    exact SyntaxTree.keeps_of_extends inside (Block.lower_extends block t)
  · rintro label children rfl
    obtain ⟨root, below, lowered, committed⟩ := commit_ofBlock (Block.narrow_of_size _ small) t
    have grown := below.storeRoot_extends root
    have before := Block.lower_extends (.node label .insert children) t
    rw [lowered] at before
    refine ⟨_, _, committed, rfl, SyntaxTree.keeps_of_extends inside
      (SyntaxTree.extends_trans before grown), ?_⟩
    intro indexable
    have denoted := Block.lower_denotes (.node label .insert children) t small
      (by rw [lowered]; exact SyntaxTree.indexable_of_extends grown indexable)
    rw [lowered, Block.shapes, List.forall₂_cons] at denoted
    exact ⟨root, _, SyntaxTree.cell_storeRoot indexable.1, by rw [Block.shapes],
      SyntaxTree.denotes_of_extends grown denoted.1⟩

theorem commit_splices_replaced_chain :
    let block := Block.node ⟨1⟩ .insert
      [.node ⟨2⟩ .replace [.node ⟨3⟩ .replace [.node ⟨4⟩ .insert []], .node ⟨5⟩ .replace []],
        .node ⟨6⟩ .insert []]
    let t := ((SyntaxTree.emptyGraph.storeChildren [.leaf ⟨7⟩]).2.storeRoot ⟨⟨8⟩, 1, 0⟩).2
    ∃ id t' cell, (ofBlock block).commit t = .ok (id, t') ∧ t'.root = some id ∧ t.Keeps t' ∧
      t'.cell id = .ok cell ∧ t'.Denotes cell (.node ⟨1⟩ [.node ⟨4⟩ [], .node ⟨6⟩ []]) := by
  intro block t
  obtain ⟨id, t', committed, root, keeps, denoted⟩ :=
    (commit_splices block t (by decide) (by decide)).2 _ _ rfl
  have indexable : t'.Indexable := by
    obtain rfl := congrArg Prod.snd (Except.ok.inj committed)
    decide
  obtain ⟨cell, shape, stored, shapes, denotes⟩ := denoted indexable
  obtain rfl := (List.cons.inj shapes).1
  exact ⟨id, t', cell, committed, root, keeps, stored, denotes⟩

end Staging

end ParseKit
