import ParseKit.Proofs.Tree.Splicing

/-!
# The top levels of a staged block

Below a replaced root, nodes are counted by strides. Each stride goes over a node and as many nodes as
it has children, so it leads from one child of the root to the next if that child has only leaves below
it, and ends somewhere below that child otherwise. `topSize_counts_strides` says when the count is that
of the top two levels, and `topSize_misses_deep_children` that it can be another one.
-/

namespace ParseKit

namespace Block

def children : Block → List Block
  | node _ _ children => children

/-- The number of nodes in the top two levels of a block. -/
def topNodes (block : Block) : Nat := block.children.length + 1

def topNodesAll : List Block → Nat
  | [] => 0
  | block :: rest => topNodes block + topNodesAll rest

/-- The children of the block are leaves. -/
def Shallow (block : Block) : Prop := ∀ child ∈ block.children, child.children = []

theorem length_children_of_narrow {block : Block} (narrow : block.Narrow) :
    (UInt32.ofNat block.children.length).toNat = block.children.length := by
  obtain ⟨label, action, children⟩ := block
  exact UInt32.toNat_ofNat_of_lt' narrow.1

theorem listing_eq (block : Block) : ∃ label action,
    block.listing = ⟨label, .ofNat block.children.length, action⟩ :: listingAll block.children := by
  obtain ⟨label, action, children⟩ := block
  exact ⟨label, action, rfl⟩

theorem size_eq (block : Block) : block.size = sizeAll block.children + 1 := by
  cases block
  rfl

theorem narrowAll_children {block : Block} (narrow : block.Narrow) : NarrowAll block.children := by
  obtain ⟨label, action, children⟩ := block
  exact narrow.2

theorem listingAll_append (blocks more : List Block) :
    listingAll (blocks ++ more) = listingAll blocks ++ listingAll more := by
  induction blocks with
  | nil => rfl
  | cons block rest ih => rw [List.cons_append, listingAll, listingAll, ih, List.append_assoc]

theorem sizeAll_append (blocks more : List Block) :
    sizeAll (blocks ++ more) = sizeAll blocks + sizeAll more := by
  induction blocks with
  | nil => exact (Nat.zero_add _).symm
  | cons block rest ih => rw [List.cons_append, sizeAll, sizeAll, ih, Nat.add_assoc]

theorem narrowAll_append {blocks more : List Block} :
    NarrowAll (blocks ++ more) ↔ NarrowAll blocks ∧ NarrowAll more := by
  induction blocks with
  | nil => exact (iff_of_eq (true_and _)).symm
  | cons block rest ih => exact (and_congr_right' ih).trans and_assoc.symm

mutual

theorem length_listing : ∀ (block : Block), block.listing.length = block.size
  | node label action children => by
    rw [listing, List.length_cons, length_listingAll children, size]

theorem length_listingAll : ∀ (blocks : List Block), (listingAll blocks).length = sizeAll blocks
  | [] => rfl
  | block :: rest => by
    rw [listingAll, List.length_append, length_listing block, length_listingAll rest, sizeAll]

end

theorem sizeAll_of_leaves {blocks : List Block} (leaves : ∀ block ∈ blocks, block.children = []) :
    sizeAll blocks = blocks.length := by
  induction blocks with
  | nil => rfl
  | cons block rest ih =>
    rw [sizeAll, size_eq, leaves block List.mem_cons_self,
      ih fun other mem => leaves other (List.mem_cons_of_mem _ mem), List.length_cons, sizeAll]
    omega

/-- From any place on, the listing of some blocks is a listing of blocks. -/
theorem exists_drop_listingAll (n : Nat) {blocks : List Block} (narrow : NarrowAll blocks) :
    ∃ left, (listingAll blocks).drop n = listingAll left ∧ sizeAll left = sizeAll blocks - n ∧
      NarrowAll left := by
  induction n generalizing blocks with
  | zero => exact ⟨blocks, rfl, rfl, narrow⟩
  | succ n ih =>
    cases blocks with
    | nil => exact ⟨[], rfl, by simp [sizeAll], trivial⟩
    | cons block rest =>
      obtain ⟨label, action, head⟩ := block.listing_eq
      obtain ⟨left, dropped, size, narrow⟩ :=
        ih (narrowAll_append.mpr ⟨narrowAll_children narrow.1, narrow.2⟩)
      refine ⟨left, ?_, ?_, narrow⟩
      · rw [listingAll, head, List.cons_append, List.drop_succ_cons, ← listingAll_append, dropped]
      · rw [size, sizeAll_append, sizeAll, size_eq]
        omega

end Block

namespace Staging

open Block

/-- From `index` on, the buffer lists these blocks and nothing else. -/
def Lists (s : Staging) (index : Nat) (blocks : List Block) : Prop :=
  s.entries.toList.drop index = listingAll blocks

variable {s : Staging} {index : Nat} {block : Block} {rest : List Block}

/-- A stride from the head of a block counts the top of the block. -/
theorem strides_of_lists (lists : s.Lists index (block :: rest)) (narrow : block.Narrow) (n : Nat) :
    s.strides index (n + 1) = (s.strides (index + block.topNodes) n).map (block.topNodes + ·) := by
  obtain ⟨label, action, head⟩ := block.listing_eq
  have entry : s.entryAt? index = some ⟨label, .ofNat block.children.length, action⟩ := by
    have first := congrArg (·[0]?) (lists : s.entries.toList.drop index = _)
    simp only [List.getElem?_drop, Nat.add_zero, Array.getElem?_toList, listingAll, head] at first
    exact first
  rw [strides, entry, inBounds_some, ok_bind, length_children_of_narrow narrow, topNodes]
  dsimp only
  cases s.strides (index + (block.children.length + 1)) n <;> rfl

/-- A stride passes the first nodes below the head, as many as it has children, and then the rest. -/
theorem lists_of_stride (lists : s.Lists index (block :: rest)) {left : List Block}
    (passed : (listingAll block.children).drop block.children.length = listingAll left) :
    s.Lists (index + block.topNodes) (left ++ rest) := by
  obtain ⟨label, action, head⟩ := block.listing_eq
  have enough : block.children.length ≤ (listingAll block.children).length := by
    rw [length_listingAll]
    exact length_le_sizeAll block.children
  rw [Lists] at lists ⊢
  rw [← List.drop_drop, lists, listingAll, head, topNodes, List.cons_append, List.drop_succ_cons,
    List.drop_append_of_le_length enough, passed, listingAll_append]

/-- Strides stay inside the blocks, wherever they lead. -/
theorem exists_strides (n : Nat) {index : Nat} {blocks : List Block} (lists : s.Lists index blocks)
    (narrow : NarrowAll blocks) (few : n ≤ blocks.length) :
    ∃ total, s.strides index n = .ok total ∧ total ≤ sizeAll blocks := by
  induction n generalizing index blocks with
  | zero => exact ⟨0, rfl, Nat.zero_le _⟩
  | succ n ih =>
    obtain ⟨block, rest, rfl⟩ := List.exists_cons_of_length_pos (Nat.zero_lt_of_lt few)
    have stride := strides_of_lists lists narrow.1 n
    obtain ⟨left, passed, size, narrow'⟩ :=
      exists_drop_listingAll block.children.length (narrowAll_children narrow.1)
    have few' : n ≤ (left ++ rest).length := by
      rw [List.length_cons] at few
      rw [List.length_append]
      omega
    obtain ⟨total, counted, bound⟩ :=
      ih (lists_of_stride lists passed) (narrowAll_append.mpr ⟨narrow', narrow.2⟩) few'
    refine ⟨block.topNodes + total, by rw [stride, counted, map_ok], ?_⟩
    have below := length_le_sizeAll block.children
    rw [sizeAll_append, size] at bound
    rw [sizeAll, size_eq, topNodes]
    omega

/-- Past shallow blocks, each stride leads to the head of the next block. -/
theorem strides_of_shallow {index : Nat} {blocks : List Block} (lists : s.Lists index blocks)
    (narrow : NarrowAll blocks) (shallow : ∀ block ∈ blocks.dropLast, block.Shallow) :
    s.strides index blocks.length = .ok (topNodesAll blocks) := by
  induction blocks generalizing index with
  | nil => rfl
  | cons block rest ih =>
    rw [List.length_cons, strides_of_lists lists narrow.1]
    cases rest with
    | nil => rfl
    | cons next more =>
      have passed : (listingAll block.children).drop block.children.length = listingAll [] := by
        apply List.drop_of_length_le
        exact Nat.le_of_eq ((length_listingAll _).trans
          (sizeAll_of_leaves (shallow block List.mem_cons_self)))
      rw [ih (lists_of_stride lists passed) narrow.2
        fun other mem => shallow other (List.mem_cons_of_mem _ mem)]
      rfl

/-- An inserted root counts itself and its children. Below a replaced root no stride leaves the buffer,
and if all its children but the last are shallow, each child is counted with its own children. -/
theorem topSize_counts_strides {label : Label} {action : Action} {children : List Block}
    (narrow : (Block.node label action children).Narrow) :
    (action = .insert →
      (ofBlock (.node label action children)).topSize = .ok (children.length + 1)) ∧
    (action = .replace → ∃ total, (ofBlock (.node label action children)).topSize = .ok total ∧
      total ≤ sizeAll children ∧
      ((∀ child ∈ children.dropLast, child.Shallow) → total = topNodesAll children)) := by
  have count := length_children_of_narrow narrow
  have root : (ofBlock (.node label action children)).entryAt? 0 =
      some ⟨label, .ofNat children.length, action⟩ := rfl
  have lists : (ofBlock (.node label action children)).Lists 1 children := rfl
  constructor
  · rintro rfl
    rw [topSize, root]
    exact congrArg (fun n => Except.ok (n + 1)) count
  · rintro rfl
    obtain ⟨total, counted, bound⟩ := exists_strides children.length lists narrow.2 (Nat.le_refl _)
    refine ⟨total, ?_, bound, ?_⟩
    · rw [topSize, root]
      exact (congrArg _ count).trans counted
    · intro shallow
      exact Except.ok.inj (counted.symm.trans (strides_of_shallow lists narrow.2 shallow))

/-- Only the last child has a grandchild. -/
theorem topSize_counts_strides_last_deep :
    let children := [Block.node ⟨1⟩ .replace [.node ⟨2⟩ .insert [], .node ⟨3⟩ .replace []],
      .node ⟨4⟩ .insert [.node ⟨5⟩ .insert [.node ⟨6⟩ .insert []]]]
    (Block.node ⟨0⟩ .replace children).Narrow ∧
      (∀ child ∈ children.dropLast, child.Shallow) ∧
      (ofBlock (.node ⟨0⟩ .replace children)).topSize = .ok 5 := by
  intro children
  have narrow : (Block.node ⟨0⟩ .replace children).Narrow := Block.narrow_of_size _ (by decide)
  have shallow : ∀ child ∈ children.dropLast, child.Shallow := by
    simp [children, Block.Shallow, Block.children]
  obtain ⟨total, counted, -, equal⟩ := (topSize_counts_strides narrow).2 rfl
  exact ⟨narrow, shallow, counted.trans (congrArg Except.ok (equal shallow))⟩

/-- Two children with a child each are four nodes. The grandchild of the first stands where the second
child is looked for, and counts instead of it. -/
theorem topSize_misses_deep_children :
    let children := [Block.node ⟨1⟩ .insert [.node ⟨2⟩ .insert [.node ⟨3⟩ .insert []]],
      .node ⟨4⟩ .insert [.node ⟨5⟩ .insert []]]
    (Block.node ⟨0⟩ .replace children).Narrow ∧ topNodesAll children = 4 ∧
      (ofBlock (.node ⟨0⟩ .replace children)).topSize = .ok 3 :=
  ⟨Block.narrow_of_size _ (by decide), rfl, by decide⟩

end Staging

end ParseKit
