import ParseKit.Proofs.Tree.Strides

/-!
# The block that a commit reads

Child counts are not checked, so a buffer need not list blocks. `Staging.lowerAt` is the descent of a
commit through a buffer of any counts; it goes from child to child with a cursor, and it always ends.
`commitInto_reads_front` tells by the counts where it succeeds: on the shortest front of the buffer that has
one entry more than its entries count children.
-/

namespace ParseKit

namespace Block

/-! ### Complete blocks at the front of a list -/

variable {entry : Entry} {entries : List Entry} {blocks : List Block} {k m : Nat}

theorem attach_of_le (few : entry.count.toNat ≤ blocks.length) :
    attach entry blocks =
      node entry.label entry.action (blocks.take entry.count.toNat) :: blocks.drop entry.count.toNat :=
  if_pos (List.length_take_of_le few)

theorem attach_of_lt (more : blocks.length < entry.count.toNat) : attach entry blocks = [] := by
  refine if_neg ?_
  rw [List.length_take]
  omega

theorem ofEntries_cons (entry : Entry) (entries : List Entry) :
    ofEntries (entry :: entries) = attach entry (ofEntries entries) := rfl

/-- A list of entries begins with the listing of its complete blocks. -/
theorem exists_listing (entries : List Entry) :
    ∃ rest, entries = listingAll (ofEntries entries) ++ rest ∧ ofEntries rest = [] ∧
      NarrowAll (ofEntries entries) := by
  induction entries with
  | nil => exact ⟨[], rfl, rfl, trivial⟩
  | cons entry entries ih =>
    obtain ⟨rest, listed, none, narrow⟩ := ih
    rw [ofEntries_cons]
    rcases Nat.lt_or_ge (ofEntries entries).length entry.count.toNat with more | few
    · have stuck := attach_of_lt more
      exact ⟨entry :: entries, by rw [stuck]; rfl, stuck, stuck ▸ trivial⟩
    · have length : ((ofEntries entries).take entry.count.toNat).length = entry.count.toNat :=
        List.length_take_of_le few
      rw [← List.take_append_drop entry.count.toNat (ofEntries entries)] at listed narrow
      rw [attach_of_le few]
      refine ⟨rest, ?_, none, ⟨?_, ?_⟩, ?_⟩
      · rw [listingAll, listing, length, UInt32.ofNat_toNat, List.cons_append, ← listingAll_append]
        exact congrArg _ listed
      · rw [length]
        exact entry.count.toNat_lt
      · exact (narrowAll_append.mp narrow).1
      · exact (narrowAll_append.mp narrow).2

/-- The number of children that some entries count. -/
def childCount : List Entry → Nat
  | [] => 0
  | entry :: rest => entry.count.toNat + childCount rest

/-- The first `m` entries are `k` more than the children that they count, as the entries of `k` complete
blocks are. -/
def Spans (entries : List Entry) (k m : Nat) : Prop :=
  m ≤ entries.length ∧ childCount (entries.take m) + k = m

theorem spans_cons : Spans (entry :: entries) (k + 1) (m + 1) ↔ Spans entries (entry.count.toNat + k) m := by
  simp only [Spans, List.length_cons, List.take_succ_cons, childCount]
  omega

/-! The inductions are on the list, for every `k` at once: `k + 1` blocks from an entry on need the blocks of its
children and `k` more behind it. -/

theorem le_of_spans (spans : Spans entries k m) :
    k ≤ (ofEntries entries).length ∧ sizeAll ((ofEntries entries).take k) ≤ m := by
  induction entries generalizing k m with
  | nil =>
    obtain ⟨inside, sum⟩ := spans
    obtain rfl := Nat.le_zero.mp inside
    obtain rfl : k = 0 := (Nat.zero_add k).symm.trans sum
    exact ⟨Nat.le_refl _, Nat.le_refl _⟩
  | cons entry entries ih =>
    cases k with
    | zero => exact ⟨Nat.zero_le _, Nat.zero_le _⟩
    | succ k =>
      obtain ⟨m, rfl⟩ : ∃ n, m = n + 1 := Nat.exists_eq_succ_of_ne_zero (by have := spans.2; omega)
      obtain ⟨enough, size⟩ := ih (spans_cons.mp spans)
      rw [List.take_add, sizeAll_append] at size
      rw [ofEntries_cons, attach_of_le (by omega), List.length_cons, List.length_drop,
        List.take_succ_cons, sizeAll, Block.size]
      omega

theorem spans_sizeAll (enough : k ≤ (ofEntries entries).length) :
    Spans entries k (sizeAll ((ofEntries entries).take k)) := by
  induction entries generalizing k with
  | nil =>
    obtain rfl := Nat.le_zero.mp enough
    exact ⟨Nat.le_refl _, rfl⟩
  | cons entry entries ih =>
    cases k with
    | zero => exact ⟨Nat.zero_le _, rfl⟩
    | succ k =>
      rw [ofEntries_cons] at enough ⊢
      rcases Nat.lt_or_ge (ofEntries entries).length entry.count.toNat with more | few
      · rw [attach_of_lt more] at enough
        exact absurd enough (Nat.not_succ_le_zero k)
      · rw [attach_of_le few, List.length_cons, List.length_drop] at enough
        have spans := ih (k := entry.count.toNat + k) (by omega)
        rw [List.take_add, sizeAll_append] at spans
        rw [attach_of_le few, List.take_succ_cons, sizeAll, Block.size, Nat.add_right_comm]
        exact spans_cons.mpr spans

end Block

namespace Staging

open Block

variable {s : Staging} {low : Nat}

/-! ### The descent -/

/-- What a descent hands back: cells for the parent, the tree, and the place behind what was read. -/
structure Descent (s : Staging) (low : Nat) where
  cells : List Cell
  tree : SyntaxTree
  next : Nat
  low_le : low ≤ next
  next_le : next ≤ s.length

namespace Descent

def found (r : Descent s low) : List Cell × SyntaxTree := (r.cells, r.tree)

/-- Puts the node of the entry above what was read below it. -/
def close (entry : Entry) (below : Descent s low) : Descent s low :=
  match entry.action with
  | .replace => below
  | .insert =>
    let (cell, tree) := below.tree.adopt entry.label below.cells
    { below with cells := [cell], tree }

theorem found_close (entry : Entry) (children : List Block) {below : Descent s low} {t : SyntaxTree}
    (found : below.found = lowerAll children t) :
    (below.close entry).found = (node entry.label entry.action children).lower t := by
  obtain ⟨label, count, action⟩ := entry
  cases action with
  | replace => exact found
  | insert =>
    rw [lower_insert, ← found]
    rfl

theorem next_close (entry : Entry) (below : Descent s low) : (below.close entry).next = below.next := by
  unfold close
  split
  · rfl
  · rfl

def andThen {cursor : Nat} (first : Descent s (cursor + 1)) (more : Descent s first.next) : Descent s cursor where
  cells := first.cells ++ more.cells
  tree := more.tree
  next := more.next
  low_le := Nat.le_trans (Nat.le_of_succ_le first.low_le) more.low_le
  next_le := more.next_le

theorem found_andThen {cursor : Nat} {first : Descent s (cursor + 1)} {more : Descent s first.next}
    {block : Block} {rest : List Block} {t : SyntaxTree} (found : first.found = block.lower t)
    (found' : more.found = lowerAll rest first.tree) :
    (first.andThen more).found = lowerAll (block :: rest) t := by
  have cells := congrArg Prod.fst found'
  have tree := congrArg Prod.snd found'
  rw [lowerAll_cons, ← found]
  exact Prod.ext (congrArg (first.cells ++ ·) cells) tree

end Descent

mutual

/-- Stores the block at `index` and what lies below it. -/
def lowerAt (s : Staging) (index : Nat) (t : SyntaxTree) : Except Violation (Descent s (index + 1)) :=
  if inside : index < s.length then
    let entry := s.entries[index]
    (s.lowerRun entry.count.toNat (index + 1) inside t).map (.close entry)
  else .error .outOfBounds
termination_by 2 * (s.length - index)

/-- Stores `count` blocks, each from the place behind the one before. -/
def lowerRun (s : Staging) (count cursor : Nat) (inside : cursor ≤ s.length) (t : SyntaxTree) :
    Except Violation (Descent s cursor) :=
  match count with
  | 0 => .ok ⟨[], t, cursor, Nat.le_refl _, inside⟩
  | count + 1 => do
    let first ← s.lowerAt cursor t
    have := first.low_le
    have := first.next_le
    return first.andThen (← s.lowerRun count first.next first.next_le first.tree)
termination_by 2 * (s.length - cursor) + 1

end

/-- The complete blocks that start at `index`. -/
def blocksFrom (s : Staging) (index : Nat) : List Block := ofEntries (s.entries.toList.drop index)

theorem blocksFrom_of_lt {index : Nat} (inside : index < s.length) :
    s.blocksFrom index = attach s.entries[index] (s.blocksFrom (index + 1)) := by
  have inside : index < s.entries.toList.length := inside
  rw [blocksFrom, List.drop_eq_getElem_cons inside, ofEntries_cons, Array.getElem_toList]
  rfl

theorem blocksFrom_of_ge {index : Nat} (outside : s.length ≤ index) : s.blocksFrom index = [] := by
  have outside : s.entries.toList.length ≤ index := outside
  rw [blocksFrom, List.drop_of_length_le outside]
  rfl

theorem blocksFrom_next {index : Nat} {block : Block} {rest : List Block}
    (blocks : s.blocksFrom index = block :: rest) : s.blocksFrom (index + block.size) = rest := by
  obtain ⟨behind, listed, none, narrow⟩ := exists_listing (s.entries.toList.drop index)
  rw [blocksFrom] at blocks
  rw [blocks] at listed narrow
  rw [blocksFrom, ← List.drop_drop, listed, listingAll, List.append_assoc, ← length_listing,
    List.drop_left, ofEntries_listingAll rest behind narrow.2, none, List.append_nil]

/-- The descent stores the first of the complete blocks at `index`, and fails if there is none. -/
def Lowers (s : Staging) (index : Nat) : Prop :=
  ∀ t, match s.blocksFrom index with
    | [] => s.lowerAt index t = .error .outOfBounds
    | block :: _ => ∃ r, s.lowerAt index t = .ok r ∧ r.found = block.lower t ∧
        r.next = index + block.size

/-- If the descent is right from the cursor on, then it is right for a run of blocks. -/
theorem lowerRun_of_lowers (count : Nat) {cursor : Nat} (lowers : ∀ index, cursor ≤ index → s.Lowers index)
    (inside : cursor ≤ s.length) (t : SyntaxTree) :
    (count ≤ (s.blocksFrom cursor).length → ∃ r, s.lowerRun count cursor inside t = .ok r ∧
      r.found = lowerAll ((s.blocksFrom cursor).take count) t ∧
      r.next = cursor + sizeAll ((s.blocksFrom cursor).take count)) ∧
    ((s.blocksFrom cursor).length < count → s.lowerRun count cursor inside t = .error .outOfBounds) := by
  induction count generalizing cursor t with
  | zero =>
    refine ⟨fun _ => ?_, fun none => absurd none (Nat.not_lt_zero _)⟩
    exact ⟨_, by rw [lowerRun], rfl, rfl⟩
  | succ count ih =>
    have first := lowers cursor (Nat.le_refl _) t
    cases blocks : s.blocksFrom cursor with
    | nil =>
      rw [blocks] at first
      refine ⟨fun enough => absurd enough (Nat.not_succ_le_zero _), fun _ => ?_⟩
      rw [lowerRun, first]
      rfl
    | cons block rest =>
      rw [blocks] at first
      obtain ⟨first, lowered, found, next⟩ := first
      have behind : s.blocksFrom first.next = rest := next ▸ blocksFrom_next blocks
      have later := ih (fun index le => lowers index (Nat.le_trans (Nat.le_of_succ_le first.low_le) le))
        first.next_le first.tree
      rw [behind] at later
      have step : s.lowerRun (count + 1) cursor inside t =
          (s.lowerRun count first.next first.next_le first.tree).map first.andThen := by
        rw [lowerRun, lowered]
        rfl
      rw [step, List.length_cons, List.take_succ_cons]
      refine ⟨fun enough => ?_, fun short => ?_⟩
      · obtain ⟨more, run, found', next'⟩ := later.1 (Nat.le_of_succ_le_succ enough)
        refine ⟨first.andThen more, by rw [run, map_ok], ?_, ?_⟩
        · exact Descent.found_andThen found found'
        · rw [sizeAll, ← Nat.add_assoc, ← next]
          exact next'
      · rw [later.2 (Nat.lt_of_succ_lt_succ short)]
        rfl

theorem lowers (s : Staging) (index : Nat) : s.Lowers index := by
  intro t
  by_cases inside : index < s.length
  · -- What lies below a node stands behind it, so less of the buffer is left there.
    have below (i : Nat) (le : index + 1 ≤ i) : s.Lowers i := lowers s i
    have run := lowerRun_of_lowers s.entries[index].count.toNat below inside t
    have step : s.lowerAt index t =
        (s.lowerRun s.entries[index].count.toNat (index + 1) inside t).map (.close s.entries[index]) := by
      rw [lowerAt, dif_pos inside]
    rw [blocksFrom_of_lt inside, step]
    rcases Nat.lt_or_ge (s.blocksFrom (index + 1)).length s.entries[index].count.toNat with more | few
    · rw [attach_of_lt more, run.2 more]
      rfl
    · obtain ⟨r, lowered, found, next⟩ := run.1 few
      rw [attach_of_le few, lowered]
      refine ⟨_, rfl, Descent.found_close _ _ found, ?_⟩
      rw [Descent.next_close, next, Block.size]
      omega
  · rw [blocksFrom_of_ge (Nat.le_of_not_lt inside), lowerAt, dif_neg inside]
termination_by s.length - index

/-! ### Commits -/

/-- The first `m` entries have one entry more than they count children. -/
def Complete (s : Staging) (m : Nat) : Prop :=
  0 < m ∧ m ≤ s.length ∧ childCount (s.entries.toList.take m) = m - 1

theorem complete_iff {m : Nat} : s.Complete m ↔ Spans s.entries.toList 1 m := by
  rw [Complete, Spans, Array.length_toList, length]
  omega

theorem commitInto_of_listing {block : Block} {rest : List Entry} (narrow : block.Narrow)
    (listed : s.entries.toList = block.listing ++ rest) (t : SyntaxTree) :
    s.commitInto t = .ok (block.lower t) := by
  have read := ofEntries_listing block rest narrow
  rw [← listed] at read
  have filled : s.isEmpty = false := by
    obtain ⟨label, action, head⟩ := block.listing_eq
    rw [isEmpty, Array.isEmpty_eq_false_iff, ne_eq, ← Array.toList_eq_nil_iff, listed, head]
    exact List.cons_ne_nil _ _
  rw [commitInto, filled, read]
  rfl

theorem commitInto_eq_lowerAt (filled : s.isEmpty = false) (t : SyntaxTree) :
    s.commitInto t = (s.lowerAt 0 t).map Descent.found := by
  have lowers := s.lowers 0 t
  rw [commitInto, filled]
  change (inBounds (s.blocksFrom 0).head?).map _ = _
  cases blocks : s.blocksFrom 0 with
  | nil =>
    rw [blocks] at lowers
    rw [lowers]
    rfl
  | cons block rest =>
    rw [blocks] at lowers
    obtain ⟨r, lowered, found, -⟩ := lowers
    rw [lowered, map_ok, found]
    rfl

theorem exists_block_of_complete {m : Nat} (complete : s.Complete m) :
    ∃ block rest, s.blocksFrom 0 = block :: rest ∧ block.size ≤ m := by
  obtain ⟨some_block, size⟩ := le_of_spans (complete_iff.mp complete)
  obtain ⟨block, rest, blocks⟩ := List.exists_cons_of_length_pos some_block
  refine ⟨block, rest, blocks, ?_⟩
  rw [blocks, List.take_succ_cons, List.take_zero] at size
  exact size

theorem complete_size {block : Block} {rest : List Block} (blocks : s.blocksFrom 0 = block :: rest) :
    s.Complete block.size := by
  have enough : 1 ≤ (ofEntries s.entries.toList).length :=
    (congrArg List.length blocks : (ofEntries s.entries.toList).length = rest.length + 1) ▸ Nat.succ_pos _
  have spans := spans_sizeAll enough
  rw [show ofEntries s.entries.toList = block :: rest from blocks, List.take_succ_cons,
    List.take_zero] at spans
  exact complete_iff.mpr spans

/-- A commit descends through the first block. It succeeds if some front of the buffer is complete, and what
it gives depends on the shortest complete front only; without one it reads past the end. -/
theorem commitInto_reads_front (filled : s.isEmpty = false) (t : SyntaxTree) :
    s.commitInto t = (s.lowerAt 0 t).map Descent.found ∧
      ((∃ result, s.commitInto t = .ok result) ↔ ∃ m, s.Complete m) ∧
      (∀ m, s.Complete m → (∀ k, s.Complete k → m ≤ k) →
        ∃ (block : Block) (r : Descent s 1), block.Narrow ∧ block.listing = s.entries.toList.take m ∧
          s.commitInto t = .ok (block.lower t) ∧ s.lowerAt 0 t = .ok r ∧ r.next = m ∧
          ∀ other : Staging, other.entries.toList.take m = s.entries.toList.take m →
            other.commitInto t = s.commitInto t) ∧
      ((¬ ∃ m, s.Complete m) → s.commitInto t = .error .outOfBounds) := by
  have descent := commitInto_eq_lowerAt filled t
  have lowers := s.lowers 0 t
  cases blocks : s.blocksFrom 0 with
  | nil =>
    rw [blocks] at lowers
    have failed : s.commitInto t = .error .outOfBounds := by
      rw [descent, lowers]
      rfl
    have incomplete : ¬ ∃ m, s.Complete m := by
      rintro ⟨m, complete⟩
      obtain ⟨block, rest, there, -⟩ := exists_block_of_complete complete
      rw [blocks] at there
      contradiction
    refine ⟨descent, ⟨?_, fun complete => absurd complete incomplete⟩,
      fun m complete => absurd ⟨m, complete⟩ incomplete, fun _ => failed⟩
    rintro ⟨result, done⟩
    rw [failed] at done
    contradiction
  | cons block rest =>
    rw [blocks] at lowers
    obtain ⟨r, lowered, -, next⟩ := lowers
    obtain ⟨behind, listed, -, narrow⟩ := exists_listing s.entries.toList
    rw [show ofEntries s.entries.toList = block :: rest from blocks] at listed narrow
    rw [listingAll, List.append_assoc] at listed
    have complete := complete_size blocks
    have committed := commitInto_of_listing narrow.1 listed t
    refine ⟨descent, ⟨fun _ => ⟨_, complete⟩, fun _ => ⟨_, committed⟩⟩, ?_,
      fun incomplete => absurd ⟨_, complete⟩ incomplete⟩
    intro m front least
    have size : block.size = m := by
      obtain ⟨block', rest', there, le⟩ := exists_block_of_complete front
      obtain ⟨rfl, -⟩ := List.cons.inj (blocks.symm.trans there)
      exact Nat.le_antisymm le (least _ complete)
    have taken : block.listing = s.entries.toList.take m := by
      rw [listed, ← size, ← length_listing, List.take_left]
    refine ⟨block, r, narrow.1, taken, committed, lowered, by rw [next, size, Nat.zero_add], ?_⟩
    intro other alike
    have listed' : other.entries.toList = block.listing ++ other.entries.toList.drop m := by
      rw [taken, ← alike, List.take_append_drop]
    rw [committed, commitInto_of_listing narrow.1 listed']

/-- The third entry is not read, whatever it counts; in the second buffer a child is missing. -/
theorem commitInto_reads_front_followed :
    let s : Staging := ⟨#[⟨⟨1⟩, 1, .insert⟩, ⟨⟨2⟩, 0, .replace⟩, ⟨⟨3⟩, 7, .insert⟩]⟩
    let s' : Staging := ⟨#[⟨⟨1⟩, 2, .insert⟩, ⟨⟨2⟩, 0, .replace⟩]⟩
    (∃ block : Block, s.commitInto .emptyGraph = .ok (block.lower .emptyGraph) ∧
      block.listing = [⟨⟨1⟩, 1, .insert⟩, ⟨⟨2⟩, 0, .replace⟩]) ∧
      s'.commitInto .emptyGraph = .error .outOfBounds := by
  intro s s'
  constructor
  · obtain ⟨-, -, front, -⟩ := commitInto_reads_front (s := s) rfl .emptyGraph
    have least : ∀ k, s.Complete k → 2 ≤ k := by
      rintro k ⟨pos, -, sum⟩
      by_contra less
      obtain rfl : k = 1 := by omega
      exact absurd sum (by decide)
    obtain ⟨block, -, -, listed, committed, -⟩ := front 2 ⟨by decide, by decide, by decide⟩ least
    exact ⟨block, committed, listed⟩
  · obtain ⟨-, -, -, failed⟩ := commitInto_reads_front (s := s') rfl .emptyGraph
    refine failed ?_
    rintro ⟨k, pos, inside, sum⟩
    have inside : k ≤ 2 := inside
    obtain rfl | rfl : k = 1 ∨ k = 2 := by omega
    · exact absurd sum (by decide)
    · exact absurd sum (by decide)

end Staging

end ParseKit
