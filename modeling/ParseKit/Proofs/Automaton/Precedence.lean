import ParseKit.Proofs.Automaton.Journal
import ParseKit.Proofs.Automaton.Walk

/-!
# Earlier ranges come first

Of the ranges of a state, the first one that holds a value is followed, and a new range is drafted behind
those that are there. So transitions that exist stay as they are: `onRange_keeps_targets` for ranges,
`onChar_yields` for characters. The exception is the range with which the 16-bit count of a state starts
again at 0; with it the state loses all its ranges.
-/

namespace ParseKit

/-! ### Transitions by number -/

namespace Automaton

/-- The number of the state that a code unit leads to. -/
def unitTarget? (a : Automaton) (n : Nat) (unit : UInt16) : Option Nat :=
  (a.state? n).bind fun s => (a.next? s unit).map Fin.val

/-- The number of the state that a walk of one character leads to. -/
def charTarget? (a : Automaton) (n : Nat) (c : Char) : Option Nat :=
  (a.state? n).bind fun s => (a.walk? s [c]).map Fin.val

theorem lt_of_unitTarget? {a : Automaton} {n q : Nat} {unit : UInt16}
    (found : a.unitTarget? n unit = some q) : n < a.stateCount := by
  by_contra outside
  rw [unitTarget?, state?, dif_neg outside] at found
  contradiction

end Automaton

/-! ### One range more -/

namespace DraftState

/-- `s'` is `s` with the range `r` behind its own. -/
structure Extends (s s' : DraftState) (r : DraftRange) : Prop where
  direct : s'.direct = s.direct
  ranges : s'.ranges.toList = s.ranges.toList ++ [r]

variable {s s' : DraftState} {r : DraftRange}

theorem extends_push (s : DraftState) (r : DraftRange) :
    s.Extends { s with ranges := s.ranges.push r } r :=
  ⟨rfl, Array.toList_push⟩

theorem size_of_extends (h : s.Extends s' r) : s'.ranges.size = s.ranges.size + 1 := by
  rw [← Array.length_toList, h.ranges, List.length_append, Array.length_toList]
  rfl

/-- One range more is counted, but for the step at which the count starts again at 0. -/
theorem extends_counted (h : s.Extends s' r) (room : (s.ranges.size + 1) % UInt16.size ≠ 0) :
    ∃ q, s.counted.Extends s'.counted q ∧ (s.ranges.size + 1 < UInt16.size → q = r) := by
  have count : (s.ranges.size + 1) % UInt16.size = s.ranges.size % UInt16.size + 1 := by
    simp only [UInt16.size] at room ⊢
    omega
  have le : s.ranges.size % UInt16.size ≤ s.ranges.toList.length := by
    rw [Array.length_toList]
    exact Nat.mod_le _ _
  have there : s.ranges.size % UInt16.size < (s.ranges.toList ++ [r]).length := by
    rw [List.length_append]
    exact Nat.lt_succ_of_le le
  refine ⟨(s.ranges.toList ++ [r])[s.ranges.size % UInt16.size], ⟨h.direct, ?_⟩, ?_⟩
  · rw [toList_counted, size_of_extends h, count, h.ranges, List.take_succ_eq_append_getElem there,
      List.take_append_of_le_length le, ← toList_counted]
  · intro few
    have all : s.ranges.size % UInt16.size = s.ranges.toList.length := by
      rw [Array.length_toList]
      exact Nat.mod_eq_of_lt (Nat.lt_of_succ_lt few)
    simp only [all]
    exact List.getElem_concat_length rfl _

/-- No range is counted at the step at which the count starts again at 0. -/
theorem next?_counted_of_full (full : s.ranges.size % UInt16.size = 0) {unit : UInt16}
    (above : directCount ≤ unit.toNat) : s.counted.next? unit = none := by
  rw [next?, if_neg (Nat.not_lt_of_le above), range?, toList_counted, full]
  rfl

theorem next?_of_extends (h : s.Extends s' r)
    (targeted : ∀ q ∈ s.ranges.toList, q.target ≠ noTarget) (unit : UInt16) :
    s'.next? unit = (s.next? unit).or
      (if directCount ≤ unit.toNat ∧ r.covers unit then named? r.target else none) := by
  unfold next?
  split
  · next low =>
    rw [if_neg fun both => Nat.not_lt_of_le both.1 low, Option.or_none]
    simp only [direct?, h.direct]
    rfl
  · next high =>
    rw [range?, range?, h.ranges, List.find?_append]
    cases first : s.ranges.toList.find? (·.covers unit) with
    | some q =>
      have real : named? q.target = some q.target :=
        if_neg (targeted q (List.mem_of_find?_eq_some first))
      rw [Option.some_or, Option.bind_some, real, Option.some_or]
    | none =>
      cases covers : r.covers unit with
      | true => simp [covers, Nat.le_of_not_lt high]
      | false => simp [covers]

end DraftState

namespace Draft

variable {d d' : Draft} {n source target : UInt16}

/-! ### Drafts without open ends -/

/-- Every range leads somewhere. -/
def Targeted (d : Draft) : Prop := ∀ n, ∀ r ∈ (d.state n).ranges.toList, r.target ≠ noTarget

theorem build_append {ops : List DraftOp} {op : DraftOp} (built : build ops = .ok d)
    (done : d.apply op = .ok d') : build (ops ++ [op]) = .ok d' := by
  rw [build, List.foldlM_append]
  exact bind_eq_ok.mpr ⟨d, built, bind_eq_ok.mpr ⟨d', done, rfl⟩⟩

theorem stateCount_le_apply {ops : List DraftOp} {op : DraftOp} (built : build ops = .ok d)
    (done : d.apply op = .ok d') : d.stateCount ≤ d'.stateCount := by
  have h := records_build built
  rw [h.stateCount, (records_apply h done).stateCount]
  exact Journal.stateCount_le_record _ op

theorem size_ranges_le_of_build {ops : List DraftOp} (built : build ops = .ok d) (n : UInt16) :
    (d.state n).ranges.size ≤ (Journal.ofOps ops).ranges.length := by
  rw [← Array.length_toList, (records_build built).ranges]
  exact Journal.length_rangesOf_le _ n

section

variable {ops : List DraftOp} (built : build ops = .ok d)
  (known : ∀ op ∈ ops, ∀ target, op.target? = some target → target.toNat < d.stateCount)
include built known

theorem sound_of_build : d.Sound ∧ d.Targeted := by
  have h := records_build built
  have within : (Journal.ofOps ops).Within (Journal.ofOps ops).stateCount :=
    Journal.within_ofOps (h.stateCount ▸ known)
  refine ⟨sound_of_records h (Journal.closed_of_within within), ?_⟩
  intro n r member
  rw [h.ranges] at member
  exact real_of_known h.numbered
    (h.stateCount ▸ within.ranges (n, r) (Journal.mem_rangesOf.mp member))

theorem sound_of_apply {op : DraftOp}
    (known_op : ∀ target, op.target? = some target → target.toNat < d.stateCount)
    (done : d.apply op = .ok d') : d'.Sound := by
  have grown := stateCount_le_apply built done
  refine (sound_of_build (build_append built done) ?_).1
  intro op' member target named
  refine Nat.lt_of_lt_of_le ?_ grown
  rcases List.mem_append.mp member with old | new
  · exact known op' old target named
  · obtain rfl := List.mem_singleton.mp new
    exact known_op target named

end

theorem targeted_addState {terminal : Option UInt16} (targeted : d.Targeted)
    (done : d.addState terminal = .ok (n, d')) : d'.Targeted := by
  obtain ⟨-, -, -, state⟩ := addState_frame done
  intro m r member
  rw [state] at member
  split at member
  · exact nomatch member
  · exact targeted m r member

theorem targeted_onRange {low high : UInt16} (targeted : d.Targeted) (real : target ≠ noTarget)
    (done : d.onRange source low high target = .ok d') : d'.Targeted := by
  obtain ⟨-, -, -, state⟩ := onRange_ok done
  intro m r member
  rw [state] at member
  split at member
  · rw [Array.toList_push] at member
    rcases List.mem_append.mp member with old | new
    · exact targeted m r old
    · obtain rfl := List.mem_singleton.mp new
      exact real
  · exact targeted m r member

theorem targeted_counted (targeted : d.Targeted) (m : UInt16) :
    ∀ r ∈ (d.state m).counted.ranges.toList, r.target ≠ noTarget := by
  intro r member
  rw [DraftState.toList_counted] at member
  exact targeted m r (List.mem_of_mem_take member)

/-! ### The size of a table -/

theorem size_table_change {f : DraftState → DraftState} (done : d.change n f = .ok d') :
    d'.table.cells.size + (d.state n).cellCount = d.table.cells.size + (f (d.state n)).cellCount := by
  have sum (d : Draft) : d.table.cells.size = (d.states.toList.map DraftState.cellCount).sum := by
    rw [size_table, List.sum_eq_foldl, List.foldl_map]
  unfold change at done
  split at done
  · next inside =>
    cases done
    have inside : n.toNat < d.states.toList.length := inside
    have before := congrArg (fun l => (l.map DraftState.cellCount).sum) (states_split inside)
    rw [sum, sum, Array.toList_modify, List.modify_eq_take_cons_drop inside, Array.getElem_toList,
      state_of_lt inside]
    simp only [List.map_append, List.map_cons, List.sum_append, List.sum_cons] at before ⊢
    omega
  · contradiction

theorem size_table_onByte {value : UInt8} (done : d.onByte source value target = .ok d') :
    d'.table.cells.size = d.table.cells.size := by
  have size := size_table_change done
  exact Nat.add_right_cancel size

theorem size_table_onRange {low high : UInt16} (done : d.onRange source low high target = .ok d') :
    d'.table.cells.size = d.table.cells.size + rangeCells := by
  unfold onRange at done
  split at done
  · have size := size_table_change done
    rw [DraftState.cellCount, DraftState.cellCount, Array.size_push, Nat.mul_succ] at size
    omega
  · contradiction

theorem size_table_addState {terminal : Option UInt16} (done : d.addState terminal = .ok (n, d')) :
    d'.table.cells.size = d.table.cells.size + fixedCells := by
  unfold addState at done
  split at done
  · cases done
    rw [size_table, size_table, Array.toList_push, List.foldl_append]
    rfl
  · contradiction

theorem size_table_onChar {c : Char} (done : d.onChar source c target = .ok d') :
    d.table.cells.size ≤ d'.table.cells.size := by
  cases units : Units.ofChar c with
  | single unit =>
    rw [onChar, units] at done
    dsimp only at done
    split at done
    · exact Nat.le_of_eq (size_table_onByte done).symm
    · rw [size_table_onRange done]
      exact Nat.le_add_right _ _
  | pair lead trail =>
    rcases (onChar_pair_cases units done).2 with
      ⟨middle, -, done⟩ | ⟨-, middle, d₁, d₂, added, led, done⟩
    · rw [size_table_onRange done]
      exact Nat.le_add_right _ _
    · rw [size_table_onRange done, size_table_onRange led, size_table_addState added]
      omega

/-! ### Ranges -/

theorem next?_onRange {low high : UInt16} (targeted : d.Targeted) (real : target ≠ noTarget)
    (done : d.onRange source low high target = .ok d') (m unit : UInt16) :
    d'.next? m unit = (d.next? m unit).or
      (if m = source ∧ DraftRange.covers ⟨low, high, target⟩ unit then some target else none) := by
  obtain ⟨⟨above, -⟩, -, -, state⟩ := onRange_ok done
  rw [next?, state]
  by_cases same : m = source
  · have range : directCount ≤ unit.toNat ∧ DraftRange.covers ⟨low, high, target⟩ unit = true ↔
        m = source ∧ DraftRange.covers ⟨low, high, target⟩ unit = true := by
      refine and_congr_left fun covers => iff_of_true (Nat.le_trans above ?_) same
      exact UInt16.le_iff_toNat_le.mp (DraftRange.covers_iff.mp covers).1
    have named : named? target = some target := if_neg real
    rw [if_pos same, DraftState.next?_of_extends (DraftState.extends_push _ _) (targeted m)]
    simp only [range, named]
    rfl
  · rw [if_neg same, if_neg fun both => same both.1, Option.or_none]
    rfl

section

variable {a : Automaton} (same : a.table = d.table) (small : d.table.cells.size < UInt32.size)
  (sound : d.Sound) (inside : n.toNat < d.stateCount)
include same small sound inside

theorem unitTarget?_decoded (unit : UInt16) :
    a.unitTarget? n.toNat unit = ((d.state n).counted.next? unit).map UInt16.toNat := by
  obtain ⟨s, there, place⟩ := decoded_state? same inside
  rw [Automaton.unitTarget?, there, Option.bind_some, decoded_next?_counted same small place]
  refine Automaton.map_val_bind_state? ?_
  intro target found
  obtain ⟨member, real⟩ := DraftState.mem_targets_of_next? found
  rw [stateCount_decoded same]
  exact target_known sound (DraftState.mem_targets_of_counted member) real

theorem charTarget?_decoded (few : ∀ m, (d.state m).ranges.size < UInt16.size) (c : Char) :
    a.charTarget? n.toNat c = (d.step? n c).map UInt16.toNat := by
  obtain ⟨s, there, place⟩ := decoded_state? same inside
  rw [Automaton.charTarget?, there, Option.bind_some, Automaton.walk?]
  have step := decoded_step? same small place few sound c
  cases dead : a.isDeadEnd s with
  | true =>
    rw [Automaton.isDeadEnd_eq (decoded_holds same small place)] at dead
    rw [step?_of_isDeadEnd dead]
    rfl
  | false =>
    have known : ∀ target, d.step? n c = some target → target.toNat < a.stateCount := by
      intro target found
      rw [stateCount_decoded same]
      exact known_of_step? sound found
    have whole : ((a.step? s c).bind fun q => a.walk? q []) = a.step? s c := Option.bind_fun_some _
    rw [if_neg Bool.false_ne_true, whole, step, Automaton.map_val_bind_state? known]

end

/-! ### Earlier ranges -/

theorem next?_counted_onRange {low high unit q : UInt16} (targeted : d.Targeted)
    (room : ((d.state source).ranges.size + 1) % UInt16.size ≠ 0)
    (done : d.onRange source low high target = .ok d') {m : UInt16}
    (found : (d.state m).counted.next? unit = some q) : (d'.state m).counted.next? unit = some q := by
  obtain ⟨-, -, -, state⟩ := onRange_ok done
  rw [state]
  split
  · next same =>
    subst same
    obtain ⟨r, more, -⟩ := DraftState.extends_counted (DraftState.extends_push _ _) room
    rw [DraftState.next?_of_extends more (targeted_counted targeted m), found, Option.some_or]
  · exact found

theorem exists_onRange {low high : UInt16} (target : UInt16) (inside : source.toNat < d.stateCount)
    (above : directCount ≤ low.toNat) (ordered : low ≤ high) :
    ∃ d', d.onRange source low high target = .ok d' := by
  rw [onRange, if_pos ⟨above, ordered⟩, change, if_pos inside]
  exact ⟨_, rfl⟩

theorem size_ranges_onRange {low high : UInt16} (done : d.onRange source low high target = .ok d') :
    (d'.state source).ranges.size = (d.state source).ranges.size + 1 := by
  obtain ⟨-, -, -, state⟩ := onRange_ok done
  rw [state, if_pos rfl]
  exact Array.size_push _

/-- One more range changes no transition, and leads the values that had none, as long as the count of the
ranges has room. If the count starts again at 0, none of the ranges can be followed. -/
theorem onRange_keeps_targets {ops : List DraftOp} {low high : UInt16} (built : build ops = .ok d)
    (known : ∀ op ∈ ops, ∀ target, op.target? = some target → target.toNat < d.stateCount)
    (inside : source.toNat < d.stateCount) (target_known : target.toNat < d.stateCount)
    (above : directCount ≤ low.toNat) (ordered : low ≤ high)
    (small : d.table.cells.size + rangeCells < UInt32.size) :
    ∃ d' a a', d.onRange source low high target = .ok d' ∧
      Automaton.decode d.toBytes = .ok a ∧ Automaton.decode d'.toBytes = .ok a' ∧
      (((d.state source).ranges.size + 1) % UInt16.size ≠ 0 →
        ∀ n unit q, a.unitTarget? n unit = some q → a'.unitTarget? n unit = some q) ∧
      ((d.state source).ranges.size + 1 < UInt16.size →
        ∀ unit, low ≤ unit → unit ≤ high → a.unitTarget? source.toNat unit = none →
          a'.unitTarget? source.toNat unit = some target.toNat) ∧
      (((d.state source).ranges.size + 1) % UInt16.size = 0 →
        ∀ unit : UInt16, directCount ≤ unit.toNat → a'.unitTarget? source.toNat unit = none) := by
  obtain ⟨sound, targeted⟩ := sound_of_build built known
  obtain ⟨d', done⟩ := exists_onRange target inside above ordered
  have applied : d.apply (.onRange source low high target) = .ok d' := done
  have sound' : d'.Sound := by
    refine sound_of_apply built known ?_ applied
    rintro _ ⟨⟩
    exact target_known
  have small' : d'.table.cells.size < UInt32.size := (size_table_onRange done).trans_lt small
  have small := Nat.lt_of_le_of_lt (Nat.le_add_right _ _) small
  have count : d'.stateCount = d.stateCount := (onRange_ok done).2.2.1
  have size := size_ranges_onRange done
  obtain ⟨a, decoded, same⟩ := decode_toBytes sound small
  obtain ⟨a', decoded', same'⟩ := decode_toBytes sound' small'
  have inside' : source.toNat < d'.stateCount := count ▸ inside
  refine ⟨d', a, a', done, decoded, decoded', ?_, ?_, ?_⟩
  · intro room n unit q found
    have there : n < d.stateCount := stateCount_decoded same ▸ Automaton.lt_of_unitTarget? found
    have number := toNat_ofNat_of_known sound.numbered there
    rw [← number] at there found ⊢
    rw [unitTarget?_decoded same small sound there, Option.map_eq_some_iff] at found
    rw [unitTarget?_decoded same' small' sound' (count ▸ there), Option.map_eq_some_iff]
    obtain ⟨target', next, rfl⟩ := found
    exact ⟨target', next?_counted_onRange targeted room done next, rfl⟩
  · intro few unit first last unset
    rw [unitTarget?_decoded same small sound inside, Option.map_eq_none_iff,
      DraftState.counted_of_few (Nat.lt_of_succ_lt few)] at unset
    rw [unitTarget?_decoded same' small' sound' inside', DraftState.counted_of_few (size ▸ few)]
    have next := next?_onRange targeted (real_of_known sound.numbered target_known) done source unit
    rw [if_pos ⟨rfl, DraftRange.covers_iff.mpr ⟨first, last⟩⟩,
      show d.next? source unit = none from unset, Option.none_or] at next
    exact congrArg _ next
  · intro full unit high
    rw [unitTarget?_decoded same' small' sound' inside',
      DraftState.next?_counted_of_full (size ▸ full) high]
    rfl

theorem onRange_keeps_targets_overlapping :
    let ops : List DraftOp := [.addState none, .onRange 0 300 400 1]
    ∃ d d' a a', build ops = .ok d ∧ d.onRange 0 350 500 0 = .ok d' ∧
      Automaton.decode d.toBytes = .ok a ∧ Automaton.decode d'.toBytes = .ok a' ∧
      a'.unitTarget? 0 360 = some 1 ∧ a'.unitTarget? 0 450 = some 0 := by
  intro ops
  obtain ⟨d, built, check⟩ := exists_of_toOption_any (x := build ops)
    (p := fun d => decide (d.stateCount = 2 ∧ (d.state 0).ranges.size = 1 ∧
      d.states.toList.foldl (fun n s => n + s.cellCount) 0 + rangeCells < UInt32.size ∧
      (d.state 0).counted.next? 360 = some 1 ∧ (d.state 0).counted.next? 450 = none))
    (by decide +kernel)
  obtain ⟨count, size, small, first, second⟩ := of_decide_eq_true check
  have known : ∀ op ∈ ops, ∀ target, op.target? = some target → target.toNat < d.stateCount :=
    DraftOp.targets_lt (count ▸ by decide)
  have small : d.table.cells.size + rangeCells < UInt32.size := d.size_table ▸ small
  have inside : (0 : UInt16).toNat < d.stateCount := count ▸ by decide
  obtain ⟨d', a, a', done, decoded, decoded', keeps, leads, -⟩ :=
    onRange_keeps_targets built known inside inside (by decide : directCount ≤ (350 : UInt16).toNat)
      (by decide : (350 : UInt16) ≤ 500) small
  have same := table_of_decode (sound_of_build built known).1.nonempty
    (sound_of_build built known).1.numbered decoded
  have there := unitTarget?_decoded same (Nat.lt_of_le_of_lt (Nat.le_add_right _ _) small)
    (sound_of_build built known).1 inside
  refine ⟨d, d', a, a', built, done, decoded, decoded', ?_, ?_⟩
  · refine keeps (by rw [size]; decide) 0 360 1 ?_
    exact (there 360).trans (by rw [first]; rfl)
  · refine leads (by rw [size]; decide) 450 (by decide) (by decide) ?_
    exact (there 450).trans (by rw [second]; rfl)

/-- Two states, with `k` times the same range from the first to the second. -/
def crowded (k : Nat) : Draft :=
  ⟨#[{ DraftState.fresh none with ranges := .replicate k ⟨256, 256, 1⟩ }, .fresh none]⟩

theorem foldlM_crowded (n k : Nat) :
    (List.replicate n (DraftOp.onRange 0 256 256 1)).foldlM apply (crowded k) = .ok (crowded (n + k)) := by
  induction n generalizing k with
  | zero =>
    rw [Nat.zero_add]
    rfl
  | succ n ih =>
    have first : (crowded k).apply (.onRange 0 256 256 1) = .ok (crowded (k + 1)) := by
      rw [crowded, crowded, Array.replicate_succ]
      rfl
    rw [List.replicate_succ, List.foldlM_cons, first, Nat.succ_add_eq_add_succ]
    exact ih (k + 1)

theorem build_crowded (k : Nat) :
    build (.addState none :: List.replicate k (.onRange 0 256 256 1)) = .ok (crowded k) := by
  have first : empty.apply (.addState none) = .ok (crowded 0) := rfl
  rw [build, List.foldlM_cons, first]
  exact foldlM_crowded k 0

theorem size_table_crowded (k : Nat) :
    (crowded k).table.cells.size = fixedCells + rangeCells * k + fixedCells := by
  rw [size_table]
  simp [crowded, DraftState.cellCount, DraftState.fresh]

theorem next?_crowded (k : Nat) {unit : UInt16} (above : directCount ≤ unit.toNat) :
    (crowded (k + 1)).next? 0 unit = if unit = 256 then some 1 else none := by
  have ranges : ((crowded (k + 1)).state 0).ranges.toList = .replicate (k + 1) ⟨256, 256, 1⟩ := rfl
  rw [next?, DraftState.next?, if_neg (Nat.not_lt_of_le above), DraftState.range?, ranges,
    List.find?_replicate_of_length_pos (Nat.succ_pos k)]
  simp only [DraftRange.covers_single]
  split
  · rfl
  · rfl

theorem crowded_loses {k : Nat} (full : k + 2 = UInt16.size) :
    let ops : List DraftOp := .addState none :: List.replicate (k + 1) (.onRange 0 256 256 1)
    ∃ d d' a a', build ops = .ok d ∧
      (∀ op ∈ ops, ∀ target, op.target? = some target → target.toNat < d.stateCount) ∧
      d.onRange 0 257 257 1 = .ok d' ∧
      Automaton.decode d.toBytes = .ok a ∧ Automaton.decode d'.toBytes = .ok a' ∧
      a.unitTarget? 0 256 = some 1 ∧ a'.unitTarget? 0 256 = none ∧
      a.unitTarget? 0 257 = none ∧ a'.unitTarget? 0 257 = none := by
  intro ops
  let d := crowded (k + 1)
  have built : build ops = .ok d := build_crowded (k + 1)
  have count : d.stateCount = 2 := rfl
  have known : ∀ op ∈ ops, ∀ target, op.target? = some target → target.toNat < d.stateCount := by
    intro op member target named
    rcases List.mem_cons.mp member with rfl | range
    · contradiction
    · obtain rfl := List.eq_of_mem_replicate range
      cases named
      exact Nat.one_lt_two
  have inside : (0 : UInt16).toNat < d.stateCount := Nat.two_pos
  obtain ⟨d', done⟩ := exists_onRange 1 inside (by decide : directCount ≤ (257 : UInt16).toNat)
    (by decide : (257 : UInt16) ≤ 257)
  have applied : d.apply (.onRange 0 257 257 1) = .ok d' := done
  have sound := (sound_of_build built known).1
  have sound' : d'.Sound := by
    refine sound_of_apply built known ?_ applied
    rintro _ ⟨⟩
    exact Nat.one_lt_two
  have cells : d.table.cells.size = fixedCells + rangeCells * (k + 1) + fixedCells :=
    size_table_crowded (k + 1)
  have cells' := size_table_onRange done
  have small : d.table.cells.size < UInt32.size ∧ d'.table.cells.size < UInt32.size := by
    simp only [UInt16.size, UInt32.size, fixedCells, headerCells, directCount, rangeCells] at *
    omega
  obtain ⟨a, decoded, same⟩ := decode_toBytes sound small.1
  obtain ⟨a', decoded', same'⟩ := decode_toBytes sound' small.2
  have size : (d.state 0).ranges.size = k + 1 := Array.size_replicate
  have few : (d.state 0).ranges.size < UInt16.size := by omega
  have none_left : (d'.state 0).ranges.size % UInt16.size = 0 := by
    rw [size_ranges_onRange done, size, full, Nat.mod_self]
  have before (unit : UInt16) := unitTarget?_decoded same small.1 sound inside unit
  have after (unit : UInt16) :=
    unitTarget?_decoded same' small.2 sound' (inside.trans_eq (onRange_ok done).2.2.1.symm) unit
  rw [DraftState.counted_of_few few] at before
  refine ⟨d, d', a, a', built, known, done, decoded, decoded', ?_, ?_, ?_, ?_⟩
  · exact (before 256).trans (congrArg _ (next?_crowded k (by decide)))
  · exact (after 256).trans (congrArg _ (DraftState.next?_counted_of_full none_left (by decide)))
  · exact (before 257).trans (congrArg _ (next?_crowded k (by decide)))
  · exact (after 257).trans (congrArg _ (DraftState.next?_counted_of_full none_left (by decide)))

/-- With its 65536th range, a state loses the transitions of all its ranges. -/
theorem onRange_loses_targets :
    let ops : List DraftOp := .addState none :: List.replicate 65535 (.onRange 0 256 256 1)
    ∃ d d' a a', build ops = .ok d ∧
      (∀ op ∈ ops, ∀ target, op.target? = some target → target.toNat < d.stateCount) ∧
      d.onRange 0 257 257 1 = .ok d' ∧
      Automaton.decode d.toBytes = .ok a ∧ Automaton.decode d'.toBytes = .ok a' ∧
      a.unitTarget? 0 256 = some 1 ∧ a'.unitTarget? 0 256 = none ∧
      a.unitTarget? 0 257 = none ∧ a'.unitTarget? 0 257 = none :=
  crowded_loses (k := 65534) rfl

/-! ### Characters -/

/-- Nothing drafted before answers for the character. A pair must find its lead free, or behind it the
state that the lead alone leads to, where the trail is free. -/
def Free (d : Draft) (source : UInt16) (c : Char) : Prop :=
  match Units.ofChar c with
  | .single unit => unit.toNat < directCount ∨ d.next? source unit = none
  | .pair lead trail =>
    d.next? source lead = (d.state source).lone? lead ∧
      ∀ middle, (d.state source).lone? lead = some middle → d.next? middle trail = none

theorem free_single {c : Char} {unit : UInt16} (units : Units.ofChar c = .single unit) :
    d.Free source c ↔ unit.toNat < directCount ∨ d.next? source unit = none := by
  rw [Free, units]

theorem free_pair {c : Char} {lead trail : UInt16} (units : Units.ofChar c = .pair lead trail) :
    d.Free source c ↔ d.next? source lead = (d.state source).lone? lead ∧
      ∀ middle, (d.state source).lone? lead = some middle → d.next? middle trail = none := by
  rw [Free, units]

theorem next?_onByte {value : UInt8} (real : target ≠ noTarget)
    (done : d.onByte source value target = .ok d') :
    d'.next? source (.ofNat value.toNat) = some target := by
  obtain ⟨-, -, state⟩ := change_ok done
  have low : (UInt16.ofNat value.toNat).toNat < directCount :=
    (toNat_ofNat_byte value).trans_lt value.toNat_lt
  rw [next?, state, if_pos rfl, DraftState.next?, if_pos low, DraftState.direct?_set, toNat_ofNat_byte,
    UInt8.ofNat_toNat, if_pos rfl]
  exact if_neg real

theorem next?_onUnit {unit : UInt16} (targeted : d.Targeted) (real : target ≠ noTarget)
    (done : d.onRange source unit unit target = .ok d') (m u : UInt16) :
    d'.next? m u = (d.next? m u).or (if m = source ∧ u = unit then some target else none) := by
  rw [next?_onRange targeted real done]
  simp only [DraftRange.covers_single]

section

variable (sound : d.Sound) (targeted : d.Targeted) (known : target.toNat < d.stateCount) {c : Char}
  (done : d.onChar source c target = .ok d')
include sound targeted known done

theorem step?_onChar_single {unit : UInt16} (units : Units.ofChar c = .single unit) :
    (d.Free source c → d'.step? source c = some target) ∧
      (¬ d.Free source c → d'.step? source c = d.step? source c) := by
  have real := real_of_known sound.numbered known
  rw [free_single units, step?_single units, step?_single units]
  rw [onChar, units] at done
  dsimp only at done
  split at done
  · next low =>
    refine ⟨fun _ => ?_, fun taken => absurd (.inl low) taken⟩
    have next := next?_onByte real done
    rwa [UInt8.toNat_ofNat_of_lt' low, UInt16.ofNat_toNat] at next
  · next high =>
    have next := next?_onUnit targeted real done source unit
    rw [if_pos ⟨rfl, rfl⟩] at next
    refine ⟨?_, ?_⟩
    · rintro (low | free)
      · exact absurd low high
      · rw [next, free, Option.none_or]
    · intro taken
      obtain ⟨q, found⟩ := Option.ne_none_iff_exists'.mp fun free => taken (.inr free)
      rw [next, found, Option.some_or]

theorem step?_onChar_pair {lead trail : UInt16} (units : Units.ofChar c = .pair lead trail) :
    (d.Free source c → d'.step? source c = some target) ∧
      (¬ d.Free source c → d'.step? source c = d.step? source c) := by
  have real := real_of_known sound.numbered known
  obtain ⟨⟨-, high⟩, ⟨low, -⟩, -⟩ := Units.of_pair units
  have apart : lead ≠ trail := by
    rintro rfl
    exact Nat.not_lt_of_le low high
  rw [free_pair units, step?_pair units, step?_pair units]
  obtain ⟨inside, ⟨middle, shared, done⟩ | ⟨absent, middle, d₁, d₂, added, led, done⟩⟩ :=
    onChar_pair_cases units done
  · have next := next?_onUnit targeted real done
    have lead_next : d'.next? source lead = d.next? source lead := by
      rw [next, if_neg fun both => apart both.2, Option.or_none]
    rw [lead_next, shared]
    refine ⟨?_, ?_⟩
    · rintro ⟨through, free⟩
      rw [through, Option.bind_some, next, if_pos ⟨rfl, rfl⟩, free middle rfl, Option.none_or]
    · intro taken
      refine Option.bind_congr ?_
      intro first found
      rw [next]
      by_cases same : first = middle
      · -- The trail already leads on from the state behind the lead.
        subst same
        obtain ⟨q, later⟩ := Option.ne_none_iff_exists'.mp fun free =>
          taken ⟨found, fun _ other => Option.some.inj other ▸ free⟩
        rw [later, Option.some_or]
      · rw [if_neg fun both => same both.1, Option.or_none]
  · obtain ⟨room, number, count, -⟩ := addState_frame added
    obtain ⟨fresh, kept⟩ := next?_addState added
    have middle_real : middle ≠ noTarget :=
      real_of_known (count ▸ room : d₁.stateCount ≤ maxStates) (by omega)
    have targeted₁ := targeted_addState targeted added
    have targeted₂ := targeted_onRange targeted₁ middle_real led
    have next (m u : UInt16) : d'.next? m u =
        ((d.next? m u).or (if m = source ∧ u = lead then some middle else none)).or
          (if m = middle ∧ u = trail then some target else none) := by
      rw [next?_onUnit targeted₂ real done, next?_onUnit targeted₁ middle_real led, kept]
    have lead_next : d'.next? source lead = (d.next? source lead).or (some middle) := by
      rw [next, if_pos ⟨rfl, rfl⟩, if_neg fun both => apart both.2, Option.or_none]
    rw [lead_next, absent]
    refine ⟨?_, ?_⟩
    · rintro ⟨free, -⟩
      rw [free, Option.none_or, Option.bind_some, next, fresh, if_neg fun both => apart both.2.symm,
        if_pos ⟨rfl, rfl⟩]
      rfl
    · intro taken
      obtain ⟨first, found⟩ := Option.ne_none_iff_exists'.mp fun free => taken ⟨free, nofun⟩
      have other : first ≠ middle := by
        rintro rfl
        exact absurd (known_of_next? sound found) (Nat.not_lt_of_le (Nat.le_of_eq number.symm))
      rw [found, Option.some_or, Option.bind_some, Option.bind_some, next,
        if_neg fun both => apart both.2.symm, if_neg fun both => other both.1, Option.or_none,
        Option.or_none]

theorem step?_onChar :
    (d.Free source c → d'.step? source c = some target) ∧
      (¬ d.Free source c → d'.step? source c = d.step? source c) := by
  cases units : Units.ofChar c with
  | single unit => exact step?_onChar_single sound targeted known done units
  | pair lead trail => exact step?_onChar_pair sound targeted known done units

end

theorem source_lt_of_onChar {c : Char} (done : d.onChar source c target = .ok d') :
    source.toNat < d.stateCount := by
  cases units : Units.ofChar c with
  | single unit =>
    rw [onChar_single units] at done
    exact (change_ok done).1
  | pair lead trail => exact (onChar_pair_cases units done).1

/-- A character leads where it is drafted to lead if nothing answers for it yet, and where it led before
if something does. -/
theorem onChar_yields {ops : List DraftOp} {c : Char} (built : build ops = .ok d)
    (known : ∀ op ∈ ops, ∀ target, op.target? = some target → target.toNat < d.stateCount)
    (few : ∀ n, (d.state n).ranges.size ≤ 65533) (target_known : target.toNat < d.stateCount)
    (done : d.onChar source c target = .ok d') (small : d'.table.cells.size < UInt32.size) :
    ∃ a a', Automaton.decode d.toBytes = .ok a ∧ Automaton.decode d'.toBytes = .ok a' ∧
      (d.Free source c → a'.charTarget? source.toNat c = some target.toNat) ∧
      (¬ d.Free source c → a'.charTarget? source.toNat c = a.charTarget? source.toNat c) := by
  obtain ⟨sound, targeted⟩ := sound_of_build built known
  have applied : d.apply (.onChar source c target) = .ok d' := done
  have sound' : d'.Sound := by
    refine sound_of_apply built known ?_ applied
    rintro _ ⟨⟩
    exact target_known
  have h := records_build built
  have h' := records_apply h applied
  have grown := stateCount_le_apply built applied
  have few' (n : UInt16) : (d'.state n).ranges.size < UInt16.size := by
    have more := Journal.length_rangesOf_addChar_le (.ofOps ops) source c target n
    rw [← h.ranges, Array.length_toList] at more
    rw [← Array.length_toList, h'.ranges]
    refine Nat.lt_of_le_of_lt (Nat.le_trans more (Nat.add_le_add_right (few n) 2)) (by decide)
  have small₀ := Nat.lt_of_le_of_lt (size_table_onChar done) small
  have few₀ (n : UInt16) : (d.state n).ranges.size < UInt16.size :=
    Nat.lt_of_le_of_lt (few n) (by decide)
  obtain ⟨a, decoded, same⟩ := decode_toBytes sound small₀
  obtain ⟨a', decoded', same'⟩ := decode_toBytes sound' small
  have inside := source_lt_of_onChar done
  have before := charTarget?_decoded same small₀ sound inside few₀ c
  have after := charTarget?_decoded same' small sound' (Nat.lt_of_lt_of_le inside grown) few' c
  obtain ⟨free, taken⟩ := step?_onChar sound targeted target_known done
  refine ⟨a, a', decoded, decoded', ?_, ?_⟩
  · intro h
    rw [after, free h]
    rfl
  · intro h
    rw [after, taken h, before]

theorem onChar_yields_shared_lead :
    let ops : List DraftOp := [.addState none, .onChar 0 '𝄞' 1]
    ∃ d d' a', build ops = .ok d ∧ d.onChar 0 '𝄟' 1 = .ok d' ∧
      Automaton.decode d'.toBytes = .ok a' ∧ a'.charTarget? 0 '𝄟' = some 1 := by
  intro ops
  obtain ⟨d, built, check⟩ := exists_of_toOption_any (x := build ops)
    (p := fun d => decide (d.stateCount = 3 ∧ d.next? 0 0xD834 = some 2 ∧
        (d.state 0).lone? 0xD834 = some 2 ∧ d.next? 2 0xDD1F = none) &&
      (d.onChar 0 '𝄟' 1).toOption.any fun d' : Draft =>
        decide (d'.states.toList.foldl (fun n s => n + s.cellCount) 0 < UInt32.size))
    (by decide +kernel)
  obtain ⟨facts, later⟩ := (Bool.and_eq_true _ _).mp check
  obtain ⟨count, lead, shared, unset⟩ := of_decide_eq_true facts
  obtain ⟨d', done, small⟩ := exists_of_toOption_any later
  have known : ∀ op ∈ ops, ∀ target, op.target? = some target → target.toNat < d.stateCount :=
    DraftOp.targets_lt (count ▸ by decide)
  have few (n : UInt16) : (d.state n).ranges.size ≤ 65533 :=
    Nat.le_trans (size_ranges_le_of_build built n) (by decide)
  obtain ⟨_, a', -, decoded', yields, -⟩ := onChar_yields built known few (count ▸ by decide) done
    (d'.size_table ▸ of_decide_eq_true small)
  refine ⟨d, d', a', built, done, decoded', yields ?_⟩
  refine (free_pair (by decide : Units.ofChar '𝄟' = .pair 0xD834 0xDD1F)).mpr ⟨lead.trans shared.symm, ?_⟩
  intro middle through
  rw [shared] at through
  cases through
  exact unset

/-- The target that a character of the basic plane has stays, where a byte would take the new one. -/
theorem onChar_keeps_first_target :
    let ops : List DraftOp := [.addState (some 5), .addState (some 6), .onChar 0 'Ā' 1]
    ∃ d d' a', build ops = .ok d ∧
      (∀ op ∈ ops, ∀ target, op.target? = some target → target.toNat < d.stateCount) ∧
      (∀ n, (d.state n).ranges.size ≤ 65533) ∧ (2 : UInt16).toNat < d.stateCount ∧
      d.onChar 0 'Ā' 2 = .ok d' ∧ Automaton.decode d'.toBytes = .ok a' ∧
      a'.charTarget? 0 'Ā' = some 1 := by
  intro ops
  obtain ⟨d, built, check⟩ := exists_of_toOption_any (x := build ops)
    (p := fun d => decide (d.stateCount = 3) &&
      (d.onChar 0 'Ā' 2).toOption.any fun d' : Draft =>
        decide (d'.states.toList.foldl (fun n s => n + s.cellCount) 0 < UInt32.size ∧
          d'.stateCount = 3 ∧ d'.step? 0 'Ā' = some 1))
    (by decide +kernel)
  obtain ⟨count, later⟩ := (Bool.and_eq_true _ _).mp check
  have count : d.stateCount = 3 := of_decide_eq_true count
  obtain ⟨d', done, facts⟩ := exists_of_toOption_any later
  obtain ⟨small, count', step⟩ := of_decide_eq_true facts
  have known : ∀ op ∈ ops, ∀ target, op.target? = some target → target.toNat < d.stateCount :=
    DraftOp.targets_lt (count ▸ by decide)
  have two : (2 : UInt16).toNat < d.stateCount := count ▸ by decide
  have applied : d.apply (.onChar 0 'Ā' 2) = .ok d' := done
  have sound' : d'.Sound := by
    refine sound_of_apply built known ?_ applied
    rintro _ ⟨⟩
    exact two
  have built' : build (ops ++ [.onChar 0 'Ā' 2]) = .ok d' := build_append built applied
  have few (n : UInt16) : (d.state n).ranges.size ≤ 65533 :=
    Nat.le_trans (size_ranges_le_of_build built n) (by decide)
  have few' (n : UInt16) : (d'.state n).ranges.size < UInt16.size :=
    Nat.lt_of_le_of_lt (size_ranges_le_of_build built' n) (by decide)
  have small : d'.table.cells.size < UInt32.size := d'.size_table ▸ small
  obtain ⟨a', decoded', same'⟩ := decode_toBytes sound' small
  have inside : (0 : UInt16).toNat < d'.stateCount := count' ▸ by decide
  refine ⟨d, d', a', built, known, few, two, done, decoded', ?_⟩
  exact (charTarget?_decoded same' small sound' inside few' 'Ā').trans (congrArg _ step)

end Draft

end ParseKit
