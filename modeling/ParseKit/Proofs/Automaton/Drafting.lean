import Mathlib.Data.List.Find
import Mathlib.Data.List.Nodup
import Mathlib.Data.List.Range
import Mathlib.Data.List.Perm.Subperm
import ParseKit.Proofs.Automaton.Layout
import ParseKit.Proofs.Text.Units

/-!
# Drafts of single transitions

A draft is `Regular` when each of its ranges holds one value and no value of a state has two.
`Draft.put` is the step that keeps it so: it gives one unit of one state a target.
-/

namespace ParseKit

namespace DraftState

def next? (s : DraftState) (unit : UInt16) : Option UInt16 :=
  if unit.toNat < directCount then s.direct? (.ofNat unit.toNat) else s.range? unit

def put (s : DraftState) (unit target : UInt16) : DraftState :=
  if h : unit.toNat < directCount then { s with direct := s.direct.set unit.toNat target h }
  else { s with ranges := s.ranges.push ⟨unit, unit, target⟩ }

/-- Each range holds one value, and no two ranges the same. -/
structure Plain (s : DraftState) : Prop where
  each : ∀ r ∈ s.ranges, r.high = r.low ∧ directCount ≤ r.low.toNat ∧ r.target ≠ noTarget
  distinct : (s.ranges.toList.map (·.low)).Nodup

variable {s : DraftState} {unit target : UInt16}

theorem plain_fresh (terminal : Option UInt16) : (fresh terminal).Plain :=
  ⟨fun _ member => (nomatch (Array.mem_def.mp member)), List.nodup_nil⟩

theorem targets_fresh {terminal : Option UInt16} (member : target ∈ (fresh terminal).targets) :
    target = noTarget := by
  rcases List.mem_append.mp member with direct | range
  · exact (Vector.mem_replicate.mp (Vector.mem_toList_iff.mp direct)).2
  · exact nomatch range

theorem next?_fresh (terminal : Option UInt16) (unit : UInt16) :
    (fresh terminal).next? unit = none := by
  unfold next?
  split
  · simp [direct?, fresh, named?]
  · rfl

theorem terminal?_fresh (terminal : Option UInt16) :
    (fresh terminal).terminal? = terminal.bind fun t => if t = noTerminal then none else some t := by
  cases terminal with
  | none => exact if_pos rfl
  | some t => rfl

theorem mem_targets_of_next? (found : s.next? unit = some target) :
    target ∈ s.targets ∧ target ≠ noTarget := by
  unfold next? at found
  split at found
  · obtain ⟨rfl, real⟩ := named?_eq_some_iff.mp found
    exact ⟨List.mem_append_left _ (Vector.mem_toList_iff.mpr (Vector.getElem_mem _)), real⟩
  · obtain ⟨r, first, cell⟩ := Option.bind_eq_some_iff.mp found
    obtain ⟨rfl, real⟩ := named?_eq_some_iff.mp cell
    exact ⟨List.mem_append_right _ (List.mem_map_of_mem (List.mem_of_find?_eq_some first)), real⟩

theorem isDeadEnd_iff :
    s.isDeadEnd = true ↔ (∀ target ∈ s.direct, target = noTarget) ∧ s.ranges = #[] := by
  have count (n : Nat) : UInt16.ofNat (min n 0xFFFF) = 0 ↔ n = 0 := by
    rw [← UInt16.toNat_inj, UInt16.toNat_ofNat_of_lt' (show _ < 65536 by omega)]
    change min n 0xFFFF = 0 ↔ n = 0
    omega
  rw [isDeadEnd, beq_iff_eq, transitionCount, count, Nat.add_eq_zero_iff, Array.countP_eq_zero,
    Array.size_eq_zero_iff]
  refine and_congr_left fun _ => ⟨?_, ?_⟩
  · intro none target member
    simpa using none target (by simpa using member)
  · intro none target member
    simpa using none target (by simpa using member)

theorem next?_of_isDeadEnd (dead : s.isDeadEnd = true) (unit : UInt16) : s.next? unit = none := by
  obtain ⟨direct, ranges⟩ := isDeadEnd_iff.mp dead
  unfold next?
  split
  · exact if_pos (direct _ (Vector.getElem_mem _))
  · rw [range?, ranges]
    rfl

theorem few_of_plain (plain : s.Plain) : s.ranges.size < UInt16.size := by
  -- The lower bounds are different words, and none of them is 0.
  have distinct : (s.ranges.toList.map (·.low.toNat)).Nodup := by
    have := plain.distinct.map (f := UInt16.toNat) fun _ _ same => UInt16.toNat_inj.mp same
    rwa [List.map_map] at this
  have above : s.ranges.toList.map (·.low.toNat) ⊆ List.range' 1 0xFFFF := by
    intro low member
    obtain ⟨r, inside, rfl⟩ := List.mem_map.mp member
    obtain ⟨-, bound, -⟩ := plain.each r (Array.mem_toList_iff.mp inside)
    have := r.low.toNat_lt
    simp only [directCount] at bound
    exact List.mem_range'_1.mpr (by omega)
  have length := (List.subperm_of_subset distinct above).length_le
  rw [List.length_map, List.length_range', Array.length_toList] at length
  exact Nat.lt_succ_of_le length

theorem find?_of_free (plain : s.Plain) (above : directCount ≤ unit.toNat)
    (free : s.next? unit = none) : s.ranges.toList.find? (·.covers unit) = none := by
  rw [next?, if_neg (Nat.not_lt_of_le above), range?] at free
  cases first : s.ranges.toList.find? (·.covers unit) with
  | none => rfl
  | some r =>
    obtain ⟨-, -, real⟩ := plain.each r (Array.mem_toList_iff.mp (List.mem_of_find?_eq_some first))
    rw [first, Option.bind_some, named?, if_neg real] at free
    contradiction

theorem lone?_eq (plain : s.Plain) (above : directCount ≤ unit.toNat) :
    s.lone? unit = s.next? unit := by
  have alone : ∀ r ∈ s.ranges.toList,
      (r.low == unit && r.high == unit) = r.covers unit := by
    intro r member
    obtain ⟨single, -, -⟩ := plain.each r (Array.mem_toList_iff.mp member)
    obtain ⟨low, high, target⟩ := r
    obtain rfl : high = low := single
    rw [Bool.and_self, Bool.eq_iff_iff, beq_iff_eq, DraftRange.covers_single]
    exact eq_comm
  rw [next?, if_neg (Nat.not_lt_of_le above), range?, lone?, ← Array.find?_toList,
    List.find?_congr alone]
  cases first : s.ranges.toList.find? (·.covers unit) with
  | none => rfl
  | some r =>
    obtain ⟨-, -, real⟩ := plain.each r (Array.mem_toList_iff.mp (List.mem_of_find?_eq_some first))
    exact (if_neg real).symm

theorem plain_put (plain : s.Plain) (real : target ≠ noTarget)
    (free : unit.toNat < directCount ∨ s.next? unit = none) : (s.put unit target).Plain := by
  unfold put
  split
  · exact ⟨plain.each, plain.distinct⟩
  · next above =>
    have above := Nat.le_of_not_lt above
    have none := find?_of_free plain above (free.resolve_left (Nat.not_lt_of_le above))
    refine ⟨?_, ?_⟩
    · intro r member
      rcases Array.mem_push.mp member with old | rfl
      · exact plain.each r old
      · exact ⟨rfl, above, real⟩
    · simp only [Array.toList_push, List.map_append, List.map_cons, List.map_nil]
      refine List.nodup_append.mpr ⟨plain.distinct, List.nodup_singleton _, ?_⟩
      intro low old _ new
      rintro rfl
      obtain rfl := List.mem_singleton.mp new
      obtain ⟨r, inside, rfl⟩ := List.mem_map.mp old
      have uncovered := List.find?_eq_none.mp none r inside
      rw [DraftRange.covers, (plain.each r (Array.mem_toList_iff.mp inside)).1] at uncovered
      simp at uncovered

theorem targets_put {other : UInt16} (member : other ∈ (s.put unit target).targets) :
    other ∈ s.targets ∨ other = target := by
  unfold put at member
  split at member
  · next low =>
    rcases List.mem_append.mp member with direct | range
    · have stored : other ∈ s.direct.set unit.toNat target low := Vector.mem_toList_iff.mp direct
      rcases Vector.mem_or_eq_of_mem_set stored with old | new
      · exact .inl (List.mem_append_left _ (Vector.mem_toList_iff.mpr old))
      · exact .inr new
    · exact .inl (List.mem_append_right _ range)
  · simp only [targets, Array.toList_push, List.map_append, List.map_cons, List.map_nil,
      ← List.append_assoc] at member
    rcases List.mem_append.mp member with old | new
    · exact .inl old
    · exact .inr (List.mem_singleton.mp new)

theorem next?_put (plain : s.Plain) (real : target ≠ noTarget)
    (free : unit.toNat < directCount ∨ s.next? unit = none) (value : UInt16) :
    (s.put unit target).next? value = if value = unit then some target else s.next? value := by
  have named : named? target = some target := if_neg real
  unfold put
  split
  · next low =>
    unfold next?
    split
    · next small =>
      have index : (UInt8.ofNat value.toNat).toNat = value.toNat := UInt8.toNat_ofNat_of_lt' small
      simp only [direct?, index, Vector.getElem_set, UInt16.toNat_inj, eq_comm (a := unit)]
      split
      · exact named
      · rfl
    · next high =>
      rw [if_neg (by rintro rfl; exact high low)]
      rfl
  · next above =>
    have above := Nat.le_of_not_lt above
    have none := find?_of_free plain above (free.resolve_left (Nat.not_lt_of_le above))
    unfold next?
    split
    · next small =>
      rw [if_neg (by rintro rfl; exact Nat.not_lt_of_le above small)]
      rfl
    · rw [range?, range?, Array.toList_push, List.find?_append]
      by_cases same : value = unit
      · subst same
        rw [if_pos rfl, none]
        simp [DraftRange.covers_single, named]
      · simp [DraftRange.covers_single, same]

theorem terminal?_put : (s.put unit target).terminal? = s.terminal? := by
  unfold put
  split <;> rfl

end DraftState

namespace Draft

/-- The drafted state of a number. Numbers that name no state have a state without transitions. -/
def state (d : Draft) (n : UInt16) : DraftState := d.states.getD n.toNat (.fresh none)

def next? (d : Draft) (n unit : UInt16) : Option UInt16 := (d.state n).next? unit

/-- The target of a character, which takes two transitions if it is a pair. -/
def step? (d : Draft) (n : UInt16) (c : Char) : Option UInt16 :=
  match Units.ofChar c with
  | .single unit => d.next? n unit
  | .pair lead trail => (d.next? n lead).bind fun middle => d.next? middle trail

def put (d : Draft) (source unit target : UInt16) : Except Violation Draft :=
  d.change source fun s => s.put unit target

/-- Each state is plain and leads to states of the draft. -/
structure Regular (d : Draft) : Prop where
  nonempty : 0 < d.stateCount
  numbered : d.stateCount ≤ maxStates
  plain : ∀ n, (d.state n).Plain
  closed : ∀ n, ∀ target ∈ (d.state n).targets, target ≠ noTarget → target.toNat < d.stateCount

variable {d d' : Draft} {n source unit target : UInt16}

theorem state_of_lt (inside : n.toNat < d.states.size) : d.state n = d.states[n.toNat] := by
  rw [state, Array.getD_eq_getD_getElem?, Array.getElem?_eq_getElem inside, Option.getD_some]

theorem state_of_ge (outside : d.stateCount ≤ n.toNat) : d.state n = .fresh none := by
  rw [state, Array.getD_eq_getD_getElem?, Array.getElem?_eq_none outside, Option.getD_none]

theorem change_ok {f : DraftState → DraftState} (done : d.change n f = .ok d') :
    n.toNat < d.stateCount ∧ d'.stateCount = d.stateCount ∧
      ∀ m, d'.state m = if m = n then f (d.state m) else d.state m := by
  unfold change at done
  split at done
  · next inside =>
    cases done
    refine ⟨inside, Array.size_modify, ?_⟩
    intro m
    rcases Nat.lt_or_ge m.toNat d.states.size with there | outside
    · rw [state_of_lt there, state_of_lt (by rwa [Array.size_modify]), Array.getElem_modify]
      simp only [UInt16.toNat_inj, eq_comm (a := n)]
    · have other : m ≠ n := by
        rintro rfl
        exact Nat.not_lt_of_le outside inside
      rw [if_neg other, state_of_ge outside, state_of_ge (by rwa [stateCount, Array.size_modify])]
  · contradiction

/-- What a change keeps where it is made is kept in every state. -/
theorem change_frame {β : Type} (read : DraftState → β) {f : DraftState → DraftState}
    (done : d.change n f = .ok d') (kept : ∀ s, read (f s) = read s) (m : UInt16) :
    read (d'.state m) = read (d.state m) := by
  rw [(change_ok done).2.2]
  split
  · exact kept _
  · rfl

theorem real_of_known (numbered : d.stateCount ≤ maxStates) (known : target.toNat < d.stateCount) :
    target ≠ noTarget := by
  rintro rfl
  exact absurd known (Nat.not_lt_of_le numbered)

/-- Numbers that name no state lead nowhere. -/
theorem known_of_mem_targets (member : target ∈ (d.state n).targets) (real : target ≠ noTarget) :
    n.toNat < d.stateCount := by
  by_contra outside
  rw [state_of_ge (Nat.le_of_not_lt outside)] at member
  exact real (DraftState.targets_fresh member)

theorem target_known (sound : d.Sound) (member : target ∈ (d.state n).targets)
    (real : target ≠ noTarget) : target.toNat < d.stateCount := by
  have inside : n.toNat < d.states.size := known_of_mem_targets member real
  rw [state_of_lt inside] at member
  exact sound.closed _ (Array.getElem_mem inside) target member real

theorem known_of_next? (sound : d.Sound) (found : d.next? n unit = some target) :
    target.toNat < d.stateCount := by
  obtain ⟨member, real⟩ := DraftState.mem_targets_of_next? found
  exact target_known sound member real

theorem step?_single {c : Char} (units : Units.ofChar c = .single unit) : d.step? n c = d.next? n unit := by
  rw [step?, units]

theorem step?_pair {c : Char} {lead trail : UInt16} (units : Units.ofChar c = .pair lead trail) :
    d.step? n c = (d.next? n lead).bind fun middle => d.next? middle trail := by
  rw [step?, units]

theorem known_of_step? {c : Char} (sound : d.Sound) (found : d.step? n c = some target) :
    target.toNat < d.stateCount := by
  unfold step? at found
  split at found
  · exact known_of_next? sound found
  · obtain ⟨_, -, found⟩ := Option.bind_eq_some_iff.mp found
    exact known_of_next? sound found

theorem step?_of_isDeadEnd (dead : (d.state n).isDeadEnd = true) (c : Char) : d.step? n c = none := by
  have stuck (unit : UInt16) : d.next? n unit = none := DraftState.next?_of_isDeadEnd dead unit
  unfold step?
  split
  · exact stuck _
  · rw [stuck, Option.bind_none]

theorem toNat_ofNat_of_known (numbered : d.stateCount ≤ maxStates) {i : Nat} (inside : i < d.stateCount) :
    (UInt16.ofNat i).toNat = i :=
  UInt16.toNat_ofNat_of_lt' (Nat.lt_of_lt_of_le inside (Nat.le_trans numbered (by decide)))

theorem exists_state_of_mem (numbered : d.stateCount ≤ maxStates) {s : DraftState}
    (member : s ∈ d.states) : ∃ n, d.state n = s := by
  obtain ⟨i, inside, there⟩ := Array.mem_iff_getElem.mp member
  have number := toNat_ofNat_of_known numbered inside
  refine ⟨.ofNat i, ?_⟩
  rw [← there, state_of_lt (by rwa [number])]
  simp only [number]

theorem sound_of_regular (regular : d.Regular) : d.Sound := by
  refine ⟨regular.nonempty, regular.numbered, ?_⟩
  intro s member
  obtain ⟨n, rfl⟩ := exists_state_of_mem regular.numbered member
  exact regular.closed n

/-! ### Steps -/

theorem regular_empty : empty.Regular := by
  have fresh (n : UInt16) : empty.state n = .fresh none := by
    rcases Nat.eq_zero_or_pos n.toNat with zero | pos
    · rw [state, zero]
      rfl
    · exact state_of_ge pos
  refine ⟨by decide, by decide, fun n => ?_, fun n target member real => ?_⟩
  · rw [fresh n]
    exact DraftState.plain_fresh none
  · rw [fresh n] at member
    exact absurd (DraftState.targets_fresh member) real

theorem regular_of_change {f : DraftState → DraftState} (regular : d.Regular)
    (done : d.change n f = .ok d') (plain : (f (d.state n)).Plain)
    (closed : ∀ target ∈ (f (d.state n)).targets, target ≠ noTarget →
      target.toNat < d.stateCount) : d'.Regular := by
  obtain ⟨-, count, state⟩ := change_ok done
  refine ⟨?_, ?_, ?_, ?_⟩
  · rw [count]
    exact regular.nonempty
  · rw [count]
    exact regular.numbered
  · intro m
    rw [state]
    split
    · next same => rwa [same]
    · exact regular.plain m
  · intro m target member real
    rw [count]
    rw [state] at member
    split at member
    · next same => exact closed target (same ▸ member) real
    · exact regular.closed m target member real

structure Puts (d d' : Draft) (source unit target : UInt16) : Prop where
  regular : d'.Regular
  stateCount : d'.stateCount = d.stateCount
  terminal : ∀ n, (d'.state n).terminal? = (d.state n).terminal?
  next : ∀ n u, d'.next? n u = if n = source ∧ u = unit then some target else d.next? n u

theorem put_ok (regular : d.Regular) (known : target.toNat < d.stateCount)
    (free : unit.toNat < directCount ∨ d.next? source unit = none)
    (done : d.put source unit target = .ok d') : d.Puts d' source unit target := by
  obtain ⟨-, count, state⟩ := change_ok done
  have real := real_of_known regular.numbered known
  have plain := DraftState.plain_put (regular.plain source) real free
  refine ⟨regular_of_change regular done plain ?_, count, ?_, ?_⟩
  · intro other member other_real
    rcases DraftState.targets_put member with old | rfl
    · exact regular.closed source other old other_real
    · exact known
  · exact change_frame (·.terminal?) done fun _ => DraftState.terminal?_put
  · intro n u
    rw [next?, state]
    by_cases same : n = source
    · subst same
      rw [if_pos rfl, DraftState.next?_put (regular.plain n) real free]
      simp [next?]
    · rw [if_neg same, if_neg (fun both => same both.1)]
      rfl

theorem setTerminal_ok {terminal : UInt16} (regular : d.Regular)
    (done : d.setTerminal n terminal = .ok d') :
    d'.Regular ∧ d'.stateCount = d.stateCount ∧ (∀ m u, d'.next? m u = d.next? m u) ∧
      ∀ m, (d'.state m).terminal? =
        if m = n then (if terminal = noTerminal then none else some terminal)
        else (d.state m).terminal? := by
  obtain ⟨-, count, state⟩ := change_ok done
  have plain := regular.plain n
  refine ⟨regular_of_change regular done ⟨plain.each, plain.distinct⟩ (regular.closed n), count,
    ?_, ?_⟩
  · intro m u
    exact change_frame (·.next? u) done (fun _ => rfl) m
  · intro m
    rw [state]
    split
    · rfl
    · rfl

theorem addState_frame {terminal : Option UInt16} (done : d.addState terminal = .ok (n, d')) :
    d.stateCount < maxStates ∧ n.toNat = d.stateCount ∧ d'.stateCount = d.stateCount + 1 ∧
      ∀ m, d'.state m = if m = n then .fresh terminal else d.state m := by
  unfold addState at done
  split at done
  · next room =>
    cases done
    have number : (UInt16.ofNat d.stateCount).toNat = d.stateCount :=
      UInt16.toNat_ofNat_of_lt' (Nat.lt_trans room (by decide))
    refine ⟨room, number, Array.size_push _, ?_⟩
    intro m
    have same : m = .ofNat d.stateCount ↔ m.toNat = d.states.size := by
      rw [← UInt16.toNat_inj, number]
      rfl
    simp only [Draft.state, Array.getD_eq_getD_getElem?, Array.getElem?_push, same]
    split
    · rfl
    · rfl
  · contradiction

theorem addState_ok {terminal : Option UInt16} (regular : d.Regular)
    (done : d.addState terminal = .ok (n, d')) :
    n.toNat = d.stateCount ∧ d'.stateCount = d.stateCount + 1 ∧ d'.Regular ∧
      ∀ m, d'.state m = if m = n then .fresh terminal else d.state m := by
  obtain ⟨room, number, count, state⟩ := addState_frame done
  refine ⟨number, count, ⟨?_, ?_, ?_, ?_⟩, state⟩
  · rw [count]
    exact Nat.succ_pos _
  · rw [count]
    exact room
  · intro m
    rw [state]
    split
    · exact DraftState.plain_fresh terminal
    · exact regular.plain m
  · intro m target member real
    rw [count]
    rw [state] at member
    split at member
    · exact absurd (DraftState.targets_fresh member) real
    · exact Nat.lt_succ_of_lt (regular.closed m target member real)

theorem next?_addState {terminal : Option UInt16} (done : d.addState terminal = .ok (n, d')) :
    (∀ unit, d.next? n unit = none) ∧ ∀ m unit, d'.next? m unit = d.next? m unit := by
  obtain ⟨-, number, -, state⟩ := addState_frame done
  have fresh (unit : UInt16) : d.next? n unit = none := by
    rw [next?, state_of_ge (Nat.le_of_eq number.symm)]
    exact DraftState.next?_fresh none unit
  refine ⟨fresh, ?_⟩
  intro m unit
  rw [next?, state]
  split
  · next same =>
    rw [same, fresh]
    exact DraftState.next?_fresh terminal unit
  · rfl

/-! ### Bytes and characters -/

theorem toNat_ofNat_byte (value : UInt8) : (UInt16.ofNat value.toNat).toNat = value.toNat := by
  have bound := value.toNat_lt
  exact UInt16.toNat_ofNat_of_lt' (show _ < 65536 by omega)

theorem onByte_eq (d : Draft) (source : UInt16) (value : UInt8) (target : UInt16) :
    d.onByte source value target = d.put source (.ofNat value.toNat) target := by
  refine congrArg (d.change source) (funext ?_)
  intro s
  have low : (UInt16.ofNat value.toNat).toNat < directCount :=
    (toNat_ofNat_byte value).trans_lt value.toNat_lt
  rw [DraftState.put, dif_pos low]
  simp only [toNat_ofNat_byte]

theorem onRange_eq (above : directCount ≤ unit.toNat) :
    d.onRange source unit unit target = d.put source unit target := by
  refine (if_pos ⟨above, UInt16.le_refl _⟩).trans ?_
  refine congrArg (d.change source) (funext ?_)
  intro s
  rw [DraftState.put, dif_neg (Nat.not_lt_of_le above)]

theorem onChar_single {c : Char} (units : Units.ofChar c = .single unit) :
    d.onChar source c target = d.put source unit target := by
  rw [onChar, units]
  change (if unit.toNat < directCount then _ else _) = _
  split
  · next low =>
    have index : (UInt8.ofNat unit.toNat).toNat = unit.toNat := UInt8.toNat_ofNat_of_lt' low
    rw [onByte_eq, index, UInt16.ofNat_toNat]
  · next above => exact onRange_eq (Nat.le_of_not_lt above)

/-- On a surrogate pair, the hidden state of the lead is taken or made. -/
theorem onChar_pair_ok {c : Char} {lead trail : UInt16} (regular : d.Regular)
    (units : Units.ofChar c = .pair lead trail) (done : d.onChar source c target = .ok d') :
    (∃ middle, d.next? source lead = some middle ∧ d.put middle trail target = .ok d') ∨
      (d.next? source lead = none ∧ ∃ middle d₁ d₂, d.addState none = .ok (middle, d₁) ∧
        d₁.put source lead middle = .ok d₂ ∧ d₂.put middle trail target = .ok d') := by
  obtain ⟨⟨high, -⟩, ⟨higher, -⟩, -⟩ := Units.of_pair units
  have lead_above : directCount ≤ lead.toNat := Nat.le_trans (by decide) high
  have trail_above : directCount ≤ trail.toNat := Nat.le_trans (by decide) higher
  rw [onChar, units] at done
  obtain ⟨s, found, done⟩ := bind_eq_ok.mp done
  obtain ⟨inside, there⟩ := Array.getElem?_eq_some_iff.mp (inBounds_eq_ok.mp found)
  have state : d.state source = s := (state_of_lt inside).trans there
  have lone : s.lone? lead = d.next? source lead := by
    rw [next?, state, DraftState.lone?_eq (state ▸ regular.plain source) lead_above]
  split at done
  · next middle shared =>
    rw [onRange_eq trail_above] at done
    exact .inl ⟨middle, lone.symm.trans shared, done⟩
  · next absent =>
    obtain ⟨⟨middle, d₁⟩, added, done⟩ := bind_eq_ok.mp done
    obtain ⟨d₂, led, done⟩ := bind_eq_ok.mp done
    rw [onRange_eq lead_above] at led
    rw [onRange_eq trail_above] at done
    exact .inr ⟨lone.symm.trans absent, middle, d₁, d₂, added, led, done⟩

/-! ### Decoded -/

section

variable {a : Automaton} (same : a.table = d.table)
include same

theorem stateCount_decoded : a.stateCount = d.stateCount := by
  rw [← d.stateCount_table, ← same]

theorem decoded_state? (known : n.toNat < d.stateCount) :
    ∃ s : a.State, a.state? n.toNat = some s ∧ s.val = n.toNat := by
  have inside : n.toNat < a.stateCount := Nat.lt_of_lt_of_eq known (stateCount_decoded same).symm
  exact ⟨⟨n.toNat, inside⟩, dif_pos inside, rfl⟩

variable (small : d.table.cells.size < UInt32.size) {s : a.State} (place : s.val = n.toNat)
include small place

theorem decoded_holds : a.table.Holds (a.start s) (d.state n) := by
  have inside : n.toNat < d.states.size := by
    rw [← place]
    exact Nat.lt_of_lt_of_eq s.isLt (stateCount_decoded same)
  apply holds_state same small s
  rw [place, state_of_lt inside]
  exact Array.getElem?_eq_getElem inside

theorem decoded_next?_counted (unit : UInt16) :
    a.next? s unit = ((d.state n).counted.next? unit).bind fun q => a.state? q.toNat := by
  have holds := decoded_holds same small place
  rw [Automaton.next?, DraftState.next?]
  split
  · exact Automaton.direct?_eq holds _
  · exact Automaton.range?_eq_counted holds unit

theorem decoded_next? (few : (d.state n).ranges.size < UInt16.size) (unit : UInt16) :
    a.next? s unit = (d.next? n unit).bind fun q => a.state? q.toNat := by
  rw [decoded_next?_counted same small place, DraftState.counted_of_few few]
  rfl

theorem decoded_range? (few : (d.state n).ranges.size < UInt16.size) (above : directCount ≤ unit.toNat) :
    a.range? s unit = (d.next? n unit).bind fun q => a.state? q.toNat := by
  rw [← decoded_next? same small place few unit, Automaton.next?, if_neg (Nat.not_lt_of_le above)]

theorem decoded_step? (few : ∀ m, (d.state m).ranges.size < UInt16.size) (sound : d.Sound) (c : Char) :
    a.step? s c = (d.step? n c).bind fun q => a.state? q.toNat := by
  rw [Automaton.step?, step?]
  cases units : Units.ofChar c with
  | single unit => exact decoded_next? same small place (few n) unit
  | pair lead trail =>
    obtain ⟨⟨high, -⟩, ⟨higher, -⟩, -⟩ := Units.of_pair units
    have lead_above : directCount ≤ lead.toNat := Nat.le_trans (by decide) high
    have trail_above : directCount ≤ trail.toNat := Nat.le_trans (by decide) higher
    change ((a.range? s lead).bind fun middle => a.range? middle trail) =
      ((d.next? n lead).bind fun middle => d.next? middle trail).bind _
    rw [decoded_range? same small place (few n) lead_above, Option.bind_assoc, Option.bind_assoc]
    apply Option.bind_congr
    intro middle found
    obtain ⟨s', there, place'⟩ := decoded_state? same (known_of_next? sound found)
    rw [there, Option.bind_some, decoded_range? same small place' (few middle) trail_above]

end

end Draft

end ParseKit
