import ParseKit.Proofs.Automaton.Drafting

/-!
# What a draft was given

A `Journal` keeps what the calls on a draft were given: for each state its terminals and direct targets,
of which the last ones count, and its ranges in the order in which they were drafted. The automaton that
is decoded from the draft answers as the journal does: `decode_reads_journal`.
-/

namespace ParseKit

/-! ### Calls -/

inductive DraftOp where
  | addState (terminal : Option UInt16)
  | setTerminal (state terminal : UInt16)
  | onByte (source : UInt16) (value : UInt8) (target : UInt16)
  | onBytes (source : UInt16) (values : List UInt8) (target : UInt16)
  | onRange (source low high target : UInt16)
  | onChar (source : UInt16) (c : Char) (target : UInt16)
deriving DecidableEq

def DraftOp.target? : DraftOp → Option UInt16
  | .addState _ => none
  | .setTerminal _ _ => none
  | .onByte _ _ target => some target
  | .onBytes _ _ target => some target
  | .onRange _ _ _ target => some target
  | .onChar _ _ target => some target

theorem DraftOp.targets_lt {ops : List DraftOp} {count : Nat}
    (check : ops.all (fun op => op.target?.all fun target => target.toNat < count) = true) :
    ∀ op ∈ ops, ∀ target, op.target? = some target → target.toNat < count := by
  intro op member target named
  have known := List.all_eq_true.mp check op member
  rw [named] at known
  exact of_decide_eq_true known

namespace Draft

def apply (d : Draft) : DraftOp → Except Violation Draft
  | .addState terminal => (d.addState terminal).map Prod.snd
  | .setTerminal state terminal => d.setTerminal state terminal
  | .onByte source value target => d.onByte source value target
  | .onBytes source values target => d.onBytes source values target
  | .onRange source low high target => d.onRange source low high target
  | .onChar source c target => d.onChar source c target

/-- The draft that a list of calls makes, if no call is refused. -/
def build (ops : List DraftOp) : Except Violation Draft := ops.foldlM apply empty

end Draft

/-! ### Journals -/

/-- Terminals and direct targets stand latest first, ranges earliest first, each with its state. -/
structure Journal where
  stateCount : Nat
  terminals : List (UInt16 × UInt16)
  direct : List ((UInt16 × UInt8) × UInt16)
  ranges : List (UInt16 × DraftRange)
deriving DecidableEq

namespace Journal

def initial : Journal := ⟨1, [], [], []⟩

def nextState (j : Journal) : UInt16 := .ofNat j.stateCount

/-! Entries -/

def addState (j : Journal) (terminal : Option UInt16) : Journal :=
  { j with
    stateCount := j.stateCount + 1
    terminals := terminal.toList.map (fun t => (j.nextState, t)) ++ j.terminals }

def setTerminal (j : Journal) (state terminal : UInt16) : Journal :=
  { j with terminals := (state, terminal) :: j.terminals }

def setDirect (j : Journal) (source : UInt16) (value : UInt8) (target : UInt16) : Journal :=
  { j with direct := ((source, value), target) :: j.direct }

def addRange (j : Journal) (source : UInt16) (range : DraftRange) : Journal :=
  { j with ranges := j.ranges ++ [(source, range)] }

/-! Look-ups -/

/-- The last terminal that the state was given. -/
def terminal? (j : Journal) (n : UInt16) : Option UInt16 :=
  (j.terminals.lookup n).bind fun t => if t = noTerminal then none else some t

/-- The last target that the state was given for the value. -/
def direct? (j : Journal) (n : UInt16) (value : UInt8) : Option UInt16 :=
  (j.direct.lookup (n, value)).bind named?

def rangesOf (j : Journal) (n : UInt16) : List DraftRange :=
  (j.ranges.filter (·.1 == n)).map Prod.snd

/-- The target of the earliest range of the state that holds the value. -/
def range? (j : Journal) (n value : UInt16) : Option UInt16 :=
  ((j.rangesOf n).find? (·.covers value)).bind fun r => named? r.target

def lone? (j : Journal) (n value : UInt16) : Option UInt16 :=
  ((j.rangesOf n).find? fun r => r.low == value && r.high == value).map (·.target)

/-- Every target in force is a state that there is. -/
structure Closed (j : Journal) : Prop where
  direct : ∀ n value target, j.direct? n value = some target → target.toNat < j.stateCount
  ranges : ∀ e ∈ j.ranges, e.2.target ≠ noTarget → e.2.target.toNat < j.stateCount

/-- Every target that was ever given is the number of one of `count` states. -/
structure Within (j : Journal) (count : Nat) : Prop where
  direct : ∀ e ∈ j.direct, e.2.toNat < count
  ranges : ∀ e ∈ j.ranges, e.2.target.toNat < count

/-! Calls -/

/-- A pair of surrogates goes through the state that the lead alone leads to, or through a new one. -/
def addChar (j : Journal) (source : UInt16) (c : Char) (target : UInt16) : Journal :=
  match Units.ofChar c with
  | .single unit =>
    if unit.toNat < directCount then j.setDirect source (.ofNat unit.toNat) target
    else j.addRange source ⟨unit, unit, target⟩
  | .pair lead trail =>
    match j.lone? source lead with
    | some middle => j.addRange middle ⟨trail, trail, target⟩
    | none =>
      ((j.addState none).addRange source ⟨lead, lead, j.nextState⟩).addRange j.nextState
        ⟨trail, trail, target⟩

def record (j : Journal) : DraftOp → Journal
  | .addState terminal => j.addState terminal
  | .setTerminal state terminal => j.setTerminal state terminal
  | .onByte source value target => j.setDirect source value target
  | .onBytes source values target => values.foldl (fun j value => j.setDirect source value target) j
  | .onRange source low high target => j.addRange source ⟨low, high, target⟩
  | .onChar source c target => j.addChar source c target

def ofOps (ops : List DraftOp) : Journal := ops.foldl record initial

theorem rangesOf_addRange (j : Journal) (source : UInt16) (range : DraftRange) (n : UInt16) :
    (j.addRange source range).rangesOf n =
      if n = source then j.rangesOf n ++ [range] else j.rangesOf n := by
  rw [rangesOf, addRange, List.filter_append, List.map_append]
  split
  · next same =>
    subst same
    simp [rangesOf]
  · next other =>
    simp [rangesOf, Ne.symm other]

theorem mem_rangesOf {j : Journal} {n : UInt16} {r : DraftRange} :
    r ∈ j.rangesOf n ↔ (n, r) ∈ j.ranges := by
  simp [rangesOf]

theorem length_rangesOf_addRange_le (j : Journal) (source : UInt16) (range : DraftRange) (n : UInt16) :
    ((j.addRange source range).rangesOf n).length ≤ (j.rangesOf n).length + 1 := by
  rw [rangesOf_addRange]
  split
  · rw [List.length_append]
    exact Nat.le_refl _
  · exact Nat.le_succ _

theorem length_rangesOf_addChar_le (j : Journal) (source : UInt16) (c : Char) (target n : UInt16) :
    ((j.addChar source c target).rangesOf n).length ≤ (j.rangesOf n).length + 2 := by
  unfold addChar
  split
  · split
    · exact Nat.le_add_right _ _
    · exact Nat.le_succ_of_le (length_rangesOf_addRange_le _ _ _ _)
  · split
    · exact Nat.le_succ_of_le (length_rangesOf_addRange_le _ _ _ _)
    · refine Nat.le_trans (length_rangesOf_addRange_le _ _ _ _) (Nat.succ_le_succ ?_)
      exact length_rangesOf_addRange_le _ _ _ _

theorem length_rangesOf_le (j : Journal) (n : UInt16) : (j.rangesOf n).length ≤ j.ranges.length := by
  rw [rangesOf, List.length_map]
  exact List.length_filter_le _ _

/-! ### Targets -/

section

variable {j : Journal} {count : Nat}

theorem closed_of_within (within : j.Within j.stateCount) : j.Closed := by
  refine ⟨?_, fun e member _ => within.ranges e member⟩
  intro n value target found
  obtain ⟨cell, last, named⟩ := Option.bind_eq_some_iff.mp found
  obtain ⟨rfl, -⟩ := named?_eq_some_iff.mp named
  obtain ⟨before, after, entries, -⟩ := List.lookup_eq_some_iff.mp last
  apply within.direct ((n, value), cell)
  rw [entries]
  exact List.mem_append_right _ List.mem_cons_self

theorem within_setDirect (within : j.Within count) {source target : UInt16} {value : UInt8}
    (known : target.toNat < count) : (j.setDirect source value target).Within count := by
  refine ⟨?_, within.ranges⟩
  intro e member
  rcases List.mem_cons.mp member with rfl | old
  · exact known
  · exact within.direct e old

theorem within_addRange (within : j.Within count) {source : UInt16} {range : DraftRange}
    (known : range.target.toNat < count) : (j.addRange source range).Within count := by
  refine ⟨within.direct, ?_⟩
  intro e member
  rcases List.mem_append.mp member with old | new
  · exact within.ranges e old
  · obtain rfl := List.mem_singleton.mp new
    exact known

theorem within_setDirects (within : j.Within count) {source target : UInt16} (values : List UInt8)
    (known : target.toNat < count) :
    (values.foldl (fun j value => j.setDirect source value target) j).Within count := by
  induction values generalizing j with
  | nil => exact within
  | cons value rest ih => exact ih (within_setDirect within known)

theorem stateCount_setDirects (j : Journal) (source target : UInt16) (values : List UInt8) :
    (values.foldl (fun j value => j.setDirect source value target) j).stateCount = j.stateCount := by
  induction values generalizing j with
  | nil => rfl
  | cons value rest ih => exact ih (j.setDirect source value target)

theorem stateCount_le_record (j : Journal) (op : DraftOp) : j.stateCount ≤ (j.record op).stateCount := by
  cases op with
  | addState terminal => exact Nat.le_succ _
  | onBytes source values target => exact Nat.le_of_eq (j.stateCount_setDirects source target values).symm
  | onChar source c target =>
    rw [record, addChar]
    split
    · split
      · exact Nat.le_refl _
      · exact Nat.le_refl _
    · split
      · exact Nat.le_refl _
      · exact Nat.le_succ _
  | _ => exact Nat.le_refl _

/-- The states that a call makes for itself are there when it is done. -/
theorem within_record {op : DraftOp} (within : j.Within count)
    (known : ∀ target, op.target? = some target → target.toNat < count)
    (enough : (j.record op).stateCount ≤ count) : (j.record op).Within count := by
  cases op with
  | addState terminal => exact ⟨within.direct, within.ranges⟩
  | setTerminal state terminal => exact ⟨within.direct, within.ranges⟩
  | onByte source value target => exact within_setDirect within (known target rfl)
  | onBytes source values target => exact within_setDirects within values (known target rfl)
  | onRange source low high target => exact within_addRange within (known target rfl)
  | onChar source c target =>
    have known := known target rfl
    revert enough
    rw [record, addChar]
    split
    · intro _
      split
      · exact within_setDirect within known
      · exact within_addRange within known
    · split
      · intro _
        exact within_addRange within known
      · intro enough
        have middle : j.nextState.toNat < count := by
          refine Nat.lt_of_lt_of_le (Nat.lt_succ_of_le ?_) enough
          exact (UInt16.toNat_ofNat' (n := j.stateCount)).trans_le (Nat.mod_le _ _)
        have grown : (j.addState none).Within count := ⟨within.direct, within.ranges⟩
        exact within_addRange (within_addRange grown middle) known

theorem stateCount_le_foldl (ops : List DraftOp) (j : Journal) :
    j.stateCount ≤ (ops.foldl record j).stateCount := by
  induction ops generalizing j with
  | nil => exact Nat.le_refl _
  | cons op rest ih => exact Nat.le_trans (j.stateCount_le_record op) (ih (j.record op))

theorem within_foldl {ops : List DraftOp} (within : j.Within count)
    (known : ∀ op ∈ ops, ∀ target, op.target? = some target → target.toNat < count)
    (enough : (ops.foldl record j).stateCount ≤ count) : (ops.foldl record j).Within count := by
  induction ops generalizing j with
  | nil => exact within
  | cons op rest ih =>
    have first := within_record within (known op List.mem_cons_self)
      (Nat.le_trans (stateCount_le_foldl rest (j.record op)) enough)
    exact ih first (fun op' member => known op' (List.mem_cons_of_mem _ member)) enough

end

theorem within_ofOps {ops : List DraftOp}
    (known : ∀ op ∈ ops, ∀ target, op.target? = some target →
      target.toNat < (ofOps ops).stateCount) : (ofOps ops).Within (ofOps ops).stateCount :=
  within_foldl ⟨fun _ member => (nomatch member), fun _ member => (nomatch member)⟩ known (Nat.le_refl _)

end Journal

/-! ### Drafts and their journals -/

namespace DraftState

variable {s : DraftState} {target : UInt16}

theorem direct?_fresh (terminal : Option UInt16) (value : UInt8) :
    (fresh terminal).direct? value = none := by
  simp [direct?, fresh, named?]

theorem direct?_set (s : DraftState) (value other : UInt8) (target : UInt16) :
    { s with direct := s.direct.set value.toNat target value.toNat_lt }.direct? other =
      if other = value then named? target else s.direct? other := by
  unfold direct?
  by_cases same : other = value
  · subst same
    rw [if_pos rfl]
    exact congrArg named? (Vector.getElem_set_self _)
  · rw [if_neg same]
    exact congrArg named?
      (Vector.getElem_set_ne value.toNat_lt other.toNat_lt fun h => same (UInt8.toNat_inj.mp h.symm))

theorem mem_direct_iff (real : target ≠ noTarget) :
    target ∈ s.direct ↔ ∃ value, s.direct? value = some target := by
  constructor
  · intro member
    obtain ⟨i, inside, rfl⟩ := Vector.mem_iff_getElem.mp member
    have index : (UInt8.ofNat i).toNat = i := UInt8.toNat_ofNat_of_lt' inside
    refine ⟨.ofNat i, named?_eq_some_iff.mpr ⟨?_, real⟩⟩
    simp only [index]
  · rintro ⟨value, found⟩
    obtain ⟨rfl, -⟩ := named?_eq_some_iff.mp found
    exact Vector.getElem_mem _

/-- A state is a dead end if it has neither a direct transition nor a range. -/
theorem isDeadEnd_iff_direct? :
    s.isDeadEnd = true ↔ (∀ value, s.direct? value = none) ∧ s.ranges.toList = [] := by
  rw [isDeadEnd_iff, Array.toList_eq_nil_iff]
  refine and_congr_left fun _ => ⟨?_, ?_⟩
  · intro unset value
    exact if_pos (unset _ (Vector.getElem_mem _))
  · intro silent target member
    by_contra real
    obtain ⟨value, found⟩ := (mem_direct_iff real).mp member
    rw [silent value] at found
    contradiction

end DraftState

namespace Draft

structure Records (d : Draft) (j : Journal) : Prop where
  nonempty : 0 < d.stateCount
  numbered : d.stateCount ≤ maxStates
  stateCount : d.stateCount = j.stateCount
  terminal : ∀ n, (d.state n).terminal? = j.terminal? n
  direct : ∀ n value, (d.state n).direct? value = j.direct? n value
  ranges : ∀ n, (d.state n).ranges.toList = j.rangesOf n

variable {d d' : Draft} {j : Journal}

theorem records_foldlM {α : Type} {call : Draft → α → Except Violation Draft}
    {note : Journal → α → Journal} {xs : List α} (h : d.Records j)
    (done : xs.foldlM call d = .ok d')
    (kept : ∀ (d d' : Draft) (j : Journal) (x : α), d.Records j → call d x = .ok d' →
      d'.Records (note j x)) :
    d'.Records (xs.foldl note j) := by
  induction xs generalizing d j with
  | nil =>
    obtain rfl := pure_eq_ok.mp done
    exact h
  | cons x rest ih =>
    obtain ⟨d₁, first, done⟩ := bind_eq_ok.mp done
    exact ih (kept d d₁ j x h first) done

theorem records_empty : empty.Records .initial := by
  have fresh (n : UInt16) : empty.state n = .fresh none := by
    rcases Nat.eq_zero_or_pos n.toNat with zero | pos
    · rw [state, zero]
      rfl
    · exact state_of_ge pos
  refine ⟨by decide, by decide, rfl, ?_, ?_, ?_⟩
  · intro n
    rw [fresh]
    rfl
  · intro n value
    rw [fresh, DraftState.direct?_fresh]
    rfl
  · intro n
    rw [fresh]
    rfl

theorem records_addState {terminal : Option UInt16} {n : UInt16} (h : d.Records j)
    (done : d.addState terminal = .ok (n, d')) :
    n = j.nextState ∧ d'.Records (j.addState terminal) := by
  obtain ⟨room, number, count, state⟩ := addState_frame done
  have name : n = j.nextState := by
    rw [Journal.nextState, ← h.stateCount, ← number, UInt16.ofNat_toNat]
  -- Nothing was given to the state before there was one.
  have unknown : d.state n = .fresh none := state_of_ge (Nat.le_of_eq number.symm)
  refine ⟨name, ?_, ?_, ?_, ?_, ?_, ?_⟩
  · omega
  · omega
  · rw [count, h.stateCount]
    rfl
  · intro m
    rw [state, Journal.terminal?, Journal.addState, ← name, List.lookup_append]
    split
    · next same =>
      subst same
      have unset : j.terminal? m = none := by
        rw [← h.terminal, unknown]
        rfl
      rw [DraftState.terminal?_fresh]
      cases terminal with
      | none => exact unset.symm
      | some t => simp
    · next other =>
      have elsewhere : (terminal.toList.map fun t => (n, t)).lookup m = none := by
        cases terminal <;> simp [beq_eq_false_iff_ne.mpr other]
      rw [elsewhere, Option.none_or]
      exact h.terminal m
  · intro m value
    rw [state]
    split
    · next same =>
      rw [DraftState.direct?_fresh, same]
      exact (DraftState.direct?_fresh none value).symm.trans (unknown ▸ h.direct n value)
    · exact h.direct m value
  · intro m
    rw [state]
    split
    · next same =>
      rw [same]
      exact (unknown ▸ h.ranges n : (DraftState.fresh none).ranges.toList = j.rangesOf n)
    · exact h.ranges m

theorem records_setTerminal {n terminal : UInt16} (h : d.Records j)
    (done : d.setTerminal n terminal = .ok d') : d'.Records (j.setTerminal n terminal) := by
  obtain ⟨-, count, state⟩ := change_ok done
  refine ⟨count ▸ h.nonempty, count ▸ h.numbered, count ▸ h.stateCount, ?_, ?_, ?_⟩
  · intro m
    rw [state, Journal.terminal?, Journal.setTerminal, List.lookup_cons]
    by_cases same : m = n
    · rw [if_pos same, same, beq_self_eq_true]
      rfl
    · rw [if_neg same, beq_eq_false_iff_ne.mpr same]
      exact h.terminal m
  · intro m value
    exact (change_frame (·.direct? value) done (fun _ => rfl) m).trans (h.direct m value)
  · intro m
    exact (change_frame (·.ranges.toList) done (fun _ => rfl) m).trans (h.ranges m)

theorem records_onByte {source target : UInt16} {value : UInt8} (h : d.Records j)
    (done : d.onByte source value target = .ok d') :
    d'.Records (j.setDirect source value target) := by
  obtain ⟨-, count, state⟩ := change_ok done
  refine ⟨count ▸ h.nonempty, count ▸ h.numbered, count ▸ h.stateCount, ?_, ?_, ?_⟩
  · intro m
    exact (change_frame (·.terminal?) done (fun _ => rfl) m).trans (h.terminal m)
  · intro m other
    rw [state, Journal.direct?, Journal.setDirect, List.lookup_cons]
    by_cases same : m = source ∧ other = value
    · obtain ⟨rfl, rfl⟩ := same
      rw [if_pos rfl, DraftState.direct?_set, if_pos rfl, beq_self_eq_true]
      rfl
    · have key : ((m, other) == (source, value)) = false :=
        beq_eq_false_iff_ne.mpr fun h => same (Prod.mk.inj h)
      rw [key]
      split
      · next here =>
        rw [DraftState.direct?_set, if_neg fun there => same ⟨here, there⟩]
        exact h.direct m other
      · exact h.direct m other
  · intro m
    exact (change_frame (·.ranges.toList) done (fun _ => rfl) m).trans (h.ranges m)

theorem records_onBytes {source target : UInt16} {values : List UInt8} (h : d.Records j)
    (done : d.onBytes source values target = .ok d') :
    d'.Records (values.foldl (fun j value => j.setDirect source value target) j) :=
  records_foldlM h done fun _ _ _ _ => records_onByte

theorem change_of_onRange {source low high target : UInt16}
    (done : d.onRange source low high target = .ok d') :
    (directCount ≤ low.toNat ∧ low ≤ high) ∧
      d.change source (fun s => { s with ranges := s.ranges.push ⟨low, high, target⟩ }) = .ok d' := by
  unfold onRange at done
  split at done
  · next bounds => exact ⟨bounds, done⟩
  · contradiction

theorem onRange_ok {source low high target : UInt16} (done : d.onRange source low high target = .ok d') :
    (directCount ≤ low.toNat ∧ low ≤ high) ∧ source.toNat < d.stateCount ∧
      d'.stateCount = d.stateCount ∧
      ∀ m, d'.state m = if m = source then
        { d.state m with ranges := (d.state m).ranges.push ⟨low, high, target⟩ } else d.state m := by
  obtain ⟨bounds, changed⟩ := change_of_onRange done
  exact ⟨bounds, change_ok changed⟩

theorem records_onRange {source low high target : UInt16} (h : d.Records j)
    (done : d.onRange source low high target = .ok d') :
    d'.Records (j.addRange source ⟨low, high, target⟩) := by
  obtain ⟨-, changed⟩ := change_of_onRange done
  obtain ⟨-, count, state⟩ := change_ok changed
  refine ⟨count ▸ h.nonempty, count ▸ h.numbered, count ▸ h.stateCount, ?_, ?_, ?_⟩
  · intro m
    exact (change_frame (·.terminal?) changed (fun _ => rfl) m).trans (h.terminal m)
  · intro m value
    exact (change_frame (·.direct? value) changed (fun _ => rfl) m).trans (h.direct m value)
  · intro m
    rw [state, Journal.rangesOf_addRange, ← h.ranges]
    split
    · exact Array.toList_push
    · rfl

/-- The two ways of a pair: through the state behind the lead, or through a new one. -/
theorem onChar_pair_cases {source target lead trail : UInt16} {c : Char}
    (units : Units.ofChar c = .pair lead trail) (done : d.onChar source c target = .ok d') :
    source.toNat < d.stateCount ∧
    ((∃ middle, (d.state source).lone? lead = some middle ∧
        d.onRange middle trail trail target = .ok d') ∨
      ((d.state source).lone? lead = none ∧ ∃ middle d₁ d₂, d.addState none = .ok (middle, d₁) ∧
        d₁.onRange source lead lead middle = .ok d₂ ∧ d₂.onRange middle trail trail target = .ok d')) := by
  rw [onChar, units] at done
  obtain ⟨s, found, done⟩ := bind_eq_ok.mp done
  obtain ⟨inside, there⟩ := Array.getElem?_eq_some_iff.mp (inBounds_eq_ok.mp found)
  refine ⟨inside, ?_⟩
  rw [(state_of_lt inside).trans there]
  split at done
  · next middle shared => exact .inl ⟨middle, shared, done⟩
  · next absent =>
    obtain ⟨⟨middle, d₁⟩, added, done⟩ := bind_eq_ok.mp done
    obtain ⟨d₂, led, done⟩ := bind_eq_ok.mp done
    exact .inr ⟨absent, middle, d₁, d₂, added, led, done⟩

theorem lone?_of_records (h : d.Records j) (n value : UInt16) :
    (d.state n).lone? value = j.lone? n value := by
  rw [DraftState.lone?, Journal.lone?, ← Array.find?_toList, h.ranges]

theorem records_onChar {source target : UInt16} {c : Char} (h : d.Records j)
    (done : d.onChar source c target = .ok d') : d'.Records (j.addChar source c target) := by
  unfold Journal.addChar
  cases units : Units.ofChar c with
  | single unit =>
    rw [onChar, units] at done
    dsimp only at done ⊢
    split at done
    · next low =>
      rw [if_pos low]
      exact records_onByte h done
    · next high =>
      rw [if_neg high]
      exact records_onRange h done
  | pair lead trail =>
    dsimp only
    rw [← lone?_of_records h]
    rcases (onChar_pair_cases units done).2 with
      ⟨middle, shared, done⟩ | ⟨absent, middle, d₁, d₂, added, led, done⟩
    · rw [shared]
      exact records_onRange h done
    · rw [absent]
      obtain ⟨rfl, h₁⟩ := records_addState h added
      exact records_onRange (records_onRange h₁ led) done

theorem records_apply {op : DraftOp} (h : d.Records j) (done : d.apply op = .ok d') :
    d'.Records (j.record op) := by
  cases op with
  | addState terminal =>
    obtain ⟨⟨n, d₁⟩, added, rfl⟩ := map_eq_ok.mp done
    exact (records_addState h added).2
  | setTerminal state terminal => exact records_setTerminal h done
  | onByte source value target => exact records_onByte h done
  | onBytes source values target => exact records_onBytes h done
  | onRange source low high target => exact records_onRange h done
  | onChar source c target => exact records_onChar h done

theorem records_build {ops : List DraftOp} (built : build ops = .ok d) : d.Records (.ofOps ops) :=
  records_foldlM records_empty built fun _ _ _ _ => records_apply

end Draft

/-! ### What is decoded -/

theorem Automaton.map_val_bind_state? {a : Automaton} {target? : Option UInt16}
    (known : ∀ target, target? = some target → target.toNat < a.stateCount) :
    (target?.bind fun n => a.state? n.toNat).map Fin.val = target?.map UInt16.toNat := by
  cases target? with
  | none => rfl
  | some target =>
    have inside : target.toNat < a.stateCount := known target rfl
    rw [Option.bind_some, Automaton.state?, dif_pos inside]
    rfl

/-- Every look-up in the automaton gives what the journal says. -/
structure Automaton.AnswersAs (a : Automaton) (j : Journal) : Prop where
  stateCount : a.stateCount = j.stateCount
  terminal : ∀ s : a.State, a.terminal? s = j.terminal? (.ofNat s)
  direct : ∀ (s : a.State) value,
    (a.direct? s value).map Fin.val = (j.direct? (.ofNat s) value).map UInt16.toNat
  range : ∀ (s : a.State) value,
    (a.range? s value).map Fin.val = (j.range? (.ofNat s) value).map UInt16.toNat
  rangeCount : ∀ s : a.State, a.rangeCount s = (j.rangesOf (.ofNat s)).length
  deadEnd : ∀ s : a.State, a.isDeadEnd s = true ↔
    (∀ value, j.direct? (.ofNat s) value = none) ∧ j.rangesOf (.ofNat s) = []

namespace Draft

variable {d : Draft} {j : Journal} {n target : UInt16}

theorem range?_of_records (h : d.Records j) (value : UInt16) :
    (d.state n).range? value = j.range? n value := by
  rw [DraftState.range?, Journal.range?, h.ranges]

/-- The targets in force are the same in a draft and in its journal. -/
theorem closed_iff (h : d.Records j) :
    j.Closed ↔
      ∀ n, ∀ target ∈ (d.state n).targets, target ≠ noTarget → target.toNat < d.stateCount := by
  constructor
  · intro closed n target member real
    rw [h.stateCount]
    rcases List.mem_append.mp member with direct | range
    · obtain ⟨value, found⟩ := (DraftState.mem_direct_iff real).mp (Vector.mem_toList_iff.mp direct)
      exact closed.direct n value target ((h.direct n value).symm.trans found)
    · obtain ⟨r, drafted, rfl⟩ := List.mem_map.mp range
      rw [h.ranges] at drafted
      exact closed.ranges (n, r) (Journal.mem_rangesOf.mp drafted) real
  · intro closed
    refine ⟨?_, ?_⟩
    · intro n value target found
      obtain ⟨_, -, cell⟩ := Option.bind_eq_some_iff.mp found
      obtain ⟨-, real⟩ := named?_eq_some_iff.mp cell
      have drafted := (DraftState.mem_direct_iff real).mpr ⟨value, (h.direct n value).trans found⟩
      rw [← h.stateCount]
      exact closed n target (List.mem_append_left _ (Vector.mem_toList_iff.mpr drafted)) real
    · intro e member real
      have drafted : e.2 ∈ (d.state e.1).ranges.toList := by
        rw [h.ranges]
        exact Journal.mem_rangesOf.mpr member
      rw [← h.stateCount]
      exact closed e.1 e.2.target (List.mem_append_right _ (List.mem_map_of_mem drafted)) real

theorem sound_of_records (h : d.Records j) (closed : j.Closed) : d.Sound := by
  refine ⟨h.nonempty, h.numbered, ?_⟩
  intro s member
  obtain ⟨n, rfl⟩ := exists_state_of_mem h.numbered member
  exact (closed_iff h).mp closed n

section

variable {a : Automaton} (same : a.table = d.table) (small : d.table.cells.size < UInt32.size)
  (h : d.Records j) (few : ∀ n, (d.state n).ranges.size < UInt16.size)
include same small h few

theorem closed_of_decoded : j.Closed := by
  refine (closed_iff h).mpr ?_
  intro n target member real
  obtain ⟨s, -, place⟩ := decoded_state? same (known_of_mem_targets member real)
  rw [← stateCount_decoded same]
  apply a.closed s target _ real
  change target ∈ a.table.targets (a.start s)
  rw [CellTable.targets_eq (decoded_holds same small place), DraftState.counted_of_few (few n)]
  exact member

theorem answersAs_of_decoded (closed : j.Closed) : a.AnswersAs j := by
  have count : a.stateCount = j.stateCount := (stateCount_decoded same).trans h.stateCount
  have place (s : a.State) : s.val = (UInt16.ofNat s.val).toNat := by
    have inside : s.val < d.stateCount := Nat.lt_of_lt_of_eq s.isLt (stateCount_decoded same)
    exact (toNat_ofNat_of_known h.numbered inside).symm
  have holds (s : a.State) := decoded_holds same small (place s)
  refine ⟨count, ?_, ?_, ?_, ?_, ?_⟩
  · intro s
    rw [Automaton.terminal?_eq (holds s), h.terminal]
  · intro s value
    rw [Automaton.direct?_eq (holds s), h.direct]
    refine Automaton.map_val_bind_state? ?_
    intro target found
    rw [count]
    exact closed.direct _ value target found
  · intro s value
    rw [Automaton.range?_eq (holds s) (few _), range?_of_records h]
    refine Automaton.map_val_bind_state? ?_
    intro target found
    obtain ⟨r, first, cell⟩ := Option.bind_eq_some_iff.mp found
    obtain ⟨rfl, real⟩ := named?_eq_some_iff.mp cell
    rw [count]
    exact closed.ranges _ (Journal.mem_rangesOf.mp (List.mem_of_find?_eq_some first)) real
  · intro s
    rw [← h.ranges, Array.length_toList]
    refine (CellTable.rangeCount_eq (holds s)).trans ?_
    rw [DraftState.counted_of_few (few _)]
  · intro s
    rw [Automaton.isDeadEnd_eq (holds s), DraftState.isDeadEnd_iff_direct?, h.ranges]
    simp only [h.direct]

end

/-- The bytes of a draft are accepted if every target in force is a state, and no other bytes are. The
automaton that they hold answers as the journal of the calls does. -/
theorem decode_reads_journal {ops : List DraftOp} (built : build ops = .ok d)
    (few : ∀ n, ((Journal.ofOps ops).rangesOf n).length < UInt16.size)
    (small : d.table.cells.size < UInt32.size) :
    ((∃ a, Automaton.decode d.toBytes = .ok a) ↔ (Journal.ofOps ops).Closed) ∧
      ∀ a, Automaton.decode d.toBytes = .ok a →
        a.stateCount = d.stateCount ∧ a.AnswersAs (.ofOps ops) := by
  have h := records_build built
  have few_drafted (n : UInt16) : (d.state n).ranges.size < UInt16.size := by
    rw [← Array.length_toList, h.ranges]
    exact few n
  have table {a : Automaton} (decoded : Automaton.decode d.toBytes = .ok a) : a.table = d.table :=
    table_of_decode h.nonempty h.numbered decoded
  constructor
  · constructor
    · rintro ⟨a, decoded⟩
      exact closed_of_decoded (table decoded) small h few_drafted
    · intro closed
      obtain ⟨a, decoded, -⟩ := decode_toBytes (sound_of_records h closed) small
      exact ⟨a, decoded⟩
  · intro a decoded
    have same := table decoded
    exact ⟨stateCount_decoded same,
      answersAs_of_decoded same small h few_drafted (closed_of_decoded same small h few_drafted)⟩

theorem decode_reads_journal_overlapping :
    let ops : List DraftOp :=
      [.addState (some 7), .onByte 0 97 0, .onByte 0 97 1, .onRange 0 300 400 1, .onRange 0 350 500 0,
        .onChar 1 '𝄞' 0, .setTerminal 1 9]
    ∃ d a, build ops = .ok d ∧ Automaton.decode d.toBytes = .ok a ∧ a.stateCount = 3 ∧
      (∀ s : a.State, s.val = 0 → (a.direct? s 97).map Fin.val = some 1 ∧
        (a.range? s 360).map Fin.val = some 1 ∧ (a.range? s 450).map Fin.val = some 0 ∧
        a.rangeCount s = 2) ∧
      ∀ s : a.State, s.val = 1 → a.terminal? s = some 9 ∧ a.isDeadEnd s = false := by
  intro ops
  obtain ⟨d, built, small⟩ := exists_of_toOption_any (x := build ops)
    (p := fun d => decide (d.states.toList.foldl (fun n s => n + s.cellCount) 0 < UInt32.size))
    (by decide +kernel)
  have few (n : UInt16) : ((Journal.ofOps ops).rangesOf n).length < UInt16.size :=
    Nat.lt_of_le_of_lt (Journal.length_rangesOf_le _ n) (by decide)
  have closed : (Journal.ofOps ops).Closed :=
    Journal.closed_of_within (Journal.within_ofOps (DraftOp.targets_lt (by decide)))
  obtain ⟨accepted, answers⟩ :=
    decode_reads_journal built few (d.size_table ▸ of_decide_eq_true small)
  obtain ⟨a, decoded⟩ := accepted.mpr closed
  obtain ⟨-, answers⟩ := answers a decoded
  refine ⟨d, a, built, decoded, answers.stateCount, ?_, ?_⟩
  · intro s first
    refine ⟨?_, ?_, ?_, ?_⟩
    · rw [answers.direct, first]
      decide
    · rw [answers.range, first]
      decide
    · rw [answers.range, first]
      decide
    · rw [answers.rangeCount, first]
      decide
  · intro s second
    refine ⟨?_, ?_⟩
    · rw [answers.terminal, second]
      decide
    · rw [Bool.eq_false_iff, ne_eq, answers.deadEnd, second]
      intro dead
      exact absurd dead.2 (by decide)

end Draft

end ParseKit
