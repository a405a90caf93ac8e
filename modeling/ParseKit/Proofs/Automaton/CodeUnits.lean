import ParseKit.Proofs.Automaton.Walk
import ParseKit.Proofs.Text.Encoding

/-!
# Matches over code units

An automaton reads code units, and a match counts characters. `longestMatch?_reads_units` says which
run a match is: the longest one whose encoding leads the automaton to where a terminal is
recognized. What lies between the two units of one character has no say in it.
-/

namespace ParseKit

namespace Automaton

variable {a b : Automaton} {s q : a.State} {chars : List Char}

/-- Unit by unit, the encoding of the characters leads from the initial state to `q`. -/
def Reaches (a : Automaton) (chars : List Char) (q : a.State) : Prop :=
  ∃ units, Encodes chars units ∧ units.foldlM a.next? a.initial = some q

/-- The characters lead to where the terminal is recognized, and no character is read in a state that
is marked as a dead end. -/
def Recognizes (a : Automaton) (chars : List Char) (terminal : UInt16) : Prop :=
  ∃ q, a.Reaches chars q ∧
    (∀ j < chars.length, ∀ p, a.Reaches (chars.take j) p → a.isDeadEnd p = false) ∧
      a.terminal? q = some terminal

/-- The states of both automata have the same numbers and transitions. What they recognize, and
which of them are marked as dead ends, may differ. -/
def SameTransitions (a b : Automaton) : Prop :=
  ∀ (p : a.State) (q : b.State), p.val = q.val → ∀ unit,
    (a.next? p unit).map Fin.val = (b.next? q unit).map Fin.val

theorem reaches_iff : a.Reaches chars q ↔ (utf16 chars).foldlM a.next? a.initial = some q := by
  simp [Reaches, encodes_iff]

/-! ### Characters and their units -/

theorem foldlM_units (a : Automaton) (s : a.State) (c : Char) :
    (Units.ofChar c).toList.foldlM a.next? s = a.step? s c := by
  unfold step?
  cases units : Units.ofChar c with
  | single unit => simp [Units.toList]
  | pair lead trail =>
    -- Surrogates lie beyond the direct targets.
    obtain ⟨high, low, -⟩ := Units.of_pair units
    simp only [IsLead, IsTrail] at high low
    have far {unit : UInt16} (big : 0xD800 ≤ unit.toNat) (s : a.State) :
        a.next? s unit = a.range? s unit := by
      rw [next?, if_neg (by simp only [directCount]; omega)]
    simp only [Units.toList, List.foldlM_cons, List.foldlM_nil, far high.1, bind_pure]
    rw [Option.bind_eq_bind]
    congr 1
    funext middle
    exact far (by omega) middle

theorem foldlM_utf16_cons (a : Automaton) (s : a.State) (c : Char) (rest : List Char) :
    (utf16 (c :: rest)).foldlM a.next? s =
      (a.step? s c).bind fun q => (utf16 rest).foldlM a.next? q := by
  rw [utf16_cons, List.foldlM_append, foldlM_units]
  rfl

theorem walk?_eq_some_iff {run : List Char} :
    a.walk? s run = some q ↔ (utf16 run).foldlM a.next? s = some q ∧
      ∀ j < run.length, ∀ p, (utf16 (run.take j)).foldlM a.next? s = some p →
        a.isDeadEnd p = false := by
  induction run generalizing s with
  | nil => simp [walk?, utf16]
  | cons c rest ih =>
    rw [walk?, foldlM_utf16_cons]
    constructor
    · intro walk
      split at walk
      · contradiction
      · next alive =>
        obtain ⟨p, step, walk⟩ := Option.bind_eq_some_iff.mp walk
        obtain ⟨fold, later⟩ := ih.mp walk
        refine ⟨by rw [step]; exact fold, ?_⟩
        intro j inside p' reached
        cases j with
        | zero =>
          obtain rfl : s = p' := by simpa [utf16] using reached
          simpa using alive
        | succ j =>
          rw [List.take_succ_cons, foldlM_utf16_cons, step] at reached
          exact later j (Nat.lt_of_succ_lt_succ inside) p' reached
    · rintro ⟨fold, alive⟩
      obtain ⟨p, step, fold⟩ := Option.bind_eq_some_iff.mp fold
      rw [alive 0 (Nat.succ_pos _) s rfl, if_neg Bool.false_ne_true, step]
      refine ih.mpr ⟨fold, fun j inside p' reached => ?_⟩
      apply alive (j + 1) (Nat.succ_lt_succ inside) p'
      rw [List.take_succ_cons, foldlM_utf16_cons, step]
      exact reached

theorem recognized?_eq_some_iff {run : List Char} {terminal : UInt16} :
    a.recognized? a.initial run = some terminal ↔ a.Recognizes run terminal := by
  simp only [recognized?, Option.bind_eq_some_iff, walk?_eq_some_iff, Recognizes, reaches_iff,
    and_assoc]

theorem recognized?_eq_none_iff {run : List Char} :
    a.recognized? a.initial run = none ↔ ∀ terminal, ¬ a.Recognizes run terminal := by
  simp only [← recognized?_eq_some_iff, Option.eq_none_iff_forall_ne_some]

/-! ### Automata that differ between two units -/

theorem foldlM_of_sameTransitions (same : SameTransitions a b) (units : List UInt16) {p : a.State}
    {q : b.State} (level : p.val = q.val) :
    (units.foldlM a.next? p).map Fin.val = (units.foldlM b.next? q).map Fin.val := by
  induction units generalizing p q with
  | nil => exact congrArg some level
  | cons unit rest ih =>
    have step := same p q level unit
    rw [List.foldlM_cons, List.foldlM_cons]
    cases left : a.next? p unit <;> cases right : b.next? q unit <;>
      simp only [left, right, Option.map_none, Option.map_some, reduceCtorEq] at step
    · rfl
    · exact ih (Option.some.inj step)

theorem reaches_of_sameTransitions (same : SameTransitions a b) {chars : List Char} {p : a.State}
    (reached : a.Reaches chars p) : ∃ q : b.State, b.Reaches chars q ∧ p.val = q.val := by
  have numbers := foldlM_of_sameTransitions same (utf16 chars) (p := a.initial) (q := b.initial) rfl
  rw [reaches_iff.mp reached, Option.map_some, eq_comm, Option.map_eq_some_iff] at numbers
  obtain ⟨q, reached, level⟩ := numbers
  exact ⟨q, reaches_iff.mpr reached, level.symm⟩

theorem sameTransitions_symm (same : SameTransitions a b) : SameTransitions b a :=
  fun q p level unit => (same p q level.symm unit).symm

/-- What the states reached at the characters recognize, and whether they are dead ends, decides what
is recognized. -/
theorem recognizes_of_sameTransitions (same : SameTransitions a b) {run : List Char}
    (marked : ∀ j ≤ run.length, ∀ p q, a.Reaches (run.take j) p → b.Reaches (run.take j) q →
      a.terminal? p = b.terminal? q ∧ a.isDeadEnd p = b.isDeadEnd q) {terminal : UInt16}
    (recognizes : a.Recognizes run terminal) : b.Recognizes run terminal := by
  obtain ⟨p, reached, alive, found⟩ := recognizes
  obtain ⟨q, reached', -⟩ := reaches_of_sameTransitions same reached
  refine ⟨q, reached', ?_, ?_⟩
  · intro j inside q' there
    obtain ⟨p', there', -⟩ := reaches_of_sameTransitions (sameTransitions_symm same) there
    rw [← (marked j (Nat.le_of_lt inside) p' q' there' there).2]
    exact alive j inside p' there'
  · have last := marked run.length (Nat.le_refl _) p q
    rw [List.take_length] at last
    rw [← (last reached reached').1, found]

theorem longestMatch?_congr (same : ∀ n ≤ chars.length,
    a.recognized? a.initial (chars.take n) = b.recognized? b.initial (chars.take n)) :
    a.longestMatch? chars = b.longestMatch? chars := by
  cases found : a.longestMatch? chars with
  | some m =>
    obtain ⟨inside, recognized, longest⟩ := matchFrom_eq_some_iff.mp found
    refine (matchFrom_eq_some_iff.mpr ⟨inside, ?_, ?_⟩).symm
    · rw [← same _ inside, recognized]
    · intro n more le
      rw [← same n le, longest n more le]
  | none =>
    have unmatched := matchFrom_eq_none_iff.mp found
    refine (matchFrom_eq_none_iff.mpr fun n pos le => ?_).symm
    rw [← same n le, unmatched n pos le]

theorem longestMatch?_of_sameTransitions (same : SameTransitions a b)
    (marked : ∀ j ≤ chars.length, ∀ p q, a.Reaches (chars.take j) p → b.Reaches (chars.take j) q →
      a.terminal? p = b.terminal? q ∧ a.isDeadEnd p = b.isDeadEnd q) :
    a.longestMatch? chars = b.longestMatch? chars := by
  apply longestMatch?_congr
  intro n le
  have marks : ∀ j ≤ (chars.take n).length, ∀ p q, a.Reaches ((chars.take n).take j) p →
      b.Reaches ((chars.take n).take j) q →
        a.terminal? p = b.terminal? q ∧ a.isDeadEnd p = b.isDeadEnd q := by
    intro j inside p q there there'
    rw [List.length_take] at inside
    rw [List.take_take, Nat.min_eq_left (by omega)] at there there'
    exact marked j (by omega) p q there there'
  ext terminal
  rw [recognized?_eq_some_iff, recognized?_eq_some_iff]
  constructor
  · exact recognizes_of_sameTransitions same marks
  · apply recognizes_of_sameTransitions (sameTransitions_symm same)
    intro j inside q p there there'
    obtain ⟨terminals, deadEnds⟩ := marks j inside p q there' there
    exact ⟨terminals.symm, deadEnds.symm⟩

/-! ### Matches -/

/-- A match is the longest run from `start` on, counted in characters, whose encoding is recognized.
Two automata with the same transitions match alike if they agree on the states reached at the
characters, whatever lies between the units of a pair. -/
theorem longestMatch?_reads_units (a : Automaton) (input : List Char) (start : Nat) :
    (∀ terminal k,
      (a.longestMatch? (input.drop start)).map (fun m => (m.terminal, m.length)) =
          some (terminal, k) ↔
        1 ≤ k ∧ start + k ≤ input.length ∧
          a.Recognizes ((input.drop start).take k) terminal ∧
          ∀ n, k < n → start + n ≤ input.length →
            ∀ other, ¬ a.Recognizes ((input.drop start).take n) other) ∧
    (a.longestMatch? (input.drop start) = none ↔
      ∀ n, 1 ≤ n → start + n ≤ input.length →
        ∀ terminal, ¬ a.Recognizes ((input.drop start).take n) terminal) ∧
    ∀ b, SameTransitions a b →
      (∀ j ≤ (input.drop start).length, ∀ p q, a.Reaches ((input.drop start).take j) p →
        b.Reaches ((input.drop start).take j) q →
          a.terminal? p = b.terminal? q ∧ a.isDeadEnd p = b.isDeadEnd q) →
      a.longestMatch? (input.drop start) = b.longestMatch? (input.drop start) := by
  have inside {n : Nat} (pos : 1 ≤ n) :
      n ≤ (input.drop start).length ↔ start + n ≤ input.length := by
    rw [List.length_drop]
    omega
  refine ⟨fun terminal k => ?_, ?_, fun b same => longestMatch?_of_sameTransitions same⟩
  · rw [Option.map_eq_some_iff]
    constructor
    · rintro ⟨m, found, same⟩
      obtain ⟨rfl, rfl⟩ := Prod.mk.inj same
      obtain ⟨le, recognized, longest⟩ := matchFrom_eq_some_iff.mp found
      refine ⟨m.length_pos, (inside m.length_pos).mp le, recognized?_eq_some_iff.mp recognized, ?_⟩
      intro n more le
      have pos : 1 ≤ n := by omega
      exact recognized?_eq_none_iff.mp (longest n more ((inside pos).mpr le))
    · rintro ⟨pos, le, recognizes, longest⟩
      refine ⟨⟨terminal, k, pos⟩, matchFrom_eq_some_iff.mpr ⟨(inside pos).mpr le, ?_, ?_⟩, rfl⟩
      · exact recognized?_eq_some_iff.mpr recognizes
      · intro n more le
        have pos : 1 ≤ n := Nat.one_le_of_lt more
        exact recognized?_eq_none_iff.mpr (longest n more ((inside pos).mp le))
  · rw [longestMatch?, matchFrom_eq_none_iff]
    constructor
    · intro unmatched n pos le
      exact recognized?_eq_none_iff.mp (unmatched n pos ((inside pos).mpr le))
    · intro silent n pos le
      exact recognized?_eq_none_iff.mpr (silent n pos ((inside pos).mp le))

end Automaton

end ParseKit
