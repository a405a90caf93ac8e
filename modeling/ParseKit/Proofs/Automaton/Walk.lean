import ParseKit.Automaton.Longest

/-!
# Walks and longest matches

`Automaton.walk?` follows a whole run of characters. `matchFrom_eq_some_iff` reads a match as the
longest run at the front of a text, of at least one character, whose walk ends where a terminal is
recognized.
-/

namespace ParseKit

/-- `m` is the longest run at the front of `chars` that is recognized. -/
structure Longest (recognized? : List Char → Option UInt16) (chars : List Char) (m : Match) :
    Prop where
  length_le : m.length ≤ chars.length
  recognized : recognized? (chars.take m.length) = some m.terminal
  longest : ∀ n, m.length < n → n ≤ chars.length → recognized? (chars.take n) = none

/-- No run of at least one character at the front of `chars` is recognized. -/
def Unmatched (recognized? : List Char → Option UInt16) (chars : List Char) : Prop :=
  ∀ n, 0 < n → n ≤ chars.length → recognized? (chars.take n) = none

section

variable {recognized? : List Char → Option UInt16} {chars : List Char} {m m' : Match}

theorem longest_unique (h : Longest recognized? chars m) (h' : Longest recognized? chars m') :
    m = m' := by
  have same : m.length = m'.length := by
    rcases Nat.lt_trichotomy m.length m'.length with less | same | more
    · have silent := h.longest m'.length less h'.length_le
      rw [h'.recognized] at silent
      contradiction
    · exact same
    · have silent := h'.longest m.length more h.length_le
      rw [h.recognized] at silent
      contradiction
  have terminal : some m.terminal = some m'.terminal := by
    rw [← h.recognized, ← h'.recognized, same]
  cases m
  cases m'
  simp_all

theorem not_unmatched_of_longest (h : Longest recognized? chars m) :
    ¬ Unmatched recognized? chars := by
  intro unmatched
  have silent := unmatched m.length m.length_pos h.length_le
  rw [h.recognized] at silent
  contradiction

end

namespace Automaton

variable {a : Automaton} {s : a.State}

/-- The state after a run of characters; no walk goes on from a dead end. -/
def walk? (a : Automaton) : a.State → List Char → Option a.State
  | s, [] => some s
  | s, c :: rest => if a.isDeadEnd s then none else (a.step? s c).bind fun q => a.walk? q rest

def recognized? (a : Automaton) (s : a.State) (run : List Char) : Option UInt16 :=
  (a.walk? s run).bind a.terminal?

/-! ### One character -/

theorem recognized?_cons {c : Char} {q : a.State} (alive : a.isDeadEnd s = false)
    (step : a.step? s c = some q) (run : List Char) :
    a.recognized? s (c :: run) = a.recognized? q run := by
  simp [recognized?, walk?, alive, step]

theorem recognized?_nil (s : a.State) : a.recognized? s [] = a.terminal? s := rfl

theorem recognized?_stuck {c : Char} (stuck : a.isDeadEnd s = true ∨ a.step? s c = none)
    (run : List Char) : a.recognized? s (c :: run) = none := by
  rcases stuck with dead | blocked
  · simp [recognized?, walk?, dead]
  · simp [recognized?, walk?, blocked]

theorem unmatched_of_stuck {c : Char} (stuck : a.isDeadEnd s = true ∨ a.step? s c = none)
    (rest : List Char) : Unmatched (a.recognized? s) (c :: rest) := by
  intro n pos _
  obtain ⟨k, rfl⟩ := Nat.exists_eq_succ_of_ne_zero (Nat.ne_of_gt pos)
  exact recognized?_stuck stuck _

section

variable {c : Char} {q : a.State} (alive : a.isDeadEnd s = false) (step : a.step? s c = some q)
include alive step

/-- If no run longer than `k` is recognized after the character, none longer than `k + 1` is with it. -/
theorem silent_cons {rest : List Char} {k : Nat}
    (silent : ∀ n, k < n → n ≤ rest.length → a.recognized? q (rest.take n) = none) (n : Nat)
    (more : k + 1 < n) (le : n ≤ (c :: rest).length) :
    a.recognized? s ((c :: rest).take n) = none := by
  obtain ⟨j, rfl⟩ := Nat.exists_eq_succ_of_ne_zero (Nat.ne_of_gt (Nat.zero_lt_of_lt more))
  rw [List.take_succ_cons, recognized?_cons alive step]
  exact silent j (Nat.lt_of_succ_lt_succ more) (Nat.le_of_succ_le_succ le)

theorem longest_extend {rest : List Char} {m : Match} (h : Longest (a.recognized? q) rest m) :
    Longest (a.recognized? s) (c :: rest) m.extend := by
  refine ⟨Nat.succ_le_succ h.length_le, ?_, silent_cons alive step h.longest⟩
  rw [Match.extend, List.take_succ_cons, recognized?_cons alive step]
  exact h.recognized

theorem longest_single {rest : List Char} {terminal : UInt16} (h : Unmatched (a.recognized? q) rest)
    (found : a.terminal? q = some terminal) :
    Longest (a.recognized? s) (c :: rest) ⟨terminal, 1, Nat.one_pos⟩ := by
  refine ⟨Nat.succ_le_succ (Nat.zero_le _), ?_, silent_cons alive step h⟩
  rw [List.take_succ_cons, recognized?_cons alive step]
  exact found

theorem unmatched_cons {rest : List Char} (h : Unmatched (a.recognized? q) rest)
    (silent : a.terminal? q = none) : Unmatched (a.recognized? s) (c :: rest) := by
  intro n pos le
  rcases Nat.eq_or_lt_of_le pos with rfl | later
  · rw [List.take_succ_cons, recognized?_cons alive step]
    exact silent
  · exact silent_cons alive step h n later le

end

/-! ### The match of a walk -/

theorem matchFrom_spec (a : Automaton) (s : a.State) (chars : List Char) :
    (∀ m, a.matchFrom s chars = some m → Longest (a.recognized? s) chars m) ∧
      (a.matchFrom s chars = none → Unmatched (a.recognized? s) chars) := by
  induction chars generalizing s with
  | nil =>
    refine ⟨fun m h => (nomatch h), ?_⟩
    intro _ n pos le
    exact absurd pos (Nat.not_lt_of_le le)
  | cons c rest ih =>
    rw [matchFrom]
    cases dead : a.isDeadEnd s with
    | true => exact ⟨fun m h => (nomatch h), fun _ => unmatched_of_stuck (.inl dead) rest⟩
    | false =>
      cases step : a.step? s c with
      | none => exact ⟨fun m h => (nomatch h), fun _ => unmatched_of_stuck (.inr step) rest⟩
      | some q =>
        obtain ⟨found, unmatched⟩ := ih q
        simp only [Bool.false_eq_true, if_false]
        cases later : a.matchFrom q rest with
        | some m =>
          refine ⟨?_, fun h => (nomatch h)⟩
          intro m' h
          cases h
          exact longest_extend dead step (found m later)
        | none =>
          simp only [Option.map_eq_some_iff, Option.map_eq_none_iff]
          refine ⟨?_, unmatched_cons dead step (unmatched later)⟩
          rintro m ⟨terminal, here, rfl⟩
          exact longest_single dead step (unmatched later) here

theorem matchFrom_eq_some_iff {chars : List Char} {m : Match} :
    a.matchFrom s chars = some m ↔ Longest (a.recognized? s) chars m := by
  obtain ⟨found, unmatched⟩ := matchFrom_spec a s chars
  refine ⟨found m, ?_⟩
  intro h
  cases result : a.matchFrom s chars with
  | some m' => rw [longest_unique h (found m' result)]
  | none => exact absurd (unmatched result) (not_unmatched_of_longest h)

theorem matchFrom_eq_none_iff {chars : List Char} :
    a.matchFrom s chars = none ↔ Unmatched (a.recognized? s) chars := by
  refine ⟨(matchFrom_spec a s chars).2, ?_⟩
  intro h
  cases result : a.matchFrom s chars with
  | some m => exact absurd h (not_unmatched_of_longest (matchFrom_eq_some_iff.mp result))
  | none => rfl

end Automaton

end ParseKit
