import ParseKit.Proofs.Automaton.Walk

/-!
# What a walk looks at

A walk goes over some characters and stops in a dead end, at the end of its text, or at a character that
does not lead on. `longestMatch?_looks_ahead` says that its match depends on these characters only, and
that more text behind them does not make the match shorter.
-/

namespace ParseKit

namespace Automaton

variable {a : Automaton} {s last : a.State} {chars other : List Char} {k : Nat}

/-- The walk from `s` goes over `k` characters, to the state `last`, and no further. -/
structure HaltsAt (a : Automaton) (s : a.State) (chars : List Char) (k : Nat) (last : a.State) :
    Prop where
  length_le : k ≤ chars.length
  reached : a.walk? s (chars.take k) = some last
  stuck : ∀ c, chars[k]? = some c → a.isDeadEnd last = true ∨ a.step? last c = none

/-! ### Where a walk stops -/

theorem haltsAt_zero : a.HaltsAt s chars 0 last ↔
    last = s ∧ ∀ c, chars[0]? = some c → a.isDeadEnd s = true ∨ a.step? s c = none := by
  constructor
  · rintro ⟨-, reached, stuck⟩
    obtain rfl : s = last := Option.some.inj reached
    exact ⟨rfl, stuck⟩
  · rintro ⟨rfl, stuck⟩
    exact ⟨Nat.zero_le _, rfl, stuck⟩

theorem haltsAt_succ : a.HaltsAt s chars (k + 1) last ↔
    ∃ c rest q, chars = c :: rest ∧ a.isDeadEnd s = false ∧ a.step? s c = some q ∧
      a.HaltsAt q rest k last := by
  constructor
  · rintro ⟨inside, reached, stuck⟩
    obtain ⟨c, rest, rfl⟩ := List.exists_cons_of_length_pos (Nat.zero_lt_of_lt inside)
    rw [List.take_succ_cons, walk?] at reached
    cases dead : a.isDeadEnd s with
    | true => simp [dead] at reached
    | false =>
      obtain ⟨q, step, reached⟩ := Option.bind_eq_some_iff.mp (by simpa [dead] using reached)
      exact ⟨c, rest, q, rfl, rfl, step, Nat.le_of_succ_le_succ inside, reached, stuck⟩
  · rintro ⟨c, rest, q, rfl, alive, step, inside, reached, stuck⟩
    exact ⟨Nat.succ_le_succ inside, by simp [walk?, alive, step, reached], stuck⟩

theorem exists_haltsAt (a : Automaton) (s : a.State) (chars : List Char) :
    ∃ k last, a.HaltsAt s chars k last := by
  induction chars generalizing s with
  | nil => exact ⟨0, s, haltsAt_zero.mpr ⟨rfl, fun _ none => nomatch none⟩⟩
  | cons c rest ih =>
    by_cases stuck : a.isDeadEnd s = true ∨ a.step? s c = none
    · refine ⟨0, s, haltsAt_zero.mpr ⟨rfl, ?_⟩⟩
      rintro c' ⟨⟩
      exact stuck
    · obtain ⟨alive, moves⟩ := not_or.mp stuck
      obtain ⟨q, step⟩ := Option.ne_none_iff_exists'.mp moves
      obtain ⟨k, last, halts⟩ := ih q
      exact ⟨k + 1, last, haltsAt_succ.mpr ⟨c, rest, q, rfl, by simpa using alive, step, halts⟩⟩

/-! ### Two texts -/

theorem matchFrom_of_stuck
    (stuck : ∀ c, chars[0]? = some c → a.isDeadEnd s = true ∨ a.step? s c = none) :
    a.matchFrom s chars = none := by
  cases chars with
  | nil => rfl
  | cons c rest =>
    rcases stuck c rfl with dead | blocked
    · simp [matchFrom, dead]
    · simp [matchFrom, blocked]

/-- A walk stops in the same place over a text that goes on as far alike, and gives the same match. -/
theorem matchFrom_of_haltsAt (halts : a.HaltsAt s chars k last) (same : other.take k = chars.take k)
    (next : a.isDeadEnd last = true ∨ other[k]? = chars[k]?) :
    a.matchFrom s other = a.matchFrom s chars := by
  induction k generalizing s chars other with
  | zero =>
    obtain ⟨rfl, stuck⟩ := haltsAt_zero.mp halts
    -- From a dead end no text leads on; elsewhere both texts have the same next character, or none.
    have stuck' : ∀ c, other[0]? = some c → a.isDeadEnd last = true ∨ a.step? last c = none := by
      rcases next with dead | alike
      · exact fun _ _ => .inl dead
      · rwa [alike]
    rw [matchFrom_of_stuck stuck, matchFrom_of_stuck stuck']
  | succ k ih =>
    obtain ⟨c, rest, q, rfl, alive, step, later⟩ := haltsAt_succ.mp halts
    cases other with
    | nil => contradiction
    | cons c' rest' =>
      rw [List.take_succ_cons, List.take_succ_cons] at same
      obtain ⟨rfl, alike⟩ := List.cons.inj same
      rw [matchFrom, matchFrom, alive, step]
      simp only [ih later alike next]

theorem matchFrom_append {m : Match} (found : a.matchFrom s chars = some m) (more : List Char) :
    ∃ m', a.matchFrom s (chars ++ more) = some m' ∧ m.length ≤ m'.length ∧
      (m'.length = m.length → m'.terminal = m.terminal) := by
  have longest := matchFrom_eq_some_iff.mp found
  have inside : m.length ≤ (chars ++ more).length := by
    rw [List.length_append]
    exact Nat.le_add_right_of_le longest.length_le
  have recognized : a.recognized? s ((chars ++ more).take m.length) = some m.terminal := by
    rw [List.take_append_of_le_length longest.length_le]
    exact longest.recognized
  cases result : a.matchFrom s (chars ++ more) with
  | none =>
    have silent := matchFrom_eq_none_iff.mp result m.length m.length_pos inside
    rw [recognized] at silent
    contradiction
  | some m' =>
    have longest' := matchFrom_eq_some_iff.mp result
    refine ⟨m', rfl, ?_, fun same => ?_⟩
    · refine Nat.le_of_not_lt fun shorter => ?_
      have silent := longest'.longest m.length shorter inside
      rw [recognized] at silent
      contradiction
    · have recognized' := longest'.recognized
      rw [same, recognized] at recognized'
      exact (Option.some.inj recognized').symm

/-- A match depends on the characters that its walk goes over, and on the one behind them unless the
walk stops in a dead end; and no text behind makes it shorter. -/
theorem longestMatch?_looks_ahead (a : Automaton) (x y : List Char) (s t : Nat) :
    (∃ k last, a.HaltsAt a.initial (x.drop s) k last) ∧
      (∀ k last, a.HaltsAt a.initial (x.drop s) k last →
        (y.drop t).take k = (x.drop s).take k →
        (a.isDeadEnd last = true ∨ (s + k = x.length ∧ t + k = y.length) ∨
          ∃ c, x[s + k]? = some c ∧ y[t + k]? = some c) →
        a.longestMatch? (x.drop s) = a.longestMatch? (y.drop t)) ∧
      ∀ z m, a.longestMatch? (x.drop s) = some m →
        ∃ m', a.longestMatch? ((x ++ z).drop s) = some m' ∧ m.length ≤ m'.length ∧
          (m'.length = m.length → m'.terminal = m.terminal) := by
  refine ⟨a.exists_haltsAt _ _, ?_, ?_⟩
  · intro k last halts same next
    refine (matchFrom_of_haltsAt halts same ?_).symm
    rw [List.getElem?_drop, List.getElem?_drop]
    rcases next with dead | ⟨ends, ends'⟩ | ⟨c, here, there⟩
    · exact .inl dead
    · right
      rw [List.getElem?_eq_none (Nat.le_of_eq ends.symm), List.getElem?_eq_none (Nat.le_of_eq ends'.symm)]
    · exact .inr (there.trans here.symm)
  · intro z m found
    have start : s ≤ x.length := by
      have inside := (matchFrom_eq_some_iff.mp found).length_le
      have pos := m.length_pos
      rw [List.length_drop] at inside
      omega
    rw [List.drop_append_of_le_length start]
    exact matchFrom_append found z

end Automaton

end ParseKit
