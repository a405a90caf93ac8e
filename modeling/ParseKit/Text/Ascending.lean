/-!
Ascending arrays of indices. `countUpTo` halves the array to count the entries up to a bound;
`countUpTo_eq` says that it finds what a walk from the front would find.
-/

namespace ParseKit

/-- The number of entries up to `bound`, if it lies between `low` and `high` and the difference
of these is at most the number of steps left. -/
def countBetween (xs : Array Nat) (bound : Nat) : (steps low high : Nat) → Nat
  | 0, low, _ => low
  | steps + 1, low, high =>
    if low < high then
      let middle := (low + high) / 2
      if xs.getD middle 0 ≤ bound then countBetween xs bound steps (middle + 1) high
      else countBetween xs bound steps low middle
    else low

def countUpTo (xs : Array Nat) (bound : Nat) : Nat := countBetween xs bound xs.size 0 xs.size

/-- Of an ascending list, a walk takes exactly the entries up to its bound. -/
theorem getElem_le_iff_lt_length_takeWhile {xs : List Nat} (ascending : xs.Pairwise (· < ·))
    (bound : Nat) {i : Nat} (h : i < xs.length) :
    xs[i] ≤ bound ↔ i < (xs.takeWhile (· ≤ bound)).length := by
  induction xs generalizing i with
  | nil => simp at h
  | cons x xs ih =>
    obtain ⟨least, ascending⟩ := List.pairwise_cons.mp ascending
    by_cases le : x ≤ bound
    · cases i with
      | zero => simp [le]
      | succ i => simp [le, ih ascending (Nat.lt_of_succ_lt_succ h)]
    · cases i with
      | zero => simp [le]
      | succ i =>
        have inside : i < xs.length := Nat.lt_of_succ_lt_succ h
        have := least xs[i] (List.getElem_mem inside)
        simp only [List.getElem_cons_succ, decide_eq_true_eq, le, not_false_eq_true,
          List.takeWhile_cons_of_neg, List.length_nil, Nat.not_lt_zero, iff_false]
        omega

theorem countBetween_eq {xs : Array Nat} (ascending : xs.toList.Pairwise (· < ·)) (bound : Nat)
    {steps low high : Nat} (enough : high ≤ low + steps) (inside : high ≤ xs.size)
    (above : low ≤ (xs.toList.takeWhile (· ≤ bound)).length)
    (below : (xs.toList.takeWhile (· ≤ bound)).length ≤ high) :
    countBetween xs bound steps low high = (xs.toList.takeWhile (· ≤ bound)).length := by
  induction steps generalizing low high with
  | zero =>
    rw [countBetween]
    omega
  | succ steps ih =>
    rw [countBetween]
    split
    · have lt : (low + high) / 2 < xs.size := by omega
      have taken := getElem_le_iff_lt_length_takeWhile ascending bound
        (i := (low + high) / 2) (by simpa using lt)
      simp only [Array.getElem_toList] at taken
      simp only [Array.getD, lt, dif_pos, Array.getInternal_eq_getElem]
      split
      · exact ih (by omega) inside (by omega) below
      · exact ih (by omega) (by omega) above (by omega)
    · omega

theorem countUpTo_eq {xs : Array Nat} (ascending : xs.toList.Pairwise (· < ·)) (bound : Nat) :
    countUpTo xs bound = (xs.toList.takeWhile (· ≤ bound)).length :=
  countBetween_eq ascending bound (by omega) (Nat.le_refl _) (Nat.zero_le _)
    (List.takeWhile_sublist (· ≤ bound)).length_le

end ParseKit
