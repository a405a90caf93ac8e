import ParseKit.Proofs.Text.Lines

/-!
# Positions in order

A position belongs to the last line that starts at or before its index: `positionAt_of_between`.
Lines and columns put the indices of a text in the same order as the indices themselves
(`positionAt_lt`), and each of them is the position of one index (`positions_order_indices`).
-/

namespace ParseKit

namespace Text

theorem locate?_eq {t : Text} {index : Nat} (small : index + 1 < wordLimit) :
    t.locate? index = some (t.positionAt index) := by
  have column : (t.positionAt index).column < wordLimit := by
    simp only [positionAt]
    omega
  rw [locate?, word?, if_pos column]
  rfl

/-! ### Lines and their starts -/

variable {t : Text} {line start index : Nat}

theorem exists_lineStart? (first : 1 ≤ line) (last : line ≤ t.lineCount) :
    ∃ start, t.lineStart? line = some start := by
  obtain ⟨k, rfl⟩ := Nat.exists_eq_add_one.mpr first
  exact ⟨t.lineStarts[k], (t.lineStart?_succ k).trans (Array.getElem?_eq_getElem last)⟩

theorem bounds_of_lineStart? (starts : t.lineStart? line = some start) :
    1 ≤ line ∧ line ≤ t.lineCount := by
  cases line with
  | zero => contradiction
  | succ k =>
    obtain ⟨inside, -⟩ := Array.getElem?_eq_some_iff.mp ((t.lineStart?_succ k).symm.trans starts)
    exact ⟨Nat.le_add_left 1 k, inside⟩

theorem lineStart?_le_size (starts : t.lineStart? line = some start) : start ≤ t.size := by
  obtain ⟨first, -⟩ := bounds_of_lineStart? starts
  obtain ⟨k, rfl⟩ := Nat.exists_eq_add_one.mpr first
  have mem : start ∈ ParseKit.lineStarts t.chars := by
    rw [chars, ← t.lineStarts_eq]
    exact Array.mem_toList_iff.mpr (Array.mem_of_getElem? ((t.lineStart?_succ k).symm.trans starts))
  rcases mem_lineStarts_iff.mp mem with rfl | ⟨-, inside, -⟩
  · exact Nat.zero_le _
  · exact t.length_chars ▸ inside

theorem lineStart?_lt (starts : t.lineStart? line = some start) {next : Nat}
    (follows : t.lineStart? (line + 1) = some next) : start < next := by
  obtain ⟨first, -⟩ := bounds_of_lineStart? starts
  obtain ⟨k, rfl⟩ := Nat.exists_eq_add_one.mpr first
  rw [lineStart?_succ, ← Array.getElem?_toList] at starts follows
  obtain ⟨inside, rfl⟩ := List.getElem?_eq_some_iff.mp starts
  obtain ⟨later, rfl⟩ := List.getElem?_eq_some_iff.mp follows
  exact List.pairwise_iff_getElem.mp t.lineStarts_ascending k (k + 1) inside later (Nat.lt_succ_self k)

/-- A line reaches up to the start of the next one, and the last one up to the end. -/
theorem exists_lineStop (starts : t.lineStart? line = some start) :
    ∃ stop, t.lineLength? line = some (stop - start) ∧ stop ≤ t.size ∧
      (t.lineStart? (line + 1) = some stop ∨ (line = t.lineCount ∧ stop = t.size)) := by
  have length := lineLength?_of_le starts
  rw [← lineStart?_succ] at length
  cases follows : t.lineStart? (line + 1) with
  | some next =>
    rw [follows, Option.getD_some] at length
    exact ⟨next, length (Nat.le_of_lt (lineStart?_lt starts follows)), lineStart?_le_size follows,
      .inl rfl⟩
  | none =>
    rw [follows, Option.getD_none] at length
    obtain ⟨-, last⟩ := bounds_of_lineStart? starts
    have beyond := Array.getElem?_eq_none_iff.mp ((t.lineStart?_succ line).symm.trans follows)
    exact ⟨t.size, length (lineStart?_le_size starts), Nat.le_refl _,
      .inr ⟨Nat.le_antisymm last beyond, rfl⟩⟩

/-- The lines that start at or before an index are those up to its own. -/
theorem lineStart?_le_iff (starts : t.lineStart? line = some start) :
    start ≤ index ↔ line ≤ t.lineAt index := by
  obtain ⟨first, -⟩ := bounds_of_lineStart? starts
  obtain ⟨k, rfl⟩ := Nat.exists_eq_add_one.mpr first
  rw [lineStart?_succ, ← Array.getElem?_toList] at starts
  obtain ⟨inside, rfl⟩ := List.getElem?_eq_some_iff.mp starts
  rw [getElem_le_iff_lt_length_takeWhile t.lineStarts_ascending, lineAt,
    countUpTo_eq t.lineStarts_ascending]
  rfl

theorem lineAt_le_lineCount (t : Text) (index : Nat) : t.lineAt index ≤ t.lineCount := by
  rw [lineAt, countUpTo_eq t.lineStarts_ascending, lineCount, ← Array.length_toList]
  exact (List.takeWhile_sublist _).length_le

theorem lineStart?_one (t : Text) : t.lineStart? 1 = some 0 := by
  rw [lineStart?_succ, ← Array.getElem?_toList, t.lineStarts_eq]
  rfl

theorem one_le_lineAt (t : Text) (index : Nat) : 1 ≤ t.lineAt index :=
  (lineStart?_le_iff t.lineStart?_one).mp (Nat.zero_le index)

theorem column_positionAt (starts : t.lineStart? (t.lineAt index) = some start) :
    (t.positionAt index).column = index - start + 1 := by
  obtain ⟨k, own⟩ := Nat.exists_eq_add_one.mpr (t.one_le_lineAt index)
  rw [own, lineStart?_succ] at starts
  simp [positionAt, own, Array.getD_eq_getD_getElem?, starts]

/-- A position belongs to the last line that starts at or before its index. -/
theorem positionAt_of_between (starts : t.lineStart? line = some start) (before : start ≤ index)
    (behind : ∀ next, t.lineStart? (line + 1) = some next → index < next) :
    t.positionAt index = ⟨line, index - start + 1⟩ := by
  have own : t.lineAt index = line := by
    refine Nat.le_antisymm (Nat.le_of_not_lt fun later => ?_) ((lineStart?_le_iff starts).mp before)
    obtain ⟨next, follows⟩ := exists_lineStart? (Nat.le_add_left 1 line)
      (Nat.le_trans later (t.lineAt_le_lineCount index))
    have reached := (lineStart?_le_iff follows).mpr later
    exact Nat.not_lt.mpr reached (behind next follows)
  have column := column_positionAt (own ▸ starts)
  rw [← column, ← own]
  rfl

theorem exists_ownStart (t : Text) (index : Nat) :
    ∃ start, t.lineStart? (t.lineAt index) = some start ∧ start ≤ index := by
  obtain ⟨start, starts⟩ :=
    exists_lineStart? (t.one_le_lineAt index) (t.lineAt_le_lineCount index)
  exact ⟨start, starts, (lineStart?_le_iff starts).mpr (Nat.le_refl _)⟩

/-! ### Positions and indices -/

theorem positionAt_lt (t : Text) {i j : Nat} (less : i < j) : t.positionAt i < t.positionAt j := by
  obtain ⟨start, starts, before⟩ := t.exists_ownStart i
  have reached : t.lineAt i ≤ t.lineAt j := (lineStart?_le_iff starts).mp (by omega)
  rcases Nat.lt_or_eq_of_le reached with later | same
  · exact .inl later
  · refine .inr ⟨same, ?_⟩
    rw [column_positionAt starts, column_positionAt (same ▸ starts)]
    omega

/-- Each index has a position and each position of a line has an index, in the same order. The column
behind the last character has to be a word. -/
theorem positions_order_indices (t : Text) (fits : t.size + 1 < wordLimit) :
    (∀ index, index ≤ t.size → ∃ place start, t.locate? index = some place ∧
      1 ≤ place.line ∧ place.line ≤ t.lineCount ∧ 1 ≤ place.column ∧
      t.lineStart? place.line = some start ∧ start + place.column - 1 = index ∧
      ∀ line next, place.line < line → t.lineStart? line = some next → index < next) ∧
    (∀ line, 1 ≤ line → line ≤ t.lineCount → ∃ start length, t.lineStart? line = some start ∧
      t.lineLength? line = some length ∧
      ∀ column, 1 ≤ column → (column ≤ length ∨ (line = t.lineCount ∧ column ≤ length + 1)) →
        t.locate? (start + column - 1) = some ⟨line, column⟩) ∧
    ∀ i j, i < j → j ≤ t.size → ∃ p q, t.locate? i = some p ∧ t.locate? j = some q ∧ p < q := by
  refine ⟨?places, ?lines, ?order⟩
  case places =>
    intro index inside
    obtain ⟨start, starts, before⟩ := t.exists_ownStart index
    refine ⟨_, start, locate?_eq (by omega), t.one_le_lineAt index, t.lineAt_le_lineCount index,
      Nat.le_add_left 1 _, starts, ?_, ?_⟩
    · rw [column_positionAt starts]
      omega
    · intro line next later follows
      exact Nat.not_le.mp fun reached =>
        Nat.not_le.mpr later ((lineStart?_le_iff follows).mp reached)
  case lines =>
    intro line first last
    obtain ⟨start, starts⟩ := exists_lineStart? first last
    obtain ⟨stop, length, below, border⟩ := exists_lineStop starts
    have front := lineStart?_le_size starts
    refine ⟨start, stop - start, starts, length, ?_⟩
    intro column positive inside
    have place : t.positionAt (start + column - 1) = ⟨line, start + column - 1 - start + 1⟩ := by
      refine positionAt_of_between starts (by omega) fun next follows => ?_
      obtain ⟨-, more⟩ := bounds_of_lineStart? follows
      rcases border with next' | ⟨last, -⟩
      · obtain rfl := Option.some.inj (follows.symm.trans next')
        omega
      · omega
    rw [locate?_eq (by omega), place, show start + column - 1 - start + 1 = column by omega]
  case order =>
    intro i j less inside
    exact ⟨_, _, locate?_eq (by omega), locate?_eq (by omega), t.positionAt_lt less⟩

/-- A line feed behind its carriage return, a lone carriage return, and the end of the text. -/
theorem positions_order_indices_mixed :
    let t := ofList ['a', '\r', '\n', '\r', 'b']
    t.size + 1 < wordLimit ∧
      (∃ place start, t.locate? 2 = some place ∧ t.lineStart? place.line = some start ∧
        start + place.column - 1 = 2 ∧
        ∀ line next, place.line < line → t.lineStart? line = some next → 2 < next) ∧
      t.locate? 5 = some ⟨3, 2⟩ ∧ ∃ p q, t.locate? 2 = some p ∧ t.locate? 3 = some q ∧ p < q := by
  intro t
  have fits : t.size + 1 < wordLimit := by decide
  obtain ⟨places, lines, order⟩ := positions_order_indices t fits
  refine ⟨fits, ?_, ?_, order 2 3 (by decide) (by decide)⟩
  · obtain ⟨place, start, located, -, -, -, starts, back, later⟩ := places 2 (by decide)
    exact ⟨place, start, located, starts, back, later⟩
  · obtain ⟨start, length, starts, measured, located⟩ := lines 3 (by decide) (by decide)
    have third : t.lineStart? 3 = some 4 := by decide
    have single : t.lineLength? 3 = some 1 := by decide
    obtain rfl := Option.some.inj (third.symm.trans starts)
    obtain rfl := Option.some.inj (single.symm.trans measured)
    exact located 2 (by decide) (.inr ⟨by decide, by decide⟩)

end Text

end ParseKit
