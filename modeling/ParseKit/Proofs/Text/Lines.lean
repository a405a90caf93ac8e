import Mathlib.Data.List.Flatten
import ParseKit.Text.Basic

/-!
# Lines

A text is cut into lines right behind each of its line endings, where a carriage return and the line
feed after it are one ending. `Text.lineStarts_cut_lines` finds the list of line starts to be exactly
the places of these cuts.
-/

namespace ParseKit

/-- The characters that end a line on their own, whatever stands next to them. -/
def lineBreaks : List Char := ['\n', '\x0b', '\x0c', '\u0085', '\u2028', '\u2029']

inductive LineEnding : List Char → Prop where
  | single {c : Char} (mem : c ∈ lineBreaks) : LineEnding [c]
  | carriageReturn : LineEnding ['\r']
  | returnAndFeed : LineEnding ['\r', '\n']

/-- No character here ends a line. -/
def Unbroken (chars : List Char) : Prop := ∀ c ∈ chars, c ≠ '\r' ∧ c ∉ lineBreaks

/-- One ending, and nothing before it that ends a line. -/
def EndedLine (line : List Char) : Prop :=
  ∃ body ending, line = body ++ ending ∧ Unbroken body ∧ LineEnding ending

/-- Every line but the last is ended, and the last is not. -/
inductive Lined : List (List Char) → Prop where
  | last {line : List Char} (unbroken : Unbroken line) : Lined [line]
  | cons {line : List Char} {rest : List (List Char)} (ended : EndedLine line)
      (more : Lined rest) : Lined (line :: rest)

/-- A line starts at the front of the text, behind a break, and behind a carriage return that no line
feed follows. -/
def StartsLine (chars : List Char) (j : Nat) : Prop :=
  j = 0 ∨ (1 ≤ j ∧ j ≤ chars.length ∧
    ((∃ c ∈ lineBreaks, chars[j - 1]? = some c) ∨
      (chars[j - 1]? = some '\r' ∧ (j = chars.length ∨ chars[j]? ≠ some '\n'))))

theorem isBreak_iff {c : Char} : isBreak c = true ↔ c ∈ lineBreaks := by
  simp [isBreak, lineBreaks, or_assoc]

theorem endsLine_iff {c : Char} {rest : List Char} :
    endsLine c rest = true ↔ c ∈ lineBreaks ∨ (c = '\r' ∧ rest.head? ≠ some '\n') := by
  simp [endsLine, isBreak_iff]

/-! ### Starts -/

theorem mem_laterStarts_iff {i j : Nat} {chars : List Char} :
    j ∈ laterStarts i chars ↔
      ∃ k c, chars[k]? = some c ∧ endsLine c (chars.drop (k + 1)) = true ∧ j = i + k + 1 := by
  induction chars generalizing i with
  | nil => simp [laterStarts]
  | cons d rest ih =>
    have here : j ∈ laterStarts i (d :: rest) ↔
        (endsLine d rest = true ∧ j = i + 1) ∨ j ∈ laterStarts (i + 1) rest := by
      rw [laterStarts]
      by_cases ends : endsLine d rest = true <;> simp [ends]
    rw [here, ih]
    refine Iff.trans ?_ Nat.or_exists_add_one
    refine or_congr (by simp) (exists_congr fun k => exists_congr fun c => ?_)
    rw [List.getElem?_cons_succ, List.drop_succ_cons, Nat.add_right_comm i 1 k, Nat.add_assoc i k 1]

theorem mem_lineStarts_iff {chars : List Char} {j : Nat} :
    j ∈ lineStarts chars ↔ StartsLine chars j := by
  rw [lineStarts, List.mem_cons, mem_laterStarts_iff, StartsLine]
  refine or_congr_right ?_
  constructor
  · rintro ⟨k, c, read, ends, rfl⟩
    obtain ⟨inside, -⟩ := List.getElem?_eq_some_iff.mp read
    simp only [Nat.zero_add, Nat.add_sub_cancel]
    refine ⟨by omega, by omega, ?_⟩
    rcases endsLine_iff.mp ends with mem | ⟨rfl, next⟩
    · exact .inl ⟨c, mem, read⟩
    · exact .inr ⟨read, .inr (by simpa [List.head?_drop] using next)⟩
  · rintro ⟨positive, inside, ends⟩
    obtain ⟨k, rfl⟩ := Nat.exists_eq_add_one.mpr positive
    simp only [Nat.add_sub_cancel] at ends
    rcases ends with ⟨c, mem, read⟩ | ⟨read, next⟩
    · exact ⟨k, c, read, endsLine_iff.mpr (.inl mem), by omega⟩
    · refine ⟨k, '\r', read, endsLine_iff.mpr (.inr ⟨rfl, ?_⟩), by omega⟩
      rw [List.head?_drop]
      rcases next with atEnd | next
      · simp [atEnd]
      · exact next

/-! ### Cuts -/

def linesOf : List Char → List (List Char)
  | [] => [[]]
  | c :: rest =>
    if endsLine c rest then [c] :: linesOf rest else (linesOf rest).modifyHead (c :: ·)

/-- The index at which each line starts, if the first one starts at `i`. -/
def startsOf (i : Nat) : List (List Char) → List Nat
  | [] => []
  | line :: rest => i :: startsOf (i + line.length) rest

theorem linesOf_cons_of_ends {c : Char} {rest : List Char} (ends : endsLine c rest = true) :
    linesOf (c :: rest) = [c] :: linesOf rest := by
  rw [linesOf, if_pos ends]

theorem exists_linesOf (chars : List Char) : ∃ line rest, linesOf chars = line :: rest := by
  induction chars with
  | nil => exact ⟨[], [], rfl⟩
  | cons c rest ih =>
    obtain ⟨line, more, lines⟩ := ih
    by_cases ends : endsLine c rest = true
    · exact ⟨_, _, linesOf_cons_of_ends ends⟩
    · exact ⟨c :: line, more, by rw [linesOf, if_neg ends, lines]; rfl⟩

/-- A character that does not end its line goes before the first line of what follows. -/
theorem linesOf_cons_of_not_ends {c : Char} {rest : List Char} (more : ¬ endsLine c rest = true) :
    ∃ line later, linesOf rest = line :: later ∧ linesOf (c :: rest) = (c :: line) :: later := by
  obtain ⟨line, later, lines⟩ := exists_linesOf rest
  exact ⟨line, later, lines, by rw [linesOf, if_neg more, lines]; rfl⟩

theorem flatten_linesOf (chars : List Char) : (linesOf chars).flatten = chars := by
  induction chars with
  | nil => rfl
  | cons c rest ih =>
    by_cases ends : endsLine c rest = true
    · rw [linesOf_cons_of_ends ends, List.flatten_cons, ih, List.singleton_append]
    · obtain ⟨line, more, lines, cut⟩ := linesOf_cons_of_not_ends ends
      rw [lines, List.flatten_cons] at ih
      rw [cut, List.flatten_cons, List.cons_append, ih]

theorem laterStarts_eq (i : Nat) (chars : List Char) :
    i :: laterStarts i chars = startsOf i (linesOf chars) := by
  induction chars generalizing i with
  | nil => rfl
  | cons c rest ih =>
    by_cases ends : endsLine c rest = true
    · rw [laterStarts, if_pos ends, linesOf_cons_of_ends ends, startsOf, ih]
      rfl
    · obtain ⟨line, more, lines, cut⟩ := linesOf_cons_of_not_ends ends
      have later := ih (i + 1)
      rw [lines, startsOf, List.cons.injEq] at later
      rw [laterStarts, if_neg ends, cut, startsOf, later.2, List.length_cons,
        Nat.add_right_comm, ← Nat.add_assoc]

theorem lined_linesOf (chars : List Char) : Lined (linesOf chars) := by
  induction chars with
  | nil => exact .last (by simp [Unbroken])
  | cons c rest ih =>
    by_cases ends : endsLine c rest = true
    · rw [linesOf_cons_of_ends ends]
      refine .cons ⟨[], [c], rfl, by simp [Unbroken], ?_⟩ ih
      rcases endsLine_iff.mp ends with mem | ⟨rfl, -⟩
      · exact .single mem
      · exact .carriageReturn
    · obtain ⟨line, more, lines, cut⟩ := linesOf_cons_of_not_ends ends
      rw [lines] at ih
      rw [cut]
      simp only [endsLine_iff, not_or, not_and, Decidable.not_not] at ends
      by_cases carriage : c = '\r'
      · -- The line feed behind it ends the line, which holds nothing else.
        subst carriage
        obtain ⟨behind, rfl⟩ := List.head?_eq_some_iff.mp (ends.2 rfl)
        rw [linesOf_cons_of_ends (by simp [endsLine, isBreak])] at lines
        obtain ⟨rfl, -⟩ := List.cons.inj lines
        cases ih with
        | last unbroken => exact absurd (unbroken '\n' (by simp)).2 (by decide)
        | cons _ rest => exact .cons ⟨[], _, rfl, by simp [Unbroken], .returnAndFeed⟩ rest
      · have plain : ∀ {body}, Unbroken body → Unbroken (c :: body) := fun unbroken =>
          List.forall_mem_cons.mpr ⟨⟨carriage, ends.1⟩, unbroken⟩
        cases ih with
        | last unbroken => exact .last (plain unbroken)
        | cons ended rest =>
          obtain ⟨body, ending, rfl, unbroken, single⟩ := ended
          exact .cons ⟨c :: body, ending, rfl, plain unbroken, single⟩ rest

/-! ### Lines of a text -/

theorem slice_flatten {lines : List (List Char)} {k : Nat} (inside : k < lines.length) :
    (lines.flatten.drop (lines.take k).flatten.length).take lines[k].length = lines[k] := by
  have cut : lines.flatten =
      (lines.take k).flatten ++ (lines[k] ++ (lines.drop (k + 1)).flatten) := by
    rw [← List.flatten_cons, ← List.drop_eq_getElem_cons inside, ← List.flatten_append,
      List.take_append_drop]
  rw [cut, List.drop_left, List.take_left]

theorem length_flatten_take_succ {lines : List (List Char)} {k : Nat} (inside : k < lines.length) :
    (lines.take (k + 1)).flatten.length = (lines.take k).flatten.length + lines[k].length := by
  rw [List.take_succ_eq_append_getElem inside, List.flatten_append, List.length_append,
    List.flatten_singleton]

theorem length_startsOf (i : Nat) (lines : List (List Char)) :
    (startsOf i lines).length = lines.length := by
  induction lines generalizing i with
  | nil => rfl
  | cons line rest ih => rw [startsOf, List.length_cons, ih, List.length_cons]

theorem getElem?_startsOf {i k : Nat} {lines : List (List Char)} (inside : k < lines.length) :
    (startsOf i lines)[k]? = some (i + (lines.take k).flatten.length) := by
  induction lines generalizing i k with
  | nil => simp at inside
  | cons line rest ih =>
    cases k with
    | zero => simp [startsOf]
    | succ k =>
      rw [startsOf, List.getElem?_cons_succ, ih (by simpa using inside)]
      simp [Nat.add_assoc]

namespace Text

variable (t : Text)

theorem lineStart?_succ (k : Nat) : t.lineStart? (k + 1) = t.lineStarts[k]? := rfl

theorem lineStarts_eq_startsOf : t.lineStarts.toList = startsOf 0 (linesOf t.chars) := by
  rw [t.lineStarts_eq, ParseKit.lineStarts, laterStarts_eq, chars]

theorem lineCount_eq : t.lineCount = (linesOf t.chars).length := by
  rw [lineCount, ← Array.length_toList, lineStarts_eq_startsOf, length_startsOf]

/-- Line `k + 1` starts behind the first `k` lines. -/
theorem lineStart?_eq {k : Nat} (inside : k < (linesOf t.chars).length) :
    t.lineStart? (k + 1) = some ((linesOf t.chars).take k).flatten.length := by
  rw [lineStart?_succ, ← Array.getElem?_toList, lineStarts_eq_startsOf, getElem?_startsOf inside,
    Nat.zero_add]

/-- The next line, or the end of the text, lies right behind line `k + 1`. -/
theorem lineStop_eq {k : Nat} (inside : k < (linesOf t.chars).length) :
    t.lineStarts[k + 1]?.getD t.size = ((linesOf t.chars).take (k + 1)).flatten.length := by
  rw [← Array.getElem?_toList, lineStarts_eq_startsOf]
  by_cases more : k + 1 < (linesOf t.chars).length
  · rw [getElem?_startsOf more, Nat.zero_add, Option.getD_some]
  · rw [List.getElem?_eq_none (by rw [length_startsOf]; omega), List.take_of_length_le (by omega),
      flatten_linesOf, length_chars, Option.getD_none]

theorem lineLength?_eq {k : Nat} (inside : k < (linesOf t.chars).length) :
    t.lineLength? (k + 1) = some (linesOf t.chars)[k].length := by
  have stop := t.lineStop_eq inside
  rw [length_flatten_take_succ inside] at stop
  rw [lineLength?_of_le (t.lineStart?_eq inside) (stop ▸ Nat.le_add_right _ _), stop,
    Nat.add_sub_cancel_left]

theorem lineChars?_eq {k : Nat} (inside : k < (linesOf t.chars).length) :
    t.lineChars? (k + 1) = some (linesOf t.chars)[k] := by
  have fits := (List.take_sublist (k + 1) (linesOf t.chars)).flatten.length_le
  rw [length_flatten_take_succ inside, flatten_linesOf, length_chars] at fits
  have cut := slice_flatten inside
  rw [flatten_linesOf] at cut
  rw [lineChars?, lineStart?_eq t inside, lineLength?_eq t inside]
  exact (t.slice?_eq fits).trans (congrArg some cut)

/-- The starts ascend, a line starts exactly where one has to, and between them lie the lines of the
text, each but the last with one ending. -/
theorem lineStarts_cut_lines :
    t.lineStarts.toList.Pairwise (· < ·) ∧
    (∀ j, j ∈ t.lineStarts ↔ StartsLine t.chars j) ∧
    ∃ lines, (List.range' 1 t.lineCount).map t.lineContent? =
        lines.map (fun line => some (.ofList line)) ∧
      lines.flatten = t.chars ∧ Lined lines := by
  refine ⟨t.lineStarts_ascending, fun j => ?_, linesOf t.chars, ?_, flatten_linesOf t.chars,
    lined_linesOf t.chars⟩
  · rw [← Array.mem_toList_iff, t.lineStarts_eq]
    exact mem_lineStarts_iff
  · apply List.ext_getElem (by simp [lineCount_eq])
    intro k _ inside
    rw [List.length_map] at inside
    simp only [List.getElem_map, List.getElem_range', Nat.one_mul, Nat.add_comm 1 k]
    rw [lineContent?, lineChars?_eq t inside, Option.map_some]

end Text

end ParseKit
