import ParseKit.Proofs.Text.Positions
import ParseKit.Text.Excerpt

/-!
# Excerpts

What is displayed under a line has to line up with it. `Excerpt.LinesUp` says what that takes, and
`Text.excerpt_lines_up` finds it at every position of every text. The cuts stay inside the line exactly
if the column does (`isSome_ofLine?`).
-/

namespace ParseKit

/-- The excerpt shows a line, which is `body` with its ending behind it, and points at `length`
characters from `column` on. Columns count from 1, and one past the line counts as its end. -/
structure Excerpt.LinesUp (e : Excerpt) (body ending : List Char) (column length : Nat) : Prop where
  unbroken : Unbroken e.content.toList
  trimmed : e.content.toList = body ∨ e.content.toList = body.dropWhile isBlank
  /-- The indentation is kept where the column lies inside it. -/
  whole_iff : e.content.toList = body ↔
    min (column - 1) (body ++ ending).length < (body.takeWhile isBlank).length ∨
      body.takeWhile isBlank = []
  carets : ∃ lead, e.pointer.toList = lead ++ List.replicate (max length 1) '^' ∧
    (∀ c ∈ lead, c = ' ' ∨ c = '\t') ∧
    (∀ j, j < lead.length → j < e.content.toList.length →
      (lead[j]? = some '\t' ↔ e.content.toList[j]? = some '\t')) ∧
    (1 ≤ column → column ≤ body.length → e.content.toList[lead.length]? = body[column - 1]?)

/-- The excerpt lines up with the line of `place`. -/
def Text.Shows (t : Text) (place : Position) (length : Nat) (e : Excerpt) : Prop :=
  ∃ body ending, t.lineChars? place.line = some (body ++ ending) ∧ Unbroken body ∧
    (ending = [] ∨ LineEnding ending) ∧ e.LinesUp body ending place.column length

/-! ### The parts of a line -/

theorem isLineEnding_iff {c : Char} : isLineEnding c = true ↔ c = '\r' ∨ c ∈ lineBreaks := by
  simp [isLineEnding, isBreak_iff]

theorem not_isLineEnding_of_unbroken {body : List Char} (unbroken : Unbroken body) :
    ∀ c ∈ body, ¬ isLineEnding c = true := by
  intro c mem
  rw [isLineEnding_iff, not_or]
  exact unbroken c mem

theorem isLineEnding_of_lineEnding {ending : List Char} (ends : LineEnding ending) :
    ∀ c ∈ ending, isLineEnding c = true := by
  cases ends with
  | single mem => simpa [isLineEnding_iff] using .inr mem
  | carriageReturn => simp [isLineEnding]
  | returnAndFeed => simp [isLineEnding, isBreak]

theorem parts_of_lined {lines : List (List Char)} (lined : Lined lines) :
    ∀ line ∈ lines, ∃ body ending, line = body ++ ending ∧ Unbroken body ∧
      (ending = [] ∨ LineEnding ending) := by
  induction lined with
  | last unbroken =>
    intro line mem
    obtain rfl := List.mem_singleton.mp mem
    exact ⟨line, [], (List.append_nil _).symm, unbroken, .inl rfl⟩
  | cons ended _ ih =>
    intro line mem
    rcases List.mem_cons.mp mem with rfl | mem
    · obtain ⟨body, ending, parts, unbroken, ends⟩ := ended
      exact ⟨body, ending, parts, unbroken, .inr ends⟩
    · exact ih line mem

theorem lineBody_append {body ending : List Char} (unbroken : Unbroken body)
    (ends : ending = [] ∨ LineEnding ending) : lineBody (body ++ ending) = body := by
  have all : ∀ c ∈ ending.reverse, isLineEnding c = true := by
    rcases ends with rfl | ends
    · simp
    · simpa using isLineEnding_of_lineEnding ends
  have none : body.reverse.dropWhile isLineEnding = body.reverse := by
    cases backward : body.reverse with
    | nil => rfl
    | cons c rest =>
      have last : c ∈ body := List.mem_reverse.mp (backward ▸ List.mem_cons_self)
      rw [List.dropWhile_cons_of_neg (not_isLineEnding_of_unbroken unbroken c last)]
  rw [lineBody, List.reverse_append, List.dropWhile_append_of_pos all, none, List.reverse_reverse]

theorem drop_length_takeWhile (p : Char → Bool) (chars : List Char) :
    chars.drop (chars.takeWhile p).length = chars.dropWhile p := by
  have split : (chars.takeWhile p ++ chars.dropWhile p).drop (chars.takeWhile p).length =
      chars.dropWhile p := List.drop_left
  rwa [List.takeWhile_append_dropWhile] at split

theorem dropWhile_eq_self_iff {p : Char → Bool} {chars : List Char} :
    chars.dropWhile p = chars ↔ chars.takeWhile p = [] := by
  constructor
  · intro same
    have split := List.takeWhile_append_dropWhile (p := p) (l := chars)
    rw [same] at split
    exact List.append_left_eq_self.mp split
  · intro none
    rw [← drop_length_takeWhile, none, List.length_nil, List.drop_zero]

/-- A line begins with what is left of it without its ending. -/
theorem lineBody_prefix (line : List Char) : lineBody line <+: line := by
  have kept := List.reverse_prefix.mpr (List.dropWhile_suffix (l := line.reverse) isLineEnding)
  rwa [List.reverse_reverse] at kept

/-! ### The pointer -/

theorem padding_blank (c : Char) : padding c = ' ' ∨ padding c = '\t' := by
  unfold padding
  split
  · exact .inr rfl
  · exact .inl rfl

theorem padding_eq_tab_iff {c : Char} : padding c = '\t' ↔ c = '\t' := by
  unfold padding
  split
  · next tab => simpa using tab
  · next other => simpa using other

/-- The part of a line that the pointer leaves blank, cut off in front as the content is. -/
def Excerpt.lead (line : List Char) (first column : Nat) : List Char :=
  ((line.take column).drop first).map padding

theorem Excerpt.length_lead {line : List Char} {first column : Nat} (inside : column ≤ line.length) :
    (lead line first column).length = column - first := by
  simp [lead, Nat.min_eq_left inside]

/-- Place by place, the blank part of the pointer has a tab where the content has one. -/
theorem Excerpt.lead_tab_iff {body ending : List Char} {first column j : Nat}
    (inside : column ≤ (body ++ ending).length)
    (left : j < (lead (body ++ ending) first column).length) (right : j < (body.drop first).length) :
    (lead (body ++ ending) first column)[j]? = some '\t' ↔ (body.drop first)[j]? = some '\t' := by
  rw [length_lead inside] at left
  rw [List.length_drop] at right
  have same : (lead (body ++ ending) first column)[j]? = body[first + j]?.map padding := by
    rw [lead, List.getElem?_map, List.getElem?_drop, List.getElem?_take_of_lt (by omega),
      List.getElem?_append_left (by omega)]
  rw [same, List.getElem?_drop, List.getElem?_eq_getElem (by omega)]
  simp [padding_eq_tab_iff]

theorem Excerpt.below_lead {body ending : List Char} {first column : Nat}
    (before : first ≤ column - 1) (inside : column - 1 < body.length) :
    (body.drop first)[(lead (body ++ ending) first (min (column - 1) (body ++ ending).length)).length]? =
      body[column - 1]? := by
  have within : column - 1 ≤ (body ++ ending).length := by
    rw [List.length_append]
    omega
  rw [Nat.min_eq_left within, length_lead within, List.getElem?_drop, Nat.add_sub_cancel' before]

/-! ### Cutting a line -/

namespace Excerpt

theorem cutOf_le_length (line : List Char) (column : Nat) :
    cutOf line column ≤ (lineBody line).length := by
  have indent := (List.takeWhile_sublist (l := lineBody line) isBlank).length_le
  unfold cutOf
  dsimp only
  split <;> omega

theorem cutOf_le (line : List Char) (column : Nat) : cutOf line column ≤ column := by
  unfold cutOf
  dsimp only
  split <;> omega

/-- Neither the content nor the pointer reaches out of the line. -/
theorem ofLine?_eq {line : List Char} {column : Nat} (inside : column ≤ line.length) (length : Nat) :
    ofLine? line column length =
      some ⟨.ofList ((lineBody line).drop (cutOf line column)),
        .ofList (lead line (cutOf line column) column ++ List.replicate (max length 1) '^')⟩ := by
  have body := lineBody_prefix line
  have content := slice?_of_le (cutOf_le_length line column) body.length_le
  rw [← List.prefix_iff_eq_take.mp body] at content
  rw [ofLine?, content, slice?_of_le (cutOf_le line column) inside]
  rfl

theorem isSome_ofLine? {line : List Char} {column length : Nat} :
    (ofLine? line column length).isSome ↔ column ≤ line.length := by
  by_cases inside : column ≤ line.length
  · simp [ofLine?_eq inside, inside]
  · simp [ofLine?, slice?_eq_none (Nat.not_le.mp inside), inside]

/-- A line cut at its front or behind its indentation, with the pointer cut at the same place. -/
theorem linesUp_of_cut {e : Excerpt} {body ending : List Char} {first column length : Nat}
    (unbroken : Unbroken body) (content : e.content.toList = body.drop first)
    (pointer : e.pointer.toList = lead (body ++ ending) first (min (column - 1) (body ++ ending).length) ++
      List.replicate (max length 1) '^')
    (start : first = if min (column - 1) (body ++ ending).length < (body.takeWhile isBlank).length then 0
      else (body.takeWhile isBlank).length) : e.LinesUp body ending column length := by
  have within := Nat.min_le_right (column - 1) (body ++ ending).length
  have before : first ≤ min (column - 1) (body ++ ending).length := by
    split at start <;> omega
  refine ⟨?unbroken, ?trimmed, ?whole, _, pointer, ?blank, ?tabs, ?below⟩
  case unbroken =>
    rw [content]
    exact fun c mem => unbroken c (List.mem_of_mem_drop mem)
  case trimmed =>
    rw [content, start]
    split
    · exact .inl List.drop_zero
    · exact .inr (drop_length_takeWhile isBlank body)
  case whole =>
    rw [content, start]
    split
    · next kept => simp only [List.drop_zero, kept, true_or]
    · next cut => rw [drop_length_takeWhile, dropWhile_eq_self_iff, or_iff_right cut]
  case blank =>
    intro c mem
    obtain ⟨d, -, rfl⟩ := List.mem_map.mp mem
    exact padding_blank d
  case tabs =>
    rw [content]
    exact fun j left right => lead_tab_iff within left right
  case below =>
    rw [content]
    exact fun positive inside => below_lead (Nat.le_trans before (Nat.min_le_left _ _)) (by omega)

/-- The column, which is moved to the end of the line if it lies behind it, can always be shown. -/
theorem exists_linesUp {body ending : List Char} (unbroken : Unbroken body)
    (ends : ending = [] ∨ LineEnding ending) (column length : Nat) :
    ∃ e, ofLine? (body ++ ending) (min (column - 1) (body ++ ending).length) length = some e ∧
      e.LinesUp body ending column length := by
  have shown := ofLine?_eq (Nat.min_le_right (column - 1) (body ++ ending).length) length
  refine ⟨_, shown, linesUp_of_cut unbroken ?_ String.toList_ofList ?_⟩
  · rw [String.toList_ofList, lineBody_append unbroken ends]
  · rw [cutOf, lineBody_append unbroken ends]

end Excerpt

/-! ### Excerpts of a text -/

namespace Text

theorem exists_parts (t : Text) {line : Nat} (first : 1 ≤ line) (last : line ≤ t.lineCount) :
    ∃ body ending, t.lineChars? line = some (body ++ ending) ∧ Unbroken body ∧
      (ending = [] ∨ LineEnding ending) := by
  obtain ⟨k, rfl⟩ := Nat.exists_eq_add_one.mpr first
  have inside : k < (linesOf t.chars).length := t.lineCount_eq ▸ last
  obtain ⟨body, ending, parts, kept⟩ :=
    parts_of_lined (lined_linesOf t.chars) _ (List.getElem_mem inside)
  exact ⟨body, ending, by rw [t.lineChars?_eq inside, parts], kept⟩

theorem exists_excerpt (t : Text) {place : Position} {length : Nat} (first : 1 ≤ place.line)
    (last : place.line ≤ t.lineCount) (small : length ≤ maxCarets) :
    ∃ e, t.excerpt? place length = some e ∧ t.Shows place length e := by
  obtain ⟨body, ending, read, unbroken, ends⟩ := t.exists_parts first last
  obtain ⟨e, found, linesUp⟩ := Excerpt.exists_linesUp unbroken ends place.column length
  refine ⟨e, ?_, body, ending, read, unbroken, ends, linesUp⟩
  rw [excerpt?, read]
  exact (if_pos small).trans found

/-- Every line can be shown, at every column and by every span, and the carets line up with it. -/
theorem excerpt_lines_up (t : Text) :
    (∀ (place : Position) (length : Nat), 1 ≤ place.line → place.line ≤ t.lineCount →
      length ≤ maxCarets → ∃ e, t.excerpt? place length = some e ∧ t.Shows place length e) ∧
    (t.size + 1 < wordLimit → ∀ span : Span, span.index ≤ t.size → span.length ≤ maxCarets →
      ∃ place e, t.locate? span.index = some place ∧ t.excerptOf? span = some e ∧
        t.Shows place span.length e) := by
  refine ⟨fun place length first last small => t.exists_excerpt first last small, ?_⟩
  intro fits span inside small
  have located : t.locate? span.index = some (t.positionAt span.index) := locate?_eq (by omega)
  obtain ⟨e, found, displays⟩ : ∃ e, t.excerpt? (t.positionAt span.index) span.length = some e ∧
      t.Shows (t.positionAt span.index) span.length e :=
    t.exists_excerpt (t.one_le_lineAt span.index) (t.lineAt_le_lineCount span.index) small
  refine ⟨_, e, located, ?_, displays⟩
  rw [excerptOf?, located]
  exact found

/-- A line with indentation that ends with a carriage return and a line feed, shown from its second
letter on, and by a span that starts in the indentation. -/
theorem excerpt_lines_up_indented :
    let t := ofList ['x', '\n', ' ', '\t', 'f', 'o', 'o', '\r', '\n']
    (t.excerpt? ⟨2, 4⟩ 2 = some ⟨"foo", " ^^"⟩ ∧ t.Shows ⟨2, 4⟩ 2 ⟨"foo", " ^^"⟩) ∧
      t.size + 1 < wordLimit ∧ t.locate? 3 = some ⟨2, 2⟩ ∧
      t.excerptOf? ⟨3, 4⟩ = some ⟨" \tfoo", " ^^^^"⟩ ∧ t.Shows ⟨2, 2⟩ 4 ⟨" \tfoo", " ^^^^"⟩ := by
  intro t
  obtain ⟨places, spans⟩ := excerpt_lines_up t
  have fits : t.size + 1 < wordLimit := by decide
  have cut : t.excerpt? ⟨2, 4⟩ 2 = some ⟨"foo", " ^^"⟩ := by decide
  have index : t.locate? 3 = some ⟨2, 2⟩ := by decide
  have whole : t.excerptOf? ⟨3, 4⟩ = some ⟨" \tfoo", " ^^^^"⟩ := by decide
  refine ⟨⟨cut, ?_⟩, fits, index, whole, ?_⟩
  · obtain ⟨e, found, displays⟩ := places ⟨2, 4⟩ 2 (by decide) (by decide) (by decide)
    obtain rfl := Option.some.inj (cut.symm.trans found)
    exact displays
  · obtain ⟨place, e, located, found, displays⟩ := spans fits ⟨3, 4⟩ (by decide) (by decide)
    obtain rfl := Option.some.inj (index.symm.trans located)
    obtain rfl := Option.some.inj (whole.symm.trans found)
    exact displays

end Text

end ParseKit
