import ParseKit.Text.Ascending
import ParseKit.Text.Line
import ParseKit.Text.Location

/-!
A text in memory: its characters, its lines, and the way between indices and positions.
`Text.positionAt` gives the line and column of an index, `Text.lineStart?` the way back;
`positionAt_eq` reads a position off the starts of the lines.
-/

namespace ParseKit

/-- The entries from `start` up to `stop`, if these do not cross and lie inside the list. -/
def slice? {α : Type} (xs : List α) (start stop : Nat) : Option (List α) :=
  if start ≤ stop ∧ stop ≤ xs.length then some ((xs.take stop).drop start) else none

theorem slice?_of_le {α : Type} {xs : List α} {start stop : Nat} (ordered : start ≤ stop)
    (inside : stop ≤ xs.length) : slice? xs start stop = some ((xs.take stop).drop start) :=
  if_pos ⟨ordered, inside⟩

theorem slice?_eq_none {α : Type} {xs : List α} {start stop : Nat} (outside : xs.length < stop) :
    slice? xs start stop = none :=
  if_neg fun bounds => Nat.not_le.mpr outside bounds.2

/-- The characters of a text, together with the index at which each of its lines starts. -/
structure Text where
  content : Array Char
  lineStarts : Array Nat
  lineStarts_eq : lineStarts.toList = ParseKit.lineStarts content.toList
deriving DecidableEq

namespace Text

def ofList (chars : List Char) : Text :=
  ⟨chars.toArray, scanLines chars, toList_scanLines chars⟩

def ofString (s : String) : Text := ofList s.toList

def chars (t : Text) : List Char := t.content.toList

@[simp] theorem chars_ofList (chars : List Char) : (ofList chars).chars = chars := rfl

def size (t : Text) : Nat := t.content.size

theorem length_chars (t : Text) : t.chars.length = t.size := Array.length_toList

def isEnd (t : Text) (index : Nat) : Bool := t.size ≤ index

def charAt? (t : Text) (index : Nat) : Option Char := t.content[index]?

theorem charAt?_eq (t : Text) (index : Nat) : t.charAt? index = t.chars[index]? :=
  Array.getElem?_toList.symm

/-- The `length` characters from `index` on, if the text has them. -/
def slice? (t : Text) (index length : Nat) : Option (List Char) :=
  if index + length ≤ t.size then some (t.content.extract index (index + length)).toList else none

theorem slice?_eq (t : Text) {index length : Nat} (fits : index + length ≤ t.size) :
    t.slice? index length = some ((t.chars.drop index).take length) := by
  rw [slice?, if_pos fits]
  simp [chars]

def value? (t : Text) (index length : Nat) : Option String :=
  (t.slice? index length).map .ofList

def valueOf? (t : Text) (span : Span) : Option String := t.value? span.index span.length

/-! ### Lines -/

theorem lineStarts_ascending (t : Text) : t.lineStarts.toList.Pairwise (· < ·) := by
  rw [t.lineStarts_eq]
  exact ParseKit.lineStarts_ascending _

def lineCount (t : Text) : Nat := t.lineStarts.size

def lineStart? (t : Text) (line : Nat) : Option Nat :=
  if line = 0 then none else t.lineStarts[line - 1]?

/-- The number of characters of a line, its ending counted. -/
def lineLength? (t : Text) (line : Nat) : Option Nat := do
  let start ← t.lineStart? line
  let stop := t.lineStarts[line]?.getD t.size
  if start ≤ stop then some (stop - start) else none

theorem lineLength?_of_le {t : Text} {line start : Nat} (starts : t.lineStart? line = some start)
    (ordered : start ≤ t.lineStarts[line]?.getD t.size) :
    t.lineLength? line = some (t.lineStarts[line]?.getD t.size - start) := by
  rw [lineLength?, starts]
  exact if_pos ordered

def lineChars? (t : Text) (line : Nat) : Option (List Char) := do
  let start ← t.lineStart? line
  let length ← t.lineLength? line
  t.slice? start length

def lineContent? (t : Text) (line : Nat) : Option String := (t.lineChars? line).map .ofList

/-! ### Positions -/

def lineAt (t : Text) (index : Nat) : Nat := countUpTo t.lineStarts index

theorem lineAt_eq (t : Text) (index : Nat) :
    t.lineAt index = ((ParseKit.lineStarts t.chars).takeWhile (· ≤ index)).length := by
  rw [lineAt, countUpTo_eq t.lineStarts_ascending, t.lineStarts_eq, chars]

/-- The line and the column of the character at `index`: the last line that starts at or before
it, and the distance from there. Past the end, columns of the last line go on. -/
def positionAt (t : Text) (index : Nat) : Position :=
  ⟨t.lineAt index, index - t.lineStarts.getD (t.lineAt index - 1) 0 + 1⟩

theorem positionAt_eq (t : Text) (index : Nat) :
    let started := (ParseKit.lineStarts t.chars).takeWhile (· ≤ index)
    t.positionAt index = ⟨started.length, index - started.getLastD 0 + 1⟩ := by
  have nonempty : 0 < ((ParseKit.lineStarts t.chars).takeWhile (· ≤ index)).length := by
    simp [ParseKit.lineStarts]
  have last : t.lineStarts.getD (t.lineAt index - 1) 0 =
      ((ParseKit.lineStarts t.chars).takeWhile (· ≤ index)).getLastD 0 := by
    rw [Array.getD_eq_getD_getElem?, ← Array.getElem?_toList, t.lineStarts_eq, lineAt_eq, chars,
      List.getLastD_eq_getLast?, List.getLast?_eq_getElem?]
    have inside : ((ParseKit.lineStarts t.chars).takeWhile (· ≤ index)).length - 1 <
        ((ParseKit.lineStarts t.chars).takeWhile (· ≤ index)).length := by omega
    exact congrArg (fun start => Option.getD start 0)
      ((List.prefix_iff_getElem?.mp (List.takeWhile_prefix _) _ inside).trans
        (List.getElem?_eq_getElem inside).symm)
  rw [positionAt, last, lineAt_eq]

/-- The line and the column of the character at `index`, if the column is a word. -/
def locate? (t : Text) (index : Nat) : Option Position :=
  (word? (t.positionAt index).column).map fun _ => t.positionAt index

end Text

end ParseKit
