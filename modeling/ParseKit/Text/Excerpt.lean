import ParseKit.Text.Basic
import ParseKit.Text.Blank

/-!
The line of a position, shown with carets under the place. The line loses its ending, and its
indentation unless the place lies inside it; tabs before the place are kept in the pointer, so
that the carets line up when both are displayed.
-/

namespace ParseKit

structure Excerpt where
  content : String
  pointer : String
deriving DecidableEq

instance : ToString Excerpt := ⟨fun e => e.content ++ "\n" ++ e.pointer⟩

/-- The longest run of carets that memory could hold. -/
def maxCarets : Nat := 0x7FFFFFFFFFFFFFFF

def lineBody (line : List Char) : List Char :=
  (line.reverse.dropWhile isLineEnding).reverse

def padding (c : Char) : Char := if c == '\t' then '\t' else ' '

namespace Excerpt

/-- Where a line is cut off in front, if `column` has to stay in it. -/
def cutOf (line : List Char) (column : Nat) : Nat :=
  let indent := ((lineBody line).takeWhile isBlank).length
  if column < indent then 0 else indent

/-- The line without its ending and without what lies before the cut, over a pointer that reaches from
the cut to `column`. -/
def ofLine? (line : List Char) (column length : Nat) : Option Excerpt := do
  let cut := cutOf line column
  let content ← slice? line cut (lineBody line).length
  let lead ← slice? line cut column
  return {
    content := .ofList content
    pointer := .ofList (lead.map padding ++ List.replicate (max length 1) '^') }

end Excerpt

namespace Text

/-- The line of `place` with carets under `length` characters from its column on. A column past
the line's end counts as its end. -/
def excerpt? (t : Text) (place : Position) (length : Nat) : Option Excerpt := do
  let line ← t.lineChars? place.line
  if length ≤ maxCarets then
    Excerpt.ofLine? line (min (place.column - 1) line.length) length
  else none

def excerptOf? (t : Text) (span : Span) : Option Excerpt :=
  (t.locate? span.index).bind fun place => t.excerpt? place span.length

end Text

end ParseKit
