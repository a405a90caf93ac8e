/-!
Places in a text. Lines and columns count from 1; indices count characters from 0. All of them
are 64-bit words, so a computed one may be too large to exist.
-/

namespace ParseKit

/-- One more than the largest index, length, line or column. -/
def wordLimit : Nat := UInt64.size

def word? (n : Nat) : Option Nat := if n < wordLimit then some n else none

structure Position where
  line : Nat
  column : Nat
deriving DecidableEq

namespace Position

instance : LT Position :=
  ⟨fun p q => p.line < q.line ∨ (p.line = q.line ∧ p.column < q.column)⟩

instance (p q : Position) : Decidable (p < q) :=
  inferInstanceAs (Decidable (p.line < q.line ∨ (p.line = q.line ∧ p.column < q.column)))

instance : Ord Position := ⟨fun p q => compareOfLessAndEq p q⟩

instance : ToString Position :=
  ⟨fun p => "(" ++ toString p.line ++ ", " ++ toString p.column ++ ")"⟩

end Position

structure Span where
  index : Nat
  length : Nat
deriving DecidableEq

namespace Span

def stop (span : Span) : Nat := span.index + span.length

def stop? (span : Span) : Option Nat := word? span.stop

def isEmpty (span : Span) : Bool := span.length == 0

instance : ToString Span :=
  ⟨fun span => "@" ++ toString span.index ++ "+" ++ toString span.length⟩

end Span

end ParseKit
