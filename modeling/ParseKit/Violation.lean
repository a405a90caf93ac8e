import ParseKit.Numeral

/-!
Calls outside an operation's contract. Every operation that refuses an argument says why with a
`Violation`; `Violation.message?` is its wording.
-/

namespace ParseKit

/-- Why an operation refuses its arguments. -/
inductive Violation where
  /-- An index or a range reaches outside the table that it reads. -/
  | outOfBounds
  | indexTooLarge (index : Nat)
  | missingDollar
  | badRange (low high : UInt16)
  | tooManyStates
  | rewindTooFar (count window : Nat)
  | noSuchChild (index : Nat) (node count : UInt32)
  | adjacencyOutsideGraph
  | symbolOutsideGraph
  | emptyStaging
  | rootNotInserted
deriving DecidableEq

/-- The wording of a violation; reading outside a table has none. -/
def Violation.message? : Violation → Option String
  | .outOfBounds => none
  | .indexTooLarge index =>
    some ("symbol index " ++ toString index ++ " (0x" ++ upperHex index ++ ") exceeds 0x3FFFFFFF")
  | .missingDollar => some "terminal table must start with epsilon and dollar"
  | .badRange low high =>
    some ("range transitions cover values >= 256, got 0x" ++ upperHex low.toNat ++ "..=0x" ++
      upperHex high.toNat)
  | .tooManyStates => some "automaton exceeds 65535 states"
  | .rewindTooFar count window =>
    some ("cannot rewind " ++ toString count ++ " tokens; only " ++ toString window ++
      " can be replayed")
  | .noSuchChild index node count =>
    some ("child " ++ toString index ++ " of node " ++ toString node ++ " which has " ++
      toString count ++ " children")
  | .adjacencyOutsideGraph => some "adjacency requires a graph-layout AST"
  | .symbolOutsideGraph => some "store_symbol requires a graph-layout AST"
  | .emptyStaging => some "cannot commit an empty sub-tree"
  | .rootNotInserted => some "the root of an AST must be an inserted node"

def inBounds {α : Type} : Option α → Except Violation α
  | some a => .ok a
  | none => .error .outOfBounds

@[simp] theorem inBounds_some {α : Type} (a : α) : inBounds (some a) = .ok a := rfl

@[simp] theorem inBounds_none {α : Type} : inBounds (none : Option α) = .error .outOfBounds := rfl

@[simp] theorem inBounds_eq_ok {α : Type} {read : Option α} {a : α} :
    inBounds read = .ok a ↔ read = some a := by
  cases read <;> simp

/-! ### Operations that go through -/

section

variable {ε α β : Type}

theorem bind_eq_ok {x : Except ε α} {f : α → Except ε β} {b : β} :
    x >>= f = .ok b ↔ ∃ a, x = .ok a ∧ f a = .ok b := by
  cases x <;> simp [bind, Except.bind]

theorem map_eq_ok {x : Except ε α} {f : α → β} {b : β} :
    x.map f = .ok b ↔ ∃ a, x = .ok a ∧ f a = b := by
  cases x <;> simp [Except.map]

theorem pure_eq_ok {a b : α} : (pure a : Except ε α) = .ok b ↔ a = b := by
  simp [pure, Except.pure]

theorem exists_of_toOption_any {x : Except ε α} {p : α → Bool} (check : x.toOption.any p = true) :
    ∃ a, x = .ok a ∧ p a = true := by
  cases x with
  | error => contradiction
  | ok a => exact ⟨a, rfl, check⟩

theorem ok_bind (a : α) (f : α → Except ε β) : (Except.ok a >>= f) = f a := rfl

theorem map_ok (a : α) (f : α → β) : (Except.ok a : Except ε α).map f = .ok (f a) := rfl

end

end ParseKit
