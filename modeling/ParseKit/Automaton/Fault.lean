/-!
What can be wrong with the bytes of an automaton.
-/

namespace ParseKit

inductive Fault where
  | tooShort (expected actual : Nat)
  | negativeStateCount (count : Int)
  | noStates
  | oddCellBytes (length : Nat)
  | blockOutOfBounds (state : Nat) (offset : UInt32) (cells : Nat)
  | missingTarget (state : Nat) (target : UInt16) (states : Nat)
deriving DecidableEq

def Fault.message : Fault → String
  | tooShort expected actual =>
    "automaton too short: expected at least " ++ toString expected ++ " bytes, got " ++
      toString actual
  | negativeStateCount count => "negative state count " ++ toString count
  | noStates => "automaton has no states; state 0 is required"
  | oddCellBytes length =>
    "state cells occupy an odd number of bytes (" ++ toString length ++ ")"
  | blockOutOfBounds state offset cells =>
    "state " ++ toString state ++ " at cell offset " ++ toString offset ++
      " runs past the end of the table (" ++ toString cells ++ " cells)"
  | missingTarget state target states =>
    "state " ++ toString state ++ " has a transition to " ++ toString target ++
      ", but there are only " ++ toString states ++ " states"

end ParseKit
