import ParseKit.Numeral
import ParseKit.Symbol
import ParseKit.Text.Location

/-!
Errors found in the input of a parser, and their wording.
-/

namespace ParseKit

inductive Diagnostic where
  | unexpectedChar (character : Char) (position : Position)
  /-- The parser does not accept this token; `expected` are the terminals that it does accept. -/
  | unexpectedToken (value : String) (position : Position) (expected : List Symbol)
deriving DecidableEq

namespace Diagnostic

def code : Diagnostic → String
  | unexpectedChar .. => "E0001"
  | unexpectedToken .. => "E1001"

def position : Diagnostic → Position
  | unexpectedChar _ position => position
  | unexpectedToken _ position _ => position

def expectation (expected : List Symbol) : String :=
  if expected.isEmpty then "" else "; expected: " ++ ", ".intercalate (expected.map Symbol.name)

def message : Diagnostic → String
  | unexpectedChar c position =>
    "@" ++ toString position ++ " Unexpected character '" ++ c.toString ++ "' (U+" ++
      upperHex4 c.toNat ++ ")"
  | unexpectedToken value position expected =>
    "@" ++ toString position ++ " Unexpected token \"" ++ value ++ "\"" ++ expectation expected

end Diagnostic

end ParseKit
