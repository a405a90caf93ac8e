import ParseKit.Symbol

/-!
Tokens as a lexer hands them to a parser. A token does not carry its text: its index locates it
among the tokens of the lexed text.
-/

namespace ParseKit

structure Token where
  terminalId : UInt32
  index : UInt32
deriving DecidableEq

/-- The token of an exhausted source. -/
def Token.epsilon : Token := ⟨Symbol.epsilonId, 0⟩

instance : Inhabited Token := ⟨Token.epsilon⟩

instance : ToString Token :=
  ⟨fun token => "Token(sid=" ++ toString token.terminalId ++ ", #" ++ toString token.index ++ ")"⟩

end ParseKit
