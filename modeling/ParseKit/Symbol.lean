import ParseKit.Violation

/-!
Grammar symbols and the table of terminals of a grammar. Row 0 of every terminal table is the
empty terminal and row 1 the end of input, so a `TerminalTable` has at least two rows.
-/

namespace ParseKit

structure Symbol where
  id : UInt32
  name : String
deriving DecidableEq

instance : ToString Symbol := ⟨Symbol.name⟩

def Symbol.epsilonId : UInt32 := 1

def Symbol.dollarId : UInt32 := 2

structure Lexeme where
  symbol : Symbol
  value : String
deriving DecidableEq

instance : ToString Lexeme := ⟨Lexeme.value⟩

structure TerminalTable where
  symbols : Array Symbol
  dollar_lt : 1 < symbols.size
deriving DecidableEq

namespace TerminalTable

def epsilonRow : UInt16 := 0

def dollarRow : UInt16 := 1

/-- A table from its rows, refused without a row for the end of input. -/
def ofArray (symbols : Array Symbol) : Except Violation TerminalTable :=
  if h : 1 < symbols.size then .ok ⟨symbols, h⟩ else .error .missingDollar

abbrev Row (table : TerminalTable) := Fin table.symbols.size

def dollar (table : TerminalTable) : table.Row := ⟨1, table.dollar_lt⟩

def row? (table : TerminalTable) (number : UInt16) : Option table.Row :=
  if h : number.toNat < table.symbols.size then some ⟨number.toNat, h⟩ else none

def symbol (table : TerminalTable) (row : table.Row) : Symbol := table.symbols[row]

end TerminalTable

end ParseKit
