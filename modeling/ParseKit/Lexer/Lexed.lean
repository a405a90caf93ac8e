import ParseKit.Text.Excerpt
import ParseKit.Token

/-!
A text together with the tokens found in it. A token is kept as a `Mark`: the row of its terminal
and its span. Tokens are only ever added at the end.
-/

namespace ParseKit

structure Mark (terminals : TerminalTable) where
  row : terminals.Row
  span : Span
deriving DecidableEq

def Mark.symbol {terminals : TerminalTable} (mark : Mark terminals) : Symbol :=
  terminals.symbol mark.row

structure Lexed (terminals : TerminalTable) where
  text : Text
  marks : Array (Mark terminals)
deriving DecidableEq

namespace Lexed

variable {terminals : TerminalTable}

def ofText (terminals : TerminalTable) (text : Text) : Lexed terminals := ⟨text, #[]⟩

def push (l : Lexed terminals) (row : terminals.Row) (span : Span) : Lexed terminals :=
  { l with marks := l.marks.push ⟨row, span⟩ }

def tokenCount (l : Lexed terminals) : Nat := l.marks.size

def terminal? (l : Lexed terminals) (index : Nat) : Option Symbol :=
  l.marks[index]?.map Mark.symbol

def token? (l : Lexed terminals) (index : Nat) : Option Token :=
  (l.terminal? index).map fun symbol => ⟨symbol.id, .ofNat index⟩

def span? (l : Lexed terminals) (index : Nat) : Option Span := l.marks[index]?.map Mark.span

def lexeme? (l : Lexed terminals) (index : Nat) : Option Lexeme := do
  let symbol ← l.terminal? index
  let span ← l.span? index
  let value ← l.text.valueOf? span
  return ⟨symbol, value⟩

def position? (l : Lexed terminals) (index : Nat) : Option Position :=
  (l.span? index).map fun span => l.text.positionAt span.index

def excerpt? (l : Lexed terminals) (index : Nat) : Option Excerpt :=
  (l.span? index).bind l.text.excerptOf?

def tokens (l : Lexed terminals) : List Token :=
  l.marks.toList.mapIdx fun index mark => ⟨mark.symbol.id, .ofNat index⟩

end Lexed

end ParseKit
