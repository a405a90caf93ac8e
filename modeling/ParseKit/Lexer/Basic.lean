import ParseKit.Automaton.Longest
import ParseKit.Lexer.Lexed
import ParseKit.Lexer.Reports

/-!
The lexer. It cuts the text into longest matches of its automaton. Matches of the separator are
skipped; a character at which nothing matches is reported and skipped. After the last character
comes one end-of-input token without characters, and after that the empty token forever.
-/

namespace ParseKit

structure Lexer (terminals : TerminalTable) where
  automaton : Automaton
  /-- The number of the terminal that is not handed out. -/
  separator : UInt32
  output : Lexed terminals
  cursor : Nat
  rest : List Char
  rest_eq : rest = output.text.chars.drop cursor
  /-- Whether the end-of-input token has been handed out. -/
  finished : Bool
  reports : Reports

namespace Lexer

variable {terminals : TerminalTable}

def ofText (automaton : Automaton) (terminals : TerminalTable) (separator : UInt32)
    (text : Text) : Lexer terminals :=
  { automaton, separator, output := .ofText terminals text, cursor := 0, rest := text.chars,
    rest_eq := rfl, finished := false, reports := .empty }

def skip (l : Lexer terminals) (length : Nat) : Lexer terminals :=
  { l with
    cursor := l.cursor + length
    rest := l.rest.drop length
    rest_eq := by rw [l.rest_eq, List.drop_drop] }

def report (l : Lexer terminals) (c : Char) : Lexer terminals :=
  let error := .unexpectedChar c (l.output.text.positionAt l.cursor)
  { l with reports := l.reports.add error }

def emit (l : Lexer terminals) (row : terminals.Row) (length : Nat) : Lexer terminals :=
  { l with output := l.output.push row ⟨l.cursor, length⟩ }.skip length

def finish (l : Lexer terminals) : Lexer terminals :=
  { l with output := l.output.push terminals.dollar ⟨l.output.text.size, 0⟩,
           finished := true }

def tokenOf (l : Lexer terminals) (row : terminals.Row) : Token :=
  ⟨(terminals.symbol row).id, .ofNat l.output.tokenCount⟩

theorem rest_skip (l : Lexer terminals) (length : Nat) :
    (l.skip length).rest = l.rest.drop length := rfl

theorem length_rest_skip_lt {l : Lexer terminals} {c : Char} {tail : List Char} (h : l.rest = c :: tail)
    {length : Nat} (pos : 0 < length) : (l.skip length).rest.length < l.rest.length := by
  rw [rest_skip, List.length_drop, h, List.length_cons]
  omega

/-- The next token. Refused when the automaton recognizes a terminal that the table lacks. -/
def next (l : Lexer terminals) : Except Violation (Token × Lexer terminals) :=
  if l.finished then .ok (.epsilon, l)
  else
    match _h : l.rest with
    | [] => .ok (l.tokenOf terminals.dollar, l.finish)
    | c :: _ =>
      match l.automaton.longestMatch? l.rest with
      | none => ((l.report c).skip 1).next
      | some m =>
        match terminals.row? m.terminal with
        | none => .error .outOfBounds
        | some row =>
          if (terminals.symbol row).id = l.separator then (l.skip m.length).next
          else .ok (l.tokenOf row, l.emit row m.length)
termination_by l.rest.length
decreasing_by
  · exact length_rest_skip_lt (l := l.report c) _h Nat.one_pos
  · exact length_rest_skip_lt _h m.length_pos

/-- The next token up to the end-of-input token, and nothing after it. -/
def next? (l : Lexer terminals) : Except Violation (Option Token × Lexer terminals) :=
  if l.finished then .ok (none, l)
  else l.next.map fun (token, l) => (some token, l)

def pending (l : Lexer terminals) : Nat := if l.finished then 0 else l.rest.length + 1

theorem pending_le (l : Lexer terminals) : l.pending ≤ l.rest.length + 1 := by
  unfold pending
  split <;> omega

theorem pending_of_unfinished {l : Lexer terminals} (h : l.finished = false) :
    l.pending = l.rest.length + 1 := by
  simp [pending, h]

theorem length_rest_emit_lt {l : Lexer terminals} {c : Char} {tail : List Char} (h : l.rest = c :: tail)
    (row : terminals.Row) {length : Nat} (pos : 0 < length) :
    (l.emit row length).rest.length < l.rest.length :=
  length_rest_skip_lt (l := { l with output := l.output.push row ⟨l.cursor, length⟩ }) h pos

theorem pending_next_lt {l l' : Lexer terminals} {token : Token} (h : l.next = .ok (token, l'))
    (unfinished : l.finished = false) : l'.pending < l.pending := by
  rw [pending_of_unfinished unfinished]
  fun_induction Lexer.next l with
  | case1 l done => simp [done] at unfinished
  | case2 l _ empty =>
    cases h
    simp [pending, finish]
  | case3 l _ c tail rest none ih =>
    have shorter := length_rest_skip_lt (l := l.report c) rest Nat.one_pos
    have later := ih h unfinished
    have same : (l.report c).rest.length = l.rest.length := rfl
    omega
  | case4 => cases h
  | case5 l _ c tail rest m found row _ separator ih =>
    have shorter := length_rest_skip_lt rest m.length_pos
    have later := ih h unfinished
    omega
  | case6 l _ c tail rest m found row _ other =>
    cases h
    have shorter := length_rest_emit_lt rest row m.length_pos
    have bound := (l.emit row m.length).pending_le
    omega

def collect (l : Lexer terminals) : Except Violation (List Token × Lexer terminals) :=
  if _h : l.finished then .ok ([], l)
  else
    match _step : l.next with
    | .error e => .error e
    | .ok (token, l') => l'.collect.map fun (tokens, last) => (token :: tokens, last)
termination_by l.pending
decreasing_by exact pending_next_lt _step (by simpa using _h)

def tokenize (l : Lexer terminals) : Except Violation (Lexer terminals) := l.collect.map Prod.snd

def registerHandler (l : Lexer terminals) : Lexer terminals := { l with reports := l.reports.register }

def takeErrors (l : Lexer terminals) : List Diagnostic × Lexer terminals :=
  (l.reports.take.1, { l with reports := l.reports.take.2 })

instance : ToString (Lexer terminals) :=
  ⟨fun l => "Lexer \x7b separator: " ++ toString l.separator ++ ", input_index: " ++
    toString l.cursor ++ ", tokens: " ++ toString l.output.tokenCount ++ ", finished: " ++
    toString l.finished ++ ", .. \x7d"⟩

end Lexer

end ParseKit
