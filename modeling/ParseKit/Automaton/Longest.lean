import ParseKit.Automaton.Basic

/-!
The longest match of an automaton at the front of a text.

The walk follows the text from the initial state, character by character, and stops at a state
marked as a dead end, at the end of the text, or where no transition leads on. The match is the
last state met after at least one character that recognizes a terminal.
-/

namespace ParseKit

structure Match where
  terminal : UInt16
  length : Nat
  length_pos : 0 < length
deriving DecidableEq

def Match.extend (m : Match) : Match := ⟨m.terminal, m.length + 1, Nat.succ_pos _⟩

namespace Automaton

/-- The match of the walk from `s` over `chars`: what is recognized later wins over what is
recognized after the first character. -/
def matchFrom (a : Automaton) (s : a.State) : List Char → Option Match
  | [] => none
  | c :: rest =>
    if a.isDeadEnd s then none
    else
      match a.step? s c with
      | none => none
      | some q =>
        match a.matchFrom q rest with
        | some m => some m.extend
        | none => (a.terminal? q).map fun terminal => ⟨terminal, 1, Nat.one_pos⟩

def longestMatch? (a : Automaton) (chars : List Char) : Option Match :=
  a.matchFrom a.initial chars

end Automaton

end ParseKit
