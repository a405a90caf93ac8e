import ParseKit.Diagnostic

/-!
Where the errors of a lexer go: to the handler registered last, or into a pile that can be taken
while there is no handler. A handler is represented by the errors that it has received.
-/

namespace ParseKit

structure Reports where
  /-- Errors found before there was a handler and not taken yet. -/
  uncollected : Array Diagnostic
  /-- What each handler has received, the handler registered last first. -/
  handlers : List (Array Diagnostic)
deriving DecidableEq

namespace Reports

def empty : Reports := ⟨#[], []⟩

def add (r : Reports) (e : Diagnostic) : Reports :=
  match r.handlers with
  | [] => { r with uncollected := r.uncollected.push e }
  | latest :: earlier => { r with handlers := latest.push e :: earlier }

def register (r : Reports) : Reports := { r with handlers := #[] :: r.handlers }

def take (r : Reports) : List Diagnostic × Reports :=
  (r.uncollected.toList, { r with uncollected := #[] })

def handled (r : Reports) : List Diagnostic := r.handlers.reverse.flatMap Array.toList

end Reports

end ParseKit
