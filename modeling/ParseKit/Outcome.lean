import ParseKit.Diagnostic
import ParseKit.Tree.View

/-!
What a parser hands back: its errors, its input and, on success, a tree. A parse can succeed in
spite of errors that the parser got over.
-/

namespace ParseKit

structure Outcome (terminals : TerminalTable) where
  errors : List Diagnostic
  grammar : Grammar
  input : Lexed terminals
  tree : Option SyntaxTree

namespace Outcome

variable {terminals : TerminalTable}

def isSuccess (o : Outcome terminals) : Bool := o.tree.isSome

def view? (o : Outcome terminals) : Option (View terminals) := o.tree.map fun tree => ⟨o.grammar, o.input, tree⟩

def root? (o : Outcome terminals) : Option NodeId := o.tree.bind SyntaxTree.root

end Outcome

end ParseKit
