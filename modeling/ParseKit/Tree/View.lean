import ParseKit.Lexer.Lexed
import ParseKit.Tree.Basic

/-!
Syntax trees read together with the text and the symbols that their labels point into.
-/

namespace ParseKit

inductive NodeSymbol where
  | token (lexeme : Lexeme)
  | nonterminal (symbol : Symbol)
  | virtual (symbol : Symbol)
deriving DecidableEq

namespace NodeSymbol

def symbol : NodeSymbol → Symbol
  | token lexeme => lexeme.symbol
  | nonterminal symbol => symbol
  | virtual symbol => symbol

def kind : NodeSymbol → Label.Kind
  | token _ => .token
  | nonterminal _ => .nonterminal
  | virtual _ => .virtual

instance : ToString NodeSymbol where
  toString
    | token lexeme => toString lexeme
    | nonterminal symbol => toString symbol
    | virtual symbol => toString symbol

end NodeSymbol

structure Grammar where
  nonterminals : Array Symbol
  virtuals : Array Symbol
deriving DecidableEq

structure View (terminals : TerminalTable) where
  grammar : Grammar
  text : Lexed terminals
  tree : SyntaxTree

namespace View

variable {terminals : TerminalTable}

def symbol (v : View terminals) (id : NodeId) : Except Violation (Option NodeSymbol) := do
  let label ← v.tree.label id
  match label.kind with
  | .none => return none
  | .token => return some (.token (← inBounds (v.text.lexeme? label.index)))
  | .nonterminal =>
    return some (.nonterminal (← inBounds v.grammar.nonterminals[label.index]?))
  | .virtual => return some (.virtual (← inBounds v.grammar.virtuals[label.index]?))

/-- What `read` finds at a token node; other nodes have nothing to read. -/
def ofToken {α : Type} (v : View terminals) (id : NodeId) (read : Nat → Option α) :
    Except Violation (Option α) := do
  let label ← v.tree.label id
  if label.kind = .token then return some (← inBounds (read label.index)) else return none

def position (v : View terminals) (id : NodeId) : Except Violation (Option Position) :=
  v.ofToken id v.text.position?

def span (v : View terminals) (id : NodeId) : Except Violation (Option Span) :=
  v.ofToken id v.text.span?

def display (v : View terminals) (id : NodeId) : Except Violation String :=
  (v.symbol id).map fun
    | some symbol => toString symbol
    | none => ""

def describe (v : View terminals) (id : NodeId) : Except Violation String :=
  (v.tree.label id).map fun label =>
    "AstNode(" ++ toString id.raw ++ ", " ++ toString label ++ ")"

instance : ToString (View terminals) :=
  ⟨fun v =>
    let root := match v.tree.root with
      | some id => "Some(NodeId(" ++ toString id.raw ++ "))"
      | none => "None"
    "AstView \x7b nodes: " ++ toString v.tree.nodeCount ++ ", root: " ++ root ++ ", .. \x7d"⟩

def render (v : View terminals) : Nat → NodeId → Except Violation String
  | 0, id => v.display id
  | depth + 1, id => do
    let text ← v.display id
    let parts ← v.tree.forChildren id (v.render depth)
    return if parts.isEmpty then text else text ++ "(" ++ " ".intercalate parts ++ ")"

end View

/-- A node of one of several trees. Nodes of different trees differ, whatever their numbers. -/
structure Handle where
  tree : Nat
  id : NodeId
deriving DecidableEq

/-! ### Walking over children -/

/-- The children of a node that a walk has not met yet: those from `front` to before `back`. -/
structure Children where
  parent : NodeId
  front : Nat
  back : Nat
deriving DecidableEq

namespace Children

def ofNode (t : SyntaxTree) (id : NodeId) : Except Violation Children :=
  (t.childCount id).map fun count => ⟨id, 0, count⟩

def length (c : Children) : Nat := c.back - c.front

def next (t : SyntaxTree) (c : Children) : Except Violation (Option NodeId × Children) :=
  if c.front < c.back then
    (t.child c.parent c.front).map fun id => (some id, { c with front := c.front + 1 })
  else .ok (none, c)

def nextBack (t : SyntaxTree) (c : Children) : Except Violation (Option NodeId × Children) :=
  if c.front < c.back then
    (t.child c.parent (c.back - 1)).map fun id => (some id, { c with back := c.back - 1 })
  else .ok (none, c)

end Children

end ParseKit
