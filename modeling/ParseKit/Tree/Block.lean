import ParseKit.Tree.Basic

/-!
Nodes that wait to be stored, as a list in pre-order: each node is followed by the blocks of its
children, as many as its child count says. `Block.ofEntries` reads the complete blocks at the
front of such a list, and `Block.lower` stores what lies below a block, children first. An
inserted node becomes one child of its parent; a replaced node vanishes, and its parent adopts its
children.
-/

namespace ParseKit

inductive Action where
  /-- The node becomes one child of its parent. -/
  | insert
  /-- The node vanishes, and its children become children of its parent. -/
  | replace
deriving DecidableEq

instance : Inhabited Action := ⟨.insert⟩

structure Entry where
  label : Label
  count : UInt32
  action : Action
deriving DecidableEq

inductive Block where
  | node (label : Label) (action : Action) (children : List Block)

def SyntaxTree.adopt (t : SyntaxTree) (label : Label) (cells : List Cell) : Cell × SyntaxTree :=
  if cells.isEmpty then (.leaf label, t)
  else (⟨label, .ofNat cells.length, (t.storeChildren cells).1⟩, (t.storeChildren cells).2)

namespace Block

/-- Puts a node in front of complete blocks. It takes as many of them as it counts; if there are
fewer, its own block is incomplete, and no complete block comes first any more. -/
def attach (entry : Entry) (blocks : List Block) : List Block :=
  let children := blocks.take entry.count.toNat
  if children.length = entry.count.toNat then
    node entry.label entry.action children :: blocks.drop entry.count.toNat
  else []

def ofEntries (entries : List Entry) : List Block := entries.foldr attach []

mutual

/-- Stores all that lies below a block and gives the cells that its parent adopts. -/
def lower : Block → SyntaxTree → List Cell × SyntaxTree
  | node label action children, t =>
    let (cells, t) := lowerAll children t
    match action with
    | .replace => (cells, t)
    | .insert =>
      let (cell, t) := t.adopt label cells
      ([cell], t)

def lowerAll : List Block → SyntaxTree → List Cell × SyntaxTree
  | [], t => ([], t)
  | block :: rest, t =>
    let (cells, t) := lower block t
    let (more, t) := lowerAll rest t
    (cells ++ more, t)

end

end Block

end ParseKit
