import ParseKit.Tree.Block

/-!
Buffers in which a parser stages the nodes of a sub-tree. Child counts are set by the parser and
not checked before a commit, which stores the first block of the buffer.
-/

namespace ParseKit

structure Staging where
  entries : Array Entry
deriving DecidableEq

namespace Staging

def empty : Staging := ⟨#[]⟩

def entryBytes : Nat := 12

def maxBytes : Nat := 0x7FFFFFFFFFFFFFFF

/-- An empty buffer with room for `capacity` nodes, refused where no memory could hold them. -/
def withCapacity (capacity : Nat) : Except Violation Staging :=
  if entryBytes * capacity ≤ maxBytes then .ok empty else .error .outOfBounds

def length (s : Staging) : Nat := s.entries.size

def isEmpty (s : Staging) : Bool := s.entries.isEmpty

def push (s : Staging) (label : Label) (action : Action) : Nat × Staging :=
  (s.length, ⟨s.entries.push ⟨label, 0, action⟩⟩)

def append (s other : Staging) : Staging := ⟨s.entries ++ other.entries⟩

def entryAt? (s : Staging) (index : Nat) : Option Entry := s.entries[index]?

def change (s : Staging) (index : Nat) (f : Entry → Entry) : Except Violation Staging :=
  if index < s.length then .ok ⟨s.entries.modify index f⟩ else .error .outOfBounds

def setAction (s : Staging) (index : Nat) (action : Action) : Except Violation Staging :=
  s.change index fun entry => { entry with action }

/-- Sets the number of child blocks of a staged node, of which the low 32 bits are kept. -/
def setChildCount (s : Staging) (index count : Nat) : Except Violation Staging :=
  s.change index fun entry => { entry with count := .ofNat count }

/-- Adds up `n` strides through a buffer from `index` on. A stride counts a node and its child
count, and goes on by as much. -/
def strides (s : Staging) (index : Nat) : Nat → Except Violation Nat
  | 0 => .ok 0
  | n + 1 => do
    let entry ← inBounds (s.entryAt? index)
    let stride := entry.count.toNat + 1
    return stride + (← s.strides (index + stride) n)

/-- The number of nodes in the top two levels: an inserted root and its children, or the strides
below a replaced root. -/
def topSize (s : Staging) : Except Violation Nat := do
  let root ← inBounds (s.entryAt? 0)
  match root.action with
  | .insert => return root.count.toNat + 1
  | .replace => s.strides 1 root.count.toNat

def commitInto (s : Staging) (t : SyntaxTree) : Except Violation (List Cell × SyntaxTree) :=
  if s.isEmpty then .error .emptyStaging
  else (inBounds (Block.ofEntries s.entries.toList).head?).map fun block => block.lower t

def commit (s : Staging) (t : SyntaxTree) : Except Violation (NodeId × SyntaxTree) :=
  if (s.entryAt? 0).map Entry.action = some .insert then do
    let (cells, t) ← s.commitInto t
    let root ← inBounds cells.head?
    return t.storeRoot root
  else .error .rootNotInserted

end Staging

end ParseKit
