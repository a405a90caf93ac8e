import ParseKit.Label

/-!
Storage of syntax trees. The nodes of a tree lie in one array of cells. A cell names its children
as a run, `count` entries from `first` on: of the node array itself in the tree layout, of an
array of node numbers in the graph layout, where a node can be the child of several others.
-/

namespace ParseKit

structure NodeId where
  raw : UInt32
deriving DecidableEq

namespace NodeId

def ofIndex (index : Nat) : NodeId := ⟨.ofNat index⟩

def index (id : NodeId) : Nat := id.raw.toNat

end NodeId

structure Cell where
  label : Label
  count : UInt32
  first : UInt32
deriving DecidableEq

def Cell.leaf (label : Label) : Cell := ⟨label, 0, 0⟩

inductive Layout where
  /-- The run lies in the node array. -/
  | tree
  /-- The run lies in an array of node numbers. -/
  | graph (adjacency : Array NodeId)
deriving DecidableEq

structure SyntaxTree where
  layout : Layout
  nodes : Array Cell
  root : Option NodeId
deriving DecidableEq

namespace SyntaxTree

def emptyTree : SyntaxTree := ⟨.tree, #[], none⟩

def emptyGraph : SyntaxTree := ⟨.graph #[], #[], none⟩

def isGraph (t : SyntaxTree) : Bool :=
  match t.layout with
  | .tree => false
  | .graph _ => true

def nodeCount (t : SyntaxTree) : Nat := t.nodes.size

def nextId (t : SyntaxTree) : NodeId := .ofIndex t.nodeCount

def adjacency (t : SyntaxTree) : Except Violation (Array NodeId) :=
  match t.layout with
  | .tree => .error .adjacencyOutsideGraph
  | .graph adjacency => .ok adjacency

/-! ### Storing -/

def store (t : SyntaxTree) (cells : List Cell) : NodeId × SyntaxTree :=
  (t.nextId, { t with nodes := t.nodes ++ cells })

def nextIds (t : SyntaxTree) (n : Nat) : List NodeId :=
  (List.range n).map fun i => .ofIndex (t.nodeCount + i)

def storeChildren (t : SyntaxTree) (cells : List Cell) : UInt32 × SyntaxTree :=
  match t.layout with
  | .tree => ((t.store cells).1.raw, (t.store cells).2)
  | .graph adjacency =>
    (.ofNat adjacency.size,
      { t with
        layout := .graph (adjacency ++ t.nextIds cells.length)
        nodes := t.nodes ++ cells })

def storeRoot (t : SyntaxTree) (cell : Cell) : NodeId × SyntaxTree :=
  (t.nextId, { t with nodes := t.nodes.push cell, root := some t.nextId })

def storeSymbol (t : SyntaxTree) (label : Label) : Except Violation (NodeId × SyntaxTree) :=
  if t.isGraph then .ok (t.store [.leaf label]) else .error .symbolOutsideGraph

def storeAdjacents (t : SyntaxTree) (ids : List NodeId) :
    Except Violation (UInt32 × SyntaxTree) := do
  let adjacency ← t.adjacency
  return (.ofNat adjacency.size, { t with layout := .graph (adjacency ++ ids) })

def cell (t : SyntaxTree) (id : NodeId) : Except Violation Cell :=
  inBounds t.nodes[id.index]?

def run (adjacency : Array NodeId) (cell : Cell) : Except Violation (List NodeId) :=
  if cell.first.toNat + cell.count.toNat ≤ adjacency.size then
    .ok ((adjacency.toList.drop cell.first.toNat).take cell.count.toNat)
  else .error .outOfBounds

def adjacents (t : SyntaxTree) (id : NodeId) : Except Violation (List NodeId) := do
  let cell ← t.cell id
  run (← t.adjacency) cell

/-- Stores a copy of a node of a graph. The copy has the same children, in a run of its own. -/
def copyNode (t : SyntaxTree) (id : NodeId) : Except Violation (NodeId × SyntaxTree) := do
  let cell ← t.cell id
  let adjacency ← t.adjacency
  if cell.count = 0 then return t.store [.leaf cell.label]
  else
    let ids ← run adjacency cell
    let t := { t with layout := .graph (adjacency ++ ids) }
    return t.store [{ cell with first := .ofNat adjacency.size }]

def setAdjacents (t : SyntaxTree) (id : NodeId) (ids : List NodeId) :
    Except Violation SyntaxTree := do
  let (first, t) ← t.storeAdjacents ids
  let cell ← t.cell id
  let cell := { cell with first, count := .ofNat ids.length }
  return { t with nodes := t.nodes.setIfInBounds id.index cell }

/-! ### Reading -/

def label (t : SyntaxTree) (id : NodeId) : Except Violation Label :=
  (t.cell id).map Cell.label

def childCount (t : SyntaxTree) (id : NodeId) : Except Violation Nat :=
  (t.cell id).map fun cell => cell.count.toNat

/-- The node at place `i` of the run that a cell names. -/
def slot (t : SyntaxTree) (cell : Cell) (i : Nat) : Except Violation NodeId :=
  match t.layout with
  | .tree => .ok (.ofIndex (cell.first.toNat + i))
  | .graph adjacency => inBounds adjacency[cell.first.toNat + i]?

def child (t : SyntaxTree) (id : NodeId) (i : Nat) : Except Violation NodeId := do
  let cell ← t.cell id
  if i < cell.count.toNat then t.slot cell i else throw (.noSuchChild i id.raw cell.count)

/-- What `visit` finds at `count` children of a node, from number `i` on, after what was found
before. The first child that it refuses ends the visit. -/
def visitChildren {α : Type} (t : SyntaxTree) (id : NodeId) (visit : NodeId → Except Violation α)
    (found : Array α) (i : Nat) : (count : Nat) → Except Violation (Array α)
  | 0 => .ok found
  | count + 1 => do
    let child ← t.child id i
    let result ← visit child
    t.visitChildren id visit (found.push result) (i + 1) count

def forChildren {α : Type} (t : SyntaxTree) (id : NodeId) (visit : NodeId → Except Violation α) :
    Except Violation (List α) := do
  let count ← t.childCount id
  return (← t.visitChildren id visit #[] 0 count).toList

theorem visitChildren_eq {α : Type} (t : SyntaxTree) (id : NodeId)
    (visit : NodeId → Except Violation α) (found : Array α) (i count : Nat) :
    t.visitChildren id visit found i count =
      (do
        let results ← (List.range' i count).mapM fun i => t.child id i >>= visit
        return found ++ results) := by
  induction count generalizing found i with
  | zero => simp [visitChildren]; rfl
  | succ count ih =>
    simp only [visitChildren, List.range'_succ, List.mapM_cons, bind_assoc, ih]
    simp

theorem forChildren_eq {α : Type} (t : SyntaxTree) (id : NodeId)
    (visit : NodeId → Except Violation α) :
    t.forChildren id visit =
      (do
        let count ← t.childCount id
        (List.range count).mapM fun i => t.child id i >>= visit) := by
  simp [forChildren, visitChildren_eq, List.range_eq_range']

def children (t : SyntaxTree) (id : NodeId) : Except Violation (List NodeId) :=
  t.forChildren id pure

end SyntaxTree

end ParseKit
