import ParseKit.Proofs.Tree.NodeStore

/-!
# Walks through a stored tree

`SyntaxTree.Preorder` walks from a node over all that lies below it, each node before its children.
From the root of a committed block such a walk meets the inserted nodes of the block, in the order in
which they were staged: `commit_preorder`. This takes 32-bit numbers for all places in the runs, and
`commit_of_full` says what happens to the first run that has none.
-/

namespace ParseKit

namespace Shape

mutual

def labels : Shape → List Label
  | node label children => label :: labelsAll children

def labelsAll : List Shape → List Label
  | [] => []
  | shape :: rest => labels shape ++ labelsAll rest

end

theorem labelsAll_eq (shapes : List Shape) : labelsAll shapes = (shapes.map labels).flatten := by
  induction shapes with
  | nil => rfl
  | cons shape rest ih => rw [labelsAll, ih, List.map_cons, List.flatten_cons]

theorem labelsAll_append (shapes more : List Shape) :
    labelsAll (shapes ++ more) = labelsAll shapes ++ labelsAll more := by
  simp [labelsAll_eq]

end Shape

namespace Block

def insertedLabels (entries : List Entry) : List Label :=
  (entries.filter fun entry => entry.action = .insert).map Entry.label

/-- The labels of the inserted nodes, as they are staged. -/
def inserted (block : Block) : List Label := insertedLabels block.listing

theorem insertedLabels_append (entries more : List Entry) :
    insertedLabels (entries ++ more) = insertedLabels entries ++ insertedLabels more := by
  simp [insertedLabels]

theorem inserted_replace (label : Label) (children : List Block) :
    (node label .replace children).inserted = insertedLabels (listingAll children) := by
  simp [inserted, listing, insertedLabels]

theorem inserted_insert (label : Label) (children : List Block) :
    (node label .insert children).inserted = label :: insertedLabels (listingAll children) := by
  simp [inserted, listing, insertedLabels]

mutual

theorem labels_shapes : ∀ block : Block, Shape.labelsAll block.shapes = block.inserted
  | node label .replace children => by
    rw [shapes, inserted_replace, labels_shapesAll children]
  | node label .insert children => by
    rw [shapes, inserted_insert, Shape.labelsAll, Shape.labelsAll, Shape.labels,
      labels_shapesAll children, List.append_nil]

theorem labels_shapesAll : ∀ blocks : List Block,
    Shape.labelsAll (shapesAll blocks) = insertedLabels (listingAll blocks)
  | [] => rfl
  | block :: rest => by
    rw [shapesAll, listingAll, Shape.labelsAll_append, insertedLabels_append, labels_shapes block,
      labels_shapesAll rest]
    rfl

end

end Block

namespace SyntaxTree

variable {t : SyntaxTree} {id : NodeId}

/-- The walk from a node lists the node, and then what the walks from its children list. -/
inductive Preorder (t : SyntaxTree) : NodeId → List NodeId → Prop where
  | node {id : NodeId} (children : List NodeId) {walks : List (List NodeId)}
      (read : t.children id = .ok children) (same : children.length = walks.length)
      (below : ∀ (i : Nat) (h : i < children.length), Preorder t children[i] walks[i]) :
      Preorder t id (id :: walks.flatten)

theorem preorder_unique {ids ids' : List NodeId} (walk : t.Preorder id ids)
    (walk' : t.Preorder id ids') : ids = ids' := by
  induction walk generalizing ids' with
  | @node id children walks read same _ ih =>
    cases walk' with
    | @node _ children' walks' read' same' below' =>
      obtain rfl : children = children' := Except.ok.inj (read.symm.trans read')
      have equal : walks = walks' := by
        apply List.ext_getElem (same.symm.trans same')
        intro i h h'
        exact ih i (same ▸ h) (below' i (same ▸ h))
      rw [equal]

/-- A walk over a node whose children have no children. -/
theorem preorder_of_leaves {ids : List NodeId} (read : t.children id = .ok ids)
    (leaves : ∀ child ∈ ids, t.children child = .ok []) : t.Preorder id (id :: ids) := by
  have leaf (child : NodeId) (none : t.children child = .ok []) : t.Preorder child [child] :=
    @Preorder.node t child [] [] none rfl fun _ h => absurd h (Nat.not_lt_zero _)
  have flat : (ids.map fun child => [child]).flatten = ids := by
    rw [← List.flatMap_def, List.flatMap_singleton']
  rw [← flat]
  refine .node ids read (List.length_map _).symm fun i h => ?_
  rw [List.getElem_map]
  exact leaf ids[i] (leaves _ (List.getElem_mem h))

theorem preorder_of_denotes {cell : Cell} {shape : Shape} (denotes : t.Denotes cell shape)
    (stored : t.cell id = .ok cell) :
    ∃ ids, t.Preorder id ids ∧ ids.mapM t.label = .ok shape.labels := by
  simp only [mapM_eq_ok]
  induction denotes generalizing id with
  | @node cell children shapes width read same _ ih =>
    have each (i : Fin children.length) : ∃ child walk, t.slot cell i = .ok child ∧
        t.Preorder child walk ∧
        List.Forall₂ (fun id label => t.label id = .ok label) walk
          (shapes.get (i.cast same)).labels := by
      obtain ⟨child, slot, below⟩ := bind_eq_ok.mp (read i i.isLt)
      obtain ⟨walk, preorder, labels⟩ := ih i i.isLt below
      exact ⟨child, walk, slot, preorder, labels⟩
    choose child walk slot preorder labels using each
    refine ⟨id :: (List.ofFn walk).flatten, .node (List.ofFn child) ?_ (by simp) ?_, ?_⟩
    · refine children_eq_ok.mpr ⟨cell, stored, by simp [width], fun i h => ?_⟩
      rw [List.getElem_ofFn]
      exact slot ⟨i, _⟩
    · intro i h
      rw [List.getElem_ofFn, List.getElem_ofFn]
      exact preorder ⟨i, _⟩
    · have lists : List.Forall₂ (List.Forall₂ fun id label => t.label id = .ok label)
          (List.ofFn walk) (shapes.map Shape.labels) := by
        refine List.forall₂_iff_get.mpr ⟨by simp [same], fun i h h' => ?_⟩
        simpa using labels ⟨i, by simpa using h⟩
      rw [Shape.labels, Shape.labelsAll_eq]
      exact .cons (by rw [label, stored]; rfl) (List.rel_flatten lists)

end SyntaxTree

namespace Staging

theorem commit_preorder {label : Label} {children : List Block}
    (narrow : (Block.node label .insert children).Narrow) (t : SyntaxTree) :
    ∃ id t', (ofBlock (.node label .insert children)).commit t = .ok (id, t') ∧ t'.root = some id ∧
      (t'.Numbered → ∃ ids, (∀ other, t'.Preorder id other ↔ other = ids) ∧
        ids.mapM t'.label = .ok (Block.node label .insert children).inserted) := by
  obtain ⟨root, below, lowered, committed⟩ := commit_ofBlock narrow t
  refine ⟨_, _, committed, rfl, fun numbered => ?_⟩
  have grown := below.storeRoot_extends root
  have before := SyntaxTree.numbered_of_extends grown numbered
  have denoted := Block.lower_denotes_of_few (.node label .insert children) t
  rw [lowered] at denoted
  have denotes := denoted (.inr before.1) (SyntaxTree.indexable_of_numbered before)
  rw [Block.shapes, List.forall₂_cons] at denotes
  obtain ⟨ids, walk, labels⟩ := SyntaxTree.preorder_of_denotes
    (SyntaxTree.denotes_of_extends grown denotes.1)
    (SyntaxTree.cell_storeRoot (Nat.le_of_lt numbered.1))
  refine ⟨ids, fun other => ⟨fun again => SyntaxTree.preorder_unique again walk, ?_⟩, ?_⟩
  · rintro rfl
    exact walk
  · refine labels.trans ?_
    rw [← Block.labels_shapes, Block.shapes, Shape.labelsAll, Shape.labelsAll, List.append_nil]

end Staging

/-! ### Graphs whose list of children is full -/

def Block.leaf (label : Label) : Block := .node label .insert []

theorem Block.lowerAll_leaves (labels : List Label) (t : SyntaxTree) :
    lowerAll (labels.map leaf) t = (labels.map Cell.leaf, t) := by
  induction labels with
  | nil => rfl
  | cons label rest ih =>
    rw [List.map_cons, lowerAll_cons]
    show ([Cell.leaf label] ++ (lowerAll (rest.map leaf) t).1, (lowerAll (rest.map leaf) t).2) = _
    rw [ih]
    rfl

theorem Block.narrow_leaves (label : Label) {labels : List Label}
    (few : labels.length < UInt32.size) : (node label .insert (labels.map leaf)).Narrow := by
  refine ⟨by rwa [List.length_map], ?_⟩
  clear few
  induction labels with
  | nil => trivial
  | cons label rest ih => exact ⟨⟨by decide, trivial⟩, ih⟩

section

variable {t : SyntaxTree} {adjacency : Array NodeId} (layout : t.layout = .graph adjacency)
  (full : adjacency.size = UInt32.size)
include layout full

/-- The place behind the last entry has no number. A parent whose children are listed from there on
takes the entries at the front for its children. -/
theorem SyntaxTree.names_adopt_of_full (label : Label) {cells : List Cell}
    (few : cells.length < UInt32.size) :
    (t.adopt label cells).2.Names (t.adopt label cells).1 (adjacency.toList.take cells.length) := by
  have entries : adjacency.toList.length = UInt32.size := Array.length_toList.trans full
  have listed : (adjacency.toList.take cells.length).length = cells.length :=
    List.length_take_of_le (entries ▸ Nat.le_of_lt few)
  unfold adopt
  split
  · next none =>
    rw [List.isEmpty_iff.mp none]
    exact t.names_leaf label 0
  · refine ⟨(UInt32.toNat_ofNat_of_lt' few).trans listed.symm, fun i h => ?_⟩
    rw [List.getElem_take, Array.getElem_toList]
    exact slot_storeChildren_of_full layout full cells label _ (by omega)

/-- There, the children of a committed parent are not the leaves that were staged below it. -/
theorem Staging.commit_of_full (label : Label) (leaves : List Label)
    (few : t.nodeCount + leaves.length < UInt32.size) :
    ∃ id t', (ofBlock (.node label .insert (leaves.map .leaf))).commit t = .ok (id, t') ∧
      t'.root = some id ∧ t'.nodeCount = t.nodeCount + leaves.length + 1 ∧
      id.index + 1 = t'.nodeCount ∧ t.Extends t' ∧
      t'.children id = .ok (adjacency.toList.take leaves.length) := by
  have short : (leaves.map Cell.leaf).length = leaves.length := List.length_map _
  obtain ⟨root, below, lowered, committed⟩ :=
    commit_ofBlock (Block.narrow_leaves label (by omega : leaves.length < UInt32.size)) t
  have adopted : t.adopt label (leaves.map .leaf) = (root, below) := by
    simpa [Block.lower_insert, Block.lowerAll_leaves, Prod.ext_iff] using lowered
  have names := SyntaxTree.names_adopt_of_full layout full label
    (by omega : (leaves.map Cell.leaf).length < UInt32.size)
  have grown := t.adopt_extends label (leaves.map .leaf)
  have count := t.nodeCount_adopt label (leaves.map .leaf)
  rw [adopted, short] at names count
  rw [adopted] at grown
  have total := below.nodeCount_storeRoot root
  rw [count] at total
  obtain ⟨width, slots⟩ := SyntaxTree.names_of_extends (below.storeRoot_extends root) names
  refine ⟨_, _, committed, rfl, total, SyntaxTree.index_storeRoot (total ▸ few),
    SyntaxTree.extends_trans grown (below.storeRoot_extends root), ?_⟩
  exact SyntaxTree.children_eq_ok.mpr ⟨root, SyntaxTree.cell_storeRoot (total ▸ few), width, slots⟩

end

end ParseKit
