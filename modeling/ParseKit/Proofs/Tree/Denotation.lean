import Mathlib.Data.List.Forall2
import ParseKit.Tree.Block

/-!
# Reading cells as trees

`SyntaxTree.Denotes` reads a cell, stored or not, as the root of a finite tree of labels, following
the runs of its layout. Storing only ever adds at the end: `denotes_of_extends` keeps the reading
of every cell when more is stored.
-/

namespace ParseKit

inductive Shape where
  | node (label : Label) (children : List Shape)

theorem NodeId.index_ofIndex {n : Nat} (small : n < UInt32.size) : (ofIndex n).index = n :=
  UInt32.toNat_ofNat_of_lt' small

/-! ### Growth -/

def Layout.Extends : Layout → Layout → Prop
  | .tree, .tree => True
  | .graph old, .graph new => old.toList <+: new.toList
  | _, _ => False

namespace SyntaxTree

/-- What `old` stores, `new` stores at the same place. -/
structure Extends (old new : SyntaxTree) : Prop where
  nodes : old.nodes.toList <+: new.nodes.toList
  layout : old.layout.Extends new.layout

def runLimit (t : SyntaxTree) : Nat :=
  match t.layout with
  | .tree => t.nodeCount
  | .graph adjacency => adjacency.size

/-- Node numbers and places in runs are 32-bit words. -/
def Indexable (t : SyntaxTree) : Prop := t.nodeCount ≤ UInt32.size ∧ t.runLimit ≤ UInt32.size

instance (t : SyntaxTree) : Decidable t.Indexable := inferInstanceAs (Decidable (_ ∧ _))

theorem extends_refl (t : SyntaxTree) : t.Extends t := by
  refine ⟨List.prefix_rfl, ?_⟩
  unfold Layout.Extends
  cases t.layout with
  | tree => trivial
  | graph adjacency => exact List.prefix_rfl

theorem extends_trans {s t u : SyntaxTree} (first : s.Extends t) (second : t.Extends u) :
    s.Extends u := by
  obtain ⟨nodes₁, layout₁⟩ := first
  obtain ⟨nodes₂, layout₂⟩ := second
  refine ⟨nodes₁.trans nodes₂, ?_⟩
  cases hs : s.layout <;> cases ht : t.layout <;> cases hu : u.layout <;>
    simp only [hs, ht, hu, Layout.Extends] at layout₁ layout₂ ⊢
  exact layout₁.trans layout₂

theorem nodeCount_le_of_extends {s t : SyntaxTree} (grown : s.Extends t) :
    s.nodeCount ≤ t.nodeCount := by
  simpa [nodeCount] using grown.nodes.length_le

theorem runLimit_le_of_extends {s t : SyntaxTree} (grown : s.Extends t) :
    s.runLimit ≤ t.runLimit := by
  have layout := grown.layout
  cases hs : s.layout <;> cases ht : t.layout <;>
    simp only [hs, ht, Layout.Extends, runLimit] at layout ⊢
  · exact nodeCount_le_of_extends grown
  · simpa using layout.length_le

theorem indexable_of_extends {s t : SyntaxTree} (grown : s.Extends t) (small : t.Indexable) :
    s.Indexable :=
  ⟨Nat.le_trans (nodeCount_le_of_extends grown) small.1,
    Nat.le_trans (runLimit_le_of_extends grown) small.2⟩

theorem cell_of_extends {s t : SyntaxTree} (grown : s.Extends t) {id : NodeId} {cell : Cell}
    (read : s.cell id = .ok cell) : t.cell id = .ok cell := by
  simp only [SyntaxTree.cell, inBounds_eq_ok, ← Array.getElem?_toList] at read ⊢
  obtain ⟨inside, rfl⟩ := List.getElem?_eq_some_iff.mp read
  exact List.prefix_iff_getElem?.mp grown.nodes _ inside

theorem slot_of_extends {s t : SyntaxTree} (grown : s.Extends t) {cell : Cell} {i : Nat} {id : NodeId}
    (read : s.slot cell i = .ok id) : t.slot cell i = .ok id := by
  have layout := grown.layout
  cases hs : s.layout <;> cases ht : t.layout <;>
    simp only [hs, ht, Layout.Extends, SyntaxTree.slot] at layout read ⊢
  · exact read
  · simp only [inBounds_eq_ok, ← Array.getElem?_toList] at read ⊢
    obtain ⟨inside, rfl⟩ := List.getElem?_eq_some_iff.mp read
    exact List.prefix_iff_getElem?.mp layout _ inside

/-! ### Children -/

theorem mapM_eq_ok {α β : Type} {f : α → Except Violation β} {xs : List α} {ys : List β} :
    xs.mapM f = .ok ys ↔ List.Forall₂ (fun x y => f x = .ok y) xs ys := by
  induction xs generalizing ys with
  | nil => cases ys <;> simp [pure_eq_ok]
  | cons x xs ih =>
    simp only [List.mapM_cons, bind_eq_ok, pure_eq_ok, ih]
    constructor
    · rintro ⟨_, head, _, tail, rfl⟩
      exact .cons head tail
    · rintro (_ | ⟨head, tail⟩)
      exact ⟨_, head, _, tail, rfl⟩

theorem child_eq_ok {t : SyntaxTree} {id child : NodeId} {i : Nat} :
    t.child id i = .ok child ↔
      ∃ cell, t.cell id = .ok cell ∧ i < cell.count.toNat ∧ t.slot cell i = .ok child := by
  rw [SyntaxTree.child, bind_eq_ok]
  refine exists_congr fun cell => and_congr_right ?_
  intro _
  by_cases inside : i < cell.count.toNat
  · simp [inside]
  · simp [inside, throw, throwThe, MonadExceptOf.throw]

theorem children_eq_ok {t : SyntaxTree} {id : NodeId} {ids : List NodeId} :
    t.children id = .ok ids ↔
      ∃ cell, t.cell id = .ok cell ∧ cell.count.toNat = ids.length ∧
        ∀ (i : Nat) (h : i < ids.length), t.slot cell i = .ok ids[i] := by
  simp only [children, forChildren_eq, childCount, bind_eq_ok, map_eq_ok, mapM_eq_ok,
    List.forall₂_iff_get, pure_eq_ok, child_eq_ok]
  constructor
  · rintro ⟨_, ⟨cell, read, rfl⟩, width, each⟩
    rw [List.length_range] at width
    refine ⟨cell, read, width, ?_⟩
    intro i h
    obtain ⟨_, ⟨same, again, _, slot⟩, rfl⟩ := each i (by simpa [width] using h) h
    obtain rfl := Except.ok.inj (read.symm.trans again)
    simpa using slot
  · rintro ⟨cell, read, width, each⟩
    refine ⟨_, ⟨cell, read, rfl⟩, by simpa using width, fun i h h' => ?_⟩
    refine ⟨_, ⟨cell, read, ?_, ?_⟩, rfl⟩
    · simpa using h
    · simpa using each i h'

theorem child_of_children {t : SyntaxTree} {id : NodeId} {ids : List NodeId}
    (read : t.children id = .ok ids) {i : Nat} (inside : i < ids.length) :
    t.child id i = .ok ids[i] := by
  obtain ⟨cell, stored, width, slots⟩ := children_eq_ok.mp read
  exact child_eq_ok.mpr ⟨cell, stored, width ▸ inside, slots i inside⟩

theorem children_of_extends {s t : SyntaxTree} (grown : s.Extends t) {id : NodeId} {ids : List NodeId}
    (read : s.children id = .ok ids) : t.children id = .ok ids := by
  obtain ⟨cell, stored, width, each⟩ := children_eq_ok.mp read
  exact children_eq_ok.mpr
    ⟨cell, cell_of_extends grown stored, width, fun i h => slot_of_extends grown (each i h)⟩

/-- Every stored node names a run inside the array of its layout. -/
def RunsInside (t : SyntaxTree) : Prop :=
  ∀ cell ∈ t.nodes, cell.count = 0 ∨ cell.first.toNat + cell.count.toNat ≤ t.runLimit

instance (t : SyntaxTree) : Decidable t.RunsInside :=
  inferInstanceAs (Decidable (∀ cell ∈ t.nodes, _ ∨ _))

theorem slot_of_runsInside {t : SyntaxTree} {cell : Cell} {i : Nat}
    (inside : cell.first.toNat + i < t.runLimit) : ∃ id, t.slot cell i = .ok id := by
  unfold runLimit at inside
  unfold slot
  split
  · exact ⟨_, rfl⟩
  · next adjacency layout =>
    rw [layout] at inside
    exact ⟨adjacency[cell.first.toNat + i], by simp [inside]⟩

theorem children_of_runsInside {t : SyntaxTree} (inside : t.RunsInside) {id : NodeId} {cell : Cell}
    (stored : t.cell id = .ok cell) : ∃ ids, t.children id = .ok ids := by
  have member : cell ∈ t.nodes := Array.mem_of_getElem? (inBounds_eq_ok.mp stored)
  have each : ∀ i : Fin cell.count.toNat, ∃ child, t.slot cell i = .ok child := by
    intro i
    apply slot_of_runsInside
    rcases inside cell member with empty | fits
    · exact absurd i.isLt (by simp [empty])
    · omega
  choose child reads using each
  refine ⟨List.ofFn child, children_eq_ok.mpr ⟨cell, stored, by simp, fun i h => ?_⟩⟩
  rw [List.getElem_ofFn]
  exact reads ⟨i, _⟩

/-! ### Denotation -/

/-- Read in `t`, the cell is the root of a tree of this shape. -/
inductive Denotes (t : SyntaxTree) : Cell → Shape → Prop
  | node {cell : Cell} (children : List Cell) {shapes : List Shape}
      (width : cell.count.toNat = children.length)
      (read : ∀ (i : Nat) (h : i < children.length), t.slot cell i >>= t.cell = .ok children[i])
      (same : children.length = shapes.length)
      (denoted : ∀ (i : Nat) (h : i < children.length), Denotes t children[i] shapes[i]) :
      Denotes t cell (.node cell.label shapes)

theorem child_read_of_extends {s t : SyntaxTree} (grown : s.Extends t) {cell child : Cell} {i : Nat}
    (read : s.slot cell i >>= s.cell = .ok child) : t.slot cell i >>= t.cell = .ok child := by
  cases hs : s.slot cell i with
  | error e => rw [hs] at read; contradiction
  | ok id =>
    rw [hs] at read
    rw [slot_of_extends grown hs]
    exact cell_of_extends grown read

theorem denotes_of_extends {s t : SyntaxTree} (grown : s.Extends t) {cell : Cell} {shape : Shape}
    (denotes : s.Denotes cell shape) : t.Denotes cell shape := by
  induction denotes with
  | node children width read same _ ih =>
    exact .node children width (fun i h => child_read_of_extends grown (read i h)) same ih

theorem denotes_unique {t : SyntaxTree} {cell : Cell} {shape other : Shape}
    (denotes : t.Denotes cell shape) (again : t.Denotes cell other) : shape = other := by
  induction denotes generalizing other with
  | @node cell children shapes width read same _ ih =>
    cases again with
    | @node _ children' shapes' width' read' same' denoted' =>
      have lengths : children.length = children'.length := width.symm.trans width'
      have cells : children = children' := by
        apply List.ext_getElem lengths
        intro i h h'
        exact Except.ok.inj ((read i h).symm.trans (read' i h'))
      subst cells
      have equal : shapes = shapes' := by
        apply List.ext_getElem (same.symm.trans same')
        intro i h h'
        exact ih i (same ▸ h) (denoted' i (same ▸ h))
      rw [equal]

/-! ### Storing children -/

theorem toList_nodes_storeChildren (t : SyntaxTree) (cells : List Cell) :
    (t.storeChildren cells).2.nodes.toList = t.nodes.toList ++ cells := by
  unfold storeChildren
  split <;> simp [store]

theorem storeChildren_extends (t : SyntaxTree) (cells : List Cell) :
    t.Extends (t.storeChildren cells).2 := by
  refine ⟨by simp [toList_nodes_storeChildren], ?_⟩
  cases h : t.layout with
  | tree => simp [storeChildren, h, store, Layout.Extends]
  | graph adjacency => simp [storeChildren, h, Layout.Extends]

theorem nodeCount_storeChildren (t : SyntaxTree) (cells : List Cell) :
    (t.storeChildren cells).2.nodeCount = t.nodeCount + cells.length := by
  rw [nodeCount, ← Array.length_toList, toList_nodes_storeChildren, List.length_append]
  rfl

theorem runLimit_storeChildren (t : SyntaxTree) (cells : List Cell) :
    (t.storeChildren cells).2.runLimit = t.runLimit + cells.length := by
  cases layout : t.layout with
  | tree =>
    have total := nodeCount_storeChildren t cells
    simp only [storeChildren, layout, store, runLimit] at total ⊢
    exact total
  | graph adjacency =>
    simp only [storeChildren, layout, runLimit]
    rw [← Array.length_toList, Array.toList_appendList, List.length_append]
    simp [nextIds]

/-- The run that is handed out starts where the runs ended before. -/
theorem first_storeChildren (t : SyntaxTree) (cells : List Cell) :
    (t.storeChildren cells).1 = .ofNat t.runLimit := by
  unfold storeChildren runLimit
  cases t.layout <;> rfl

theorem cell_storeChildren {t : SyntaxTree} {cells : List Cell}
    (small : (t.storeChildren cells).2.Indexable) {i : Nat} (h : i < cells.length) :
    (t.storeChildren cells).2.cell (.ofIndex (t.nodeCount + i)) = .ok cells[i] := by
  have bound : t.nodeCount + i < UInt32.size := by
    have total := small.1
    rw [nodeCount_storeChildren] at total
    omega
  rw [cell, inBounds_eq_ok, NodeId.index_ofIndex bound, ← Array.getElem?_toList,
    toList_nodes_storeChildren, List.getElem?_append_right (by simp [nodeCount])]
  simp [nodeCount, h]

theorem slot_storeChildren {t : SyntaxTree} {cells : List Cell}
    (small : (t.storeChildren cells).2.Indexable) (label : Label) (count : UInt32) {i : Nat}
    (h : i < cells.length) :
    (t.storeChildren cells).2.slot ⟨label, count, (t.storeChildren cells).1⟩ i =
      .ok (.ofIndex (t.nodeCount + i)) := by
  have start : (UInt32.ofNat t.runLimit).toNat = t.runLimit := by
    have total := small.2
    rw [runLimit_storeChildren] at total
    exact UInt32.toNat_ofNat_of_lt' (by omega)
  rw [first_storeChildren]
  unfold slot
  rw [start]
  cases hl : t.layout with
  | tree => simp only [storeChildren, hl, store, runLimit]
  | graph adjacency =>
    simp only [storeChildren, hl, runLimit, inBounds_eq_ok]
    rw [← Array.getElem?_toList, Array.toList_appendList, List.getElem?_append_right (by simp)]
    simp [nextIds, h]

theorem slot_storeChildren_of_full {t : SyntaxTree} {adjacency : Array NodeId}
    (layout : t.layout = .graph adjacency) (full : adjacency.size = UInt32.size) (cells : List Cell)
    (label : Label) (count : UInt32) {i : Nat} (h : i < adjacency.size) :
    (t.storeChildren cells).2.slot ⟨label, count, (t.storeChildren cells).1⟩ i =
      .ok adjacency[i] := by
  have front : (UInt32.ofNat t.runLimit).toNat = 0 := by
    rw [runLimit, layout]
    show (UInt32.ofNat adjacency.size).toNat = 0
    rw [full]
    rfl
  rw [first_storeChildren]
  unfold slot
  rw [front, Nat.zero_add]
  simp only [storeChildren, layout, inBounds_eq_ok]
  rw [← Array.getElem?_toList, Array.toList_appendList,
    List.getElem?_append_left (by simpa using h), Array.getElem?_toList]
  exact Array.getElem?_eq_getElem h

theorem denotes_storeChildren {t : SyntaxTree} {cells : List Cell} {shapes : List Shape}
    (denoted : List.Forall₂ t.Denotes cells shapes) (small : (t.storeChildren cells).2.Indexable)
    (few : cells.length < UInt32.size) (label : Label) :
    (t.storeChildren cells).2.Denotes ⟨label, .ofNat cells.length, (t.storeChildren cells).1⟩
      (.node label shapes) := by
  obtain ⟨same, denoted⟩ := List.forall₂_iff_get.mp denoted
  refine .node cells (UInt32.toNat_ofNat_of_lt' few) ?_ same ?_
  · intro i h
    rw [slot_storeChildren small _ _ h]
    exact cell_storeChildren small h
  · intro i h
    exact denotes_of_extends (storeChildren_extends t cells) (denoted i h (same ▸ h))

end SyntaxTree

end ParseKit
