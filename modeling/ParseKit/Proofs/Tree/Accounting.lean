import Mathlib.Data.List.Nodup
import ParseKit.Proofs.Tree.Graph
import ParseKit.Proofs.Tree.Preorder

/-!
# Each node in one place

A commit stores the nodes of a block below their parents before the parents themselves. `Accounts`
says that the children of all nodes stored and adopted so far are the nodes stored so far, each once;
from it follow the places of all nodes after a commit: `commit_places_once`. `commit_misplaces` has two
graphs in which a new node does not find its place, one with a run that lies outside and a full one.
-/

namespace ParseKit

/-- The numbers of `k` nodes that are stored after `n` others. -/
def NodeId.following (n k : Nat) : List NodeId := (List.range k).map fun i => .ofIndex (n + i)

namespace NodeId

theorem following_add (n k m : Nat) :
    following n (k + m) = following n k ++ following (n + k) m := by
  simp [following, List.range_add, Nat.add_assoc]

theorem following_subset (n : Nat) {j k : Nat} (le : j ≤ k) : following n j ⊆ following n k := by
  obtain ⟨m, rfl⟩ := Nat.exists_eq_add_of_le le
  rw [following_add]
  exact List.subset_append_left _ _

theorem mem_following {n k : Nat} (few : n + k ≤ UInt32.size) {id : NodeId} :
    id ∈ following n k ↔ n ≤ id.index ∧ id.index < n + k := by
  simp only [following, List.mem_map, List.mem_range]
  constructor
  · rintro ⟨i, less, rfl⟩
    rw [index_ofIndex (by omega)]
    omega
  · rintro ⟨low, high⟩
    refine ⟨id.index - n, by omega, ?_⟩
    rw [Nat.add_sub_cancel' low]
    exact congrArg NodeId.mk (UInt32.ofNat_toNat (x := id.raw))

theorem index_injective {id id' : NodeId} (same : id.index = id'.index) : id = id' :=
  congrArg NodeId.mk (UInt32.toNat_inj.mp same)

theorem nodup_following {n k : Nat} (few : n + k ≤ UInt32.size) : (following n k).Nodup := by
  refine List.Nodup.map_on ?_ List.nodup_range
  intro i inside j inside' same
  have index := congrArg index same
  rw [List.mem_range] at inside inside'
  rw [index_ofIndex (by omega), index_ofIndex (by omega)] at index
  omega

end NodeId

/-! ### Storing -/

/-- After `n` other nodes, `stored` were stored and `adopted` wait to be stored: the stored nodes are
their children, each of them once, and what is stored comes after its children. -/
structure Settled (n : Nat) (stored adopted : List Record) : Prop where
  once : ((stored ++ adopted).flatMap Record.children).Perm (NodeId.following n stored.length)
  below : ∀ (j : Nat) record, stored[j]? = some record → record.children ⊆ NodeId.following n j

section

variable {n : Nat} {stored adopted stored' adopted' : List Record}

theorem settled_nil (n : Nat) : Settled n [] [] := ⟨.nil, by simp⟩

theorem settled_append (first : Settled n stored adopted)
    (second : Settled (n + stored.length) stored' adopted') :
    Settled n (stored ++ stored') (adopted ++ adopted') := by
  constructor
  · have sorted : (stored ++ stored' ++ (adopted ++ adopted')).Perm
        (stored ++ adopted ++ (stored' ++ adopted')) := by
      rw [List.append_assoc, List.append_assoc]
      exact (List.perm_append_comm_assoc stored' adopted adopted').append_left stored
    refine (sorted.flatMap_right _).trans ?_
    rw [List.flatMap_append, List.length_append, NodeId.following_add]
    exact first.once.append second.once
  · intro j record found
    by_cases early : j < stored.length
    · rw [List.getElem?_append_left early] at found
      exact first.below j record found
    · rw [List.getElem?_append_right (Nat.le_of_not_lt early)] at found
      refine List.Subset.trans (second.below _ record found) ?_
      obtain ⟨m, rfl⟩ := Nat.exists_eq_add_of_le (Nat.le_of_not_lt early)
      rw [Nat.add_sub_cancel_left, NodeId.following_add]
      exact List.subset_append_right _ _

/-- Where the children of a node are: those of a node that is adopted were all stored. -/
theorem Settled.children_subset (settled : Settled n stored adopted) {j : Nat} {record : Record}
    (found : (stored ++ adopted)[j]? = some record) : record.children ⊆ NodeId.following n j := by
  by_cases early : j < stored.length
  · rw [List.getElem?_append_left early] at found
    exact settled.below j record found
  · intro child member
    apply NodeId.following_subset n (Nat.le_of_not_lt early)
    exact settled.once.subset
      (List.mem_flatMap_of_mem (List.mem_of_getElem? found) member)

theorem Settled.exists_place (settled : Settled n stored adopted) {id : NodeId}
    (member : id ∈ NodeId.following n stored.length) :
    ∃ (j : Nat) (record : Record) (i : Nat), (stored ++ adopted)[j]? = some record ∧
      record.children[i]? = some id := by
  obtain ⟨record, member, child⟩ := List.mem_flatMap.mp (settled.once.mem_iff.mpr member)
  obtain ⟨j, found⟩ := List.mem_iff_getElem?.mp member
  obtain ⟨i, place⟩ := List.mem_iff_getElem?.mp child
  exact ⟨j, record, i, found, place⟩

theorem Settled.nodup (settled : Settled n stored adopted)
    (few : n + stored.length ≤ UInt32.size) : ((stored ++ adopted).flatMap Record.children).Nodup :=
  settled.once.nodup_iff.mpr (NodeId.nodup_following few)

/-- Storing what was adopted, below a parent that is adopted in turn. -/
theorem settled_store (settled : Settled n stored adopted) (label : Label) :
    Settled n (stored ++ adopted)
      [⟨label, NodeId.following (n + stored.length) adopted.length⟩] := by
  constructor
  · rw [List.flatMap_append, List.length_append, NodeId.following_add]
    refine settled.once.append ?_
    simp
  · exact fun j record => settled.children_subset

end

namespace Block

theorem settle_replace (label : Label) (children : List Block) (s : NodeStore) :
    (node label .replace children).settle s = settleAll children s := rfl

theorem settle_insert (label : Label) (children : List Block) (s : NodeStore) :
    (node label .insert children).settle s =
      let below := settleAll children s
      ([⟨label, below.2.nextIds below.1.length⟩], below.2.append below.1) := rfl

theorem settleAll_cons (block : Block) (rest : List Block) (s : NodeStore) :
    settleAll (block :: rest) s =
      ((block.settle s).1 ++ (settleAll rest (block.settle s).2).1,
        (settleAll rest (block.settle s).2).2) := rfl

mutual

theorem settled_of_settle : ∀ (block : Block) (s : NodeStore), ∃ stored,
    (block.settle s).2 = s.append stored ∧ Settled s.nodes.length stored (block.settle s).1
  | node label .replace children, s => by
    rw [settle_replace]
    exact settled_of_settleAll children s
  | node label .insert children, s => by
    obtain ⟨stored, grown, settled⟩ := settled_of_settleAll children s
    rw [settle_insert]
    refine ⟨stored ++ (settleAll children s).1, by simp [grown, NodeStore.append], ?_⟩
    have next : (settleAll children s).2.nextIds (settleAll children s).1.length =
        NodeId.following (s.nodes.length + stored.length) (settleAll children s).1.length := by
      simp [grown, NodeStore.nextIds, NodeStore.append, NodeId.following]
    simp only [next]
    exact settled_store settled label

theorem settled_of_settleAll : ∀ (blocks : List Block) (s : NodeStore), ∃ stored,
    (settleAll blocks s).2 = s.append stored ∧
      Settled s.nodes.length stored (settleAll blocks s).1
  | [], s => ⟨[], s.append_nil.symm, settled_nil _⟩
  | block :: rest, s => by
    obtain ⟨stored, grown, settled⟩ := settled_of_settle block s
    obtain ⟨stored', grown', settled'⟩ := settled_of_settleAll rest (block.settle s).2
    rw [settleAll_cons]
    refine ⟨stored ++ stored', ?_, ?_⟩
    · rw [grown', grown]
      simp [NodeStore.append]
    · refine settled_append settled ?_
      rw [grown] at settled' ⊢
      simpa [NodeStore.append] using settled'

end

/-! ### Counting -/

mutual

/-- Each inserted node was stored or is adopted. -/
theorem nodeCount_lower : ∀ (block : Block) (t : SyntaxTree),
    (block.lower t).2.nodeCount + (block.lower t).1.length = t.nodeCount + block.inserted.length
  | node label .replace children, t => by
    rw [lower_replace, inserted_replace]
    exact nodeCount_lowerAll children t
  | node label .insert children, t => by
    have below := nodeCount_lowerAll children t
    rw [lower_insert, inserted_insert]
    simp only [SyntaxTree.nodeCount_adopt, List.length_cons, List.length_nil]
    omega

theorem nodeCount_lowerAll : ∀ (blocks : List Block) (t : SyntaxTree),
    (lowerAll blocks t).2.nodeCount + (lowerAll blocks t).1.length =
      t.nodeCount + (insertedLabels (listingAll blocks)).length
  | [], t => rfl
  | block :: rest, t => by
    have first := nodeCount_lower block t
    have later := nodeCount_lowerAll rest (block.lower t).2
    rw [lowerAll_cons, listingAll, insertedLabels_append]
    simp only [List.length_append]
    rw [inserted] at first
    omega

end

end Block

/-! ### Places -/

/-- In lists without a common or repeated entry, an entry tells its place. -/
theorem place_unique {α β : Type} {xs : List α} {f : α → List β} (nodup : (xs.flatMap f).Nodup)
    {i j k m : Nat} {x y : α} {b : β} (first : xs[i]? = some x) (entry : (f x)[k]? = some b)
    (second : xs[j]? = some y) (entry' : (f y)[m]? = some b) : i = j ∧ k = m := by
  obtain ⟨each, apart⟩ := List.nodup_flatMap.mp nodup
  rw [List.pairwise_iff_getElem] at apart
  obtain ⟨inside, rfl⟩ := List.getElem?_eq_some_iff.mp first
  obtain ⟨inside', rfl⟩ := List.getElem?_eq_some_iff.mp second
  have member := List.mem_of_getElem? entry
  have member' := List.mem_of_getElem? entry'
  rcases Nat.lt_trichotomy i j with less | rfl | more
  · exact absurd member' (apart i j inside inside' less member)
  · obtain ⟨bound, -⟩ := List.getElem?_eq_some_iff.mp entry
    refine ⟨rfl, ?_⟩
    exact (List.getElem?_inj bound (each _ (List.getElem_mem inside))).mp (entry.trans entry'.symm)
  · exact absurd member (apart j i inside' inside more member')

/-- The nodes from number `n` on, but for the last of `total`, have one place each, in the list of
children of a later one of them. -/
structure PlacedOnce (child : NodeId → Nat → Except Violation NodeId) (n total : Nat) : Prop where
  once : ∀ id : NodeId, n ≤ id.index → id.index + 1 < total →
    ∃ parent i, n ≤ parent.index ∧ child parent i = .ok id ∧
      ∀ parent' i', child parent' i' = .ok id → parent' = parent ∧ i' = i
  below : ∀ parent i id, n ≤ parent.index → child parent i = .ok id →
    n ≤ id.index ∧ id.index < parent.index

namespace NodeStore

variable {s s' : NodeStore}

theorem child_eq_ok {id child : NodeId} {i : Nat} :
    s.child id i = .ok child ↔
      ∃ record, s.nodes[id.index]? = some record ∧ record.children[i]? = some child := by
  simp only [NodeStore.child, bind_eq_ok, record, inBounds_eq_ok]
  refine exists_congr fun record => and_congr_right fun _ => ?_
  cases record.children[i]? <;> simp [throw, throwThe, MonadExceptOf.throw, pure_eq_ok]

/-- No node has a child that is not stored. -/
def Closed (s : NodeStore) : Prop :=
  ∀ record ∈ s.nodes, ∀ child ∈ record.children, child.index < s.nodes.length

theorem placedOnce_of_settled {stored : List Record} {root : Record}
    (nodes : s'.nodes = s.nodes ++ (stored ++ [root])) (closed : s.Closed)
    (settled : Settled s.nodes.length stored [root]) (few : s'.nodes.length < UInt32.size) :
    PlacedOnce s'.child s.nodes.length s'.nodes.length := by
  have total : s'.nodes.length = s.nodes.length + (stored.length + 1) := by simp [nodes]
  have nodup := settled.nodup (by omega)
  have new {parent : NodeId} (late : s.nodes.length ≤ parent.index) :
      s'.nodes[parent.index]? = (stored ++ [root])[parent.index - s.nodes.length]? := by
    rw [nodes, List.getElem?_append_right late]
  constructor
  · intro id low high
    have stays : id ∈ NodeId.following s.nodes.length stored.length :=
      (NodeId.mem_following (by omega)).mpr (by omega)
    obtain ⟨j, record, i, found, place⟩ := settled.exists_place stays
    have inside : j < stored.length + 1 := by
      simpa using (List.getElem?_eq_some_iff.mp found).1
    have index : (NodeId.ofIndex (s.nodes.length + j)).index = s.nodes.length + j :=
      NodeId.index_ofIndex (by omega)
    refine ⟨.ofIndex (s.nodes.length + j), i, by omega, ?_, ?_⟩
    · refine child_eq_ok.mpr ⟨record, ?_, place⟩
      rw [new (by omega), index, Nat.add_sub_cancel_left, found]
    · intro parent i' again
      obtain ⟨record', found', place'⟩ := child_eq_ok.mp again
      by_cases early : parent.index < s.nodes.length
      · rw [nodes, List.getElem?_append_left early] at found'
        have := closed record' (List.mem_of_getElem? found') id (List.mem_of_getElem? place')
        omega
      · rw [new (Nat.le_of_not_lt early)] at found'
        obtain ⟨same, places⟩ := place_unique nodup found' place' found place
        refine ⟨NodeId.index_injective ?_, places⟩
        omega
  · intro parent i id late read
    obtain ⟨record, found, place⟩ := child_eq_ok.mp read
    rw [new late] at found
    have inside := (List.getElem?_eq_some_iff.mp found).1
    rw [List.length_append, List.length_singleton] at inside
    have member := settled.children_subset found (List.mem_of_getElem? place)
    have bounds := (NodeId.mem_following (by omega)).mp member
    omega

end NodeStore

/-! ### Trees that hold all they name -/

theorem exists_forall₂ {α β : Type} {R : α → β → Prop} {xs : List α}
    (each : ∀ x ∈ xs, ∃ y, R x y) : ∃ ys, List.Forall₂ R xs ys := by
  induction xs with
  | nil => exact ⟨[], .nil⟩
  | cons x xs ih =>
    obtain ⟨y, first⟩ := each x List.mem_cons_self
    obtain ⟨ys, later⟩ := ih fun x member => each x (List.mem_cons_of_mem _ member)
    exact ⟨y :: ys, .cons first later⟩

namespace SyntaxTree

variable {t : SyntaxTree}

/-- Runs lie inside the array of the layout, and a graph lists stored nodes only. -/
def Closed (t : SyntaxTree) : Prop :=
  t.RunsInside ∧ ∀ id ∈ t.entries, id.index < t.nodeCount

instance (t : SyntaxTree) : Decidable t.Closed := inferInstanceAs (Decidable (_ ∧ _))

theorem index_lt_of_slot (closed : t.Closed) (few : t.nodeCount < UInt32.size) {cell : Cell}
    (stored : cell ∈ t.nodes) {i : Nat} (inside : i < cell.count.toNat) {child : NodeId}
    (read : t.slot cell i = .ok child) : child.index < t.nodeCount := by
  cases layout : t.layout with
  | tree =>
    simp only [slot, layout, Except.ok.injEq] at read
    have fits : cell.first.toNat + i < t.nodeCount := by
      rcases closed.1 cell stored with empty | fits
      · exact absurd inside (by simp [empty])
      · simp only [runLimit, layout] at fits
        omega
    rw [← read, NodeId.index_ofIndex (Nat.lt_trans fits few)]
    exact fits
  | graph adjacency =>
    simp only [slot, layout, inBounds_eq_ok] at read
    apply closed.2
    simpa [entries, layout] using Array.mem_of_getElem? read

theorem exists_record (closed : t.Closed) (few : t.nodeCount < UInt32.size) {cell : Cell}
    (stored : cell ∈ t.nodes) :
    ∃ record, t.Reads cell record ∧ ∀ child ∈ record.children, child.index < t.nodeCount := by
  obtain ⟨i, inside, rfl⟩ := Array.getElem_of_mem stored
  have read : t.cell (.ofIndex i) = .ok t.nodes[i] := by
    rw [cell, NodeId.index_ofIndex (Nat.lt_trans inside few), inBounds_eq_ok]
    exact Array.getElem?_eq_getElem inside
  obtain ⟨ids, children⟩ := children_of_runsInside closed.1 read
  obtain ⟨cell, again, names⟩ := children_eq_ok.mp children
  obtain rfl := Except.ok.inj (read.symm.trans again)
  refine ⟨⟨t.nodes[i].label, ids⟩, ⟨rfl, names⟩, ?_⟩
  intro child member
  obtain ⟨j, bound, rfl⟩ := List.getElem_of_mem member
  exact index_lt_of_slot closed few stored (names.1 ▸ bound) (names.2 j bound)

theorem exists_holds (closed : t.Closed) (few : t.nodeCount < UInt32.size) :
    ∃ s : NodeStore, Holds Reads t s ∧ s.Closed := by
  obtain ⟨records, related⟩ := exists_forall₂ fun cell (member : cell ∈ t.nodes.toList) =>
    exists_record closed few (Array.mem_toList_iff.mp member)
  have holds : Holds Reads t ⟨records, t.root⟩ :=
    ⟨related.imp fun _ _ both => both.1, rfl⟩
  refine ⟨_, holds, ?_⟩
  unfold NodeStore.Closed
  rw [← nodeCount_of_holds holds]
  obtain ⟨length, each⟩ := List.forall₂_iff_get.mp related
  intro record member
  obtain ⟨i, bound, rfl⟩ := List.getElem_of_mem member
  exact (each i (length ▸ bound) bound).2

end SyntaxTree

/-! ### Committing -/

namespace Staging

variable {label : Label} {children : List Block}

theorem commit_counts (narrow : (Block.node label .insert children).Narrow) (t : SyntaxTree) :
    ∃ id t', (ofBlock (.node label .insert children)).commit t = .ok (id, t') ∧
      t'.root = some id ∧ t.Extends t' ∧
      t'.nodeCount = t.nodeCount + (Block.node label .insert children).inserted.length ∧
      (t'.nodeCount ≤ UInt32.size → id.index + 1 = t'.nodeCount) := by
  obtain ⟨root, below, lowered, committed⟩ := commit_ofBlock narrow t
  have before := Block.lower_extends (.node label .insert children) t
  have count := Block.nodeCount_lower (.node label .insert children) t
  have total := below.nodeCount_storeRoot root
  rw [lowered, List.length_singleton] at count
  rw [lowered] at before
  refine ⟨(below.storeRoot root).1, (below.storeRoot root).2, committed, rfl,
    SyntaxTree.extends_trans before (below.storeRoot_extends root), total.trans count,
    SyntaxTree.index_storeRoot⟩

/-- A commit adds to the store of a tree what it settles, and the root at the end. -/
theorem commit_settles (narrow : (Block.node label .insert children).Narrow) {t t' : SyntaxTree}
    {id : NodeId} (committed : (ofBlock (.node label .insert children)).commit t = .ok (id, t'))
    (numbered : t'.Numbered) {s : NodeStore} (holds : SyntaxTree.Holds SyntaxTree.Reads t s) :
    ∃ stored root, t'.Shows ⟨s.nodes ++ (stored ++ [root]), some id⟩ ∧
      Settled s.nodes.length stored [root] := by
  obtain ⟨cell, below, lowered, again⟩ := commit_ofBlock narrow t
  obtain ⟨rfl, rfl⟩ := Prod.ext_iff.mp (Except.ok.inj (committed.symm.trans again))
  obtain ⟨root, adopted⟩ : ∃ root, ((Block.node label .insert children).settle s).1 = [root] :=
    ⟨_, rfl⟩
  obtain ⟨stored, grown, settled⟩ := Block.settled_of_settle (.node label .insert children) s
  have before := SyntaxTree.numbered_of_extends (below.storeRoot_extends cell) numbered
  have settles := Block.lower_holds SyntaxTree.reading_reads (.node label .insert children) holds
  rw [lowered, grown, adopted] at settles
  obtain ⟨held, cells⟩ := settles before
  obtain ⟨next, planted⟩ := SyntaxTree.holds_storeRoot SyntaxTree.reading_reads held
    (List.forall₂_cons.mp cells).1
  refine ⟨stored, root, ?_, adopted ▸ settled⟩
  have shows := SyntaxTree.shows_of_holds planted
  rw [NodeStore.plant, ← next] at shows
  simpa only [NodeStore.append, List.append_assoc] using shows

/-- A commit gives each inserted node of the block one place, below later nodes, in the order in which
the nodes are staged. -/
theorem commit_places_once (narrow : (Block.node label .insert children).Narrow) {t : SyntaxTree}
    (closed : t.Closed) :
    ∃ id t', (ofBlock (.node label .insert children)).commit t = .ok (id, t') ∧
      t'.root = some id ∧ t.Extends t' ∧
      t'.nodeCount = t.nodeCount + (Block.node label .insert children).inserted.length ∧
      (t'.nodeCount ≤ UInt32.size → id.index + 1 = t'.nodeCount) ∧
      (t'.Numbered → PlacedOnce t'.child t.nodeCount t'.nodeCount ∧
        ∃ ids, (∀ other, t'.Preorder id other ↔ other = ids) ∧
          ids.mapM t'.label = .ok (Block.node label .insert children).inserted) := by
  obtain ⟨id, t', committed, root, grown, count, last⟩ := commit_counts narrow t
  refine ⟨id, t', committed, root, grown, count, last, fun numbered => ?_⟩
  obtain ⟨_, _, again, -, walk⟩ := commit_preorder narrow t
  obtain ⟨rfl, rfl⟩ := Prod.ext_iff.mp (Except.ok.inj (committed.symm.trans again))
  obtain ⟨s, holds, known⟩ :=
    SyntaxTree.exists_holds closed (SyntaxTree.numbered_of_extends grown numbered).1
  obtain ⟨stored, final, shows, settled⟩ := commit_settles narrow committed numbered holds
  have total := shows.nodeCount
  have before := SyntaxTree.nodeCount_of_holds holds
  have child := funext fun id => funext fun i => shows.child id i
  refine ⟨?_, walk numbered⟩
  rw [child, total, before]
  exact NodeStore.placedOnce_of_settled rfl known settled (total ▸ numbered.1)

theorem commit_places_once_nested :
    let block := Block.node ⟨1⟩ .insert
      [.node ⟨2⟩ .insert [.node ⟨3⟩ .replace [.node ⟨4⟩ .replace [.node ⟨5⟩ .insert []],
        .node ⟨6⟩ .insert []]], .node ⟨7⟩ .replace []]
    let t := ((SyntaxTree.emptyTree.storeChildren [.leaf ⟨8⟩]).2.storeRoot ⟨⟨9⟩, 1, 0⟩).2
    ∃ id t' ids, (ofBlock block).commit t = .ok (id, t') ∧ id = .ofIndex 5 ∧
      PlacedOnce t'.child 2 6 ∧ t'.Preorder id ids ∧
      ids.mapM t'.label = .ok [⟨1⟩, ⟨2⟩, ⟨5⟩, ⟨6⟩] := by
  intro block t
  obtain ⟨id, t', committed, _, _, count, last, placed⟩ :=
    commit_places_once (Block.narrow_of_size block (by decide)) (by decide : t.Closed)
  have numbered : t'.Numbered := by
    obtain rfl := congrArg Prod.snd (Except.ok.inj committed)
    decide
  obtain ⟨once, ids, walk, labels⟩ := placed numbered
  have total : t'.nodeCount = 6 := count
  have place := last (Nat.le_of_lt numbered.1)
  rw [total] at place once
  exact ⟨id, t', ids, committed, NodeId.index_injective (Nat.succ.inj place), once,
    (walk ids).mpr rfl, labels⟩

/-- In a graph with a cell whose run lies behind the list of children, and in a graph whose list has 2^32
entries, all that is named exists. But in the one a new leaf comes below an old node as well, and in
the other an old node comes below the new parent. -/
theorem commit_misplaces :
    let block := Block.node ⟨0x80000000⟩ .insert [.leaf ⟨0x40000001⟩]
    let dangling : SyntaxTree := ⟨.graph #[], #[⟨⟨0x40000000⟩, 1, 0⟩], none⟩
    let full : SyntaxTree := ⟨.graph (.replicate UInt32.size ⟨0⟩), #[.leaf ⟨0x40000000⟩], none⟩
    ((∀ id ∈ dangling.entries, id.index < dangling.nodeCount) ∧
      (∀ id i child, dangling.child id i = .ok child → child.index < dangling.nodeCount) ∧
      ∃ id t', (ofBlock block).commit dangling = .ok (id, t') ∧ t'.nodeCount = 3 ∧
        t'.child id 0 = .ok ⟨1⟩ ∧ t'.child ⟨0⟩ 0 = .ok ⟨1⟩ ∧ ¬ PlacedOnce t'.child 1 3) ∧
    full.Closed ∧ ∃ id t', (ofBlock block).commit full = .ok (id, t') ∧ t'.nodeCount = 3 ∧
      t'.child id 0 = .ok ⟨0⟩ ∧ ¬ PlacedOnce t'.child 1 3 := by
  intro block dangling full
  refine ⟨⟨by decide, ?reach, _, _, rfl, rfl, by decide, by decide, ?shared⟩, ?closed, ?full⟩
  case reach =>
    intro id i child read
    obtain ⟨cell, stored, -, slot⟩ := SyntaxTree.child_eq_ok.mp read
    simp only [SyntaxTree.slot, dangling, inBounds_eq_ok] at slot
    simp at slot
  case shared =>
    intro places
    obtain ⟨parent, i, late, -, only⟩ := places.once ⟨1⟩ (by decide) (by decide)
    obtain ⟨rfl, -⟩ := only ⟨0⟩ 0 (by decide)
    exact absurd late (by decide)
  case closed =>
    refine ⟨by simp [SyntaxTree.RunsInside, full, Cell.leaf], ?_⟩
    intro id member
    have entries : full.entries = List.replicate UInt32.size ⟨0⟩ := Array.toList_replicate
    rw [entries] at member
    obtain ⟨-, rfl⟩ := List.mem_replicate.mp member
    exact Nat.zero_lt_one
  case full =>
    obtain ⟨id, t', committed, -, count, last, -, children⟩ :=
      commit_of_full (t := full) rfl Array.size_replicate ⟨0x80000000⟩ [⟨0x40000001⟩] (by decide)
    rw [Array.toList_replicate, List.take_replicate] at children
    have old := SyntaxTree.child_of_children children (i := 0) (by decide)
    have total : t'.nodeCount = 3 := count
    refine ⟨id, t', committed, total, old, fun places => ?_⟩
    exact absurd (places.below id 0 ⟨0⟩ (by omega) old).1 (by decide)

end Staging

end ParseKit
