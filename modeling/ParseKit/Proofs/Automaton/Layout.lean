import ParseKit.Automaton.Draft
import ParseKit.Proofs.Automaton.Binary

/-!
# Drafts and their automata

The blocks of a draft lie one after another in its table, and what is decoded from its bytes has
the terminals and the transitions of the drafted states: `Draft.decode_toBytes`, and
`CellTable.Holds` for the look-ups.
-/

namespace ParseKit

/-! ### Look-ups in a drafted state -/

def named? (target : UInt16) : Option UInt16 := if target = noTarget then none else some target

theorem named?_eq_some_iff {cell target : UInt16} :
    named? cell = some target ↔ cell = target ∧ target ≠ noTarget := by
  unfold named?
  split
  · next unset =>
    subst unset
    refine ⟨fun h => (nomatch h), ?_⟩
    rintro ⟨rfl, real⟩
    exact absurd rfl real
  · next real =>
    rw [Option.some.injEq]
    refine ⟨?_, And.left⟩
    rintro rfl
    exact ⟨rfl, real⟩

namespace DraftRange

def covers (r : DraftRange) (value : UInt16) : Bool := r.low ≤ value && value ≤ r.high

theorem covers_iff {r : DraftRange} {value : UInt16} :
    r.covers value = true ↔ r.low ≤ value ∧ value ≤ r.high := by
  rw [covers, Bool.and_eq_true, decide_eq_true_eq, decide_eq_true_eq]

theorem covers_single {unit value target : UInt16} :
    covers ⟨unit, unit, target⟩ value = true ↔ value = unit := by
  rw [covers_iff]
  exact ⟨fun both => UInt16.le_antisymm both.2 both.1,
    fun same => same ▸ ⟨UInt16.le_refl _, UInt16.le_refl _⟩⟩

def cells (r : DraftRange) : List UInt16 := [r.low, r.high, r.target]

theorem length_cells (r : DraftRange) : r.cells.length = rangeCells := rfl

end DraftRange

namespace DraftState

def terminal? (s : DraftState) : Option UInt16 :=
  if s.terminal = noTerminal then none else some s.terminal

def isDeadEnd (s : DraftState) : Bool := s.transitionCount == 0

def direct? (s : DraftState) (value : UInt8) : Option UInt16 :=
  have inside : value.toNat < directCount := value.toNat_lt
  named? s.direct[value.toNat]

def range? (s : DraftState) (value : UInt16) : Option UInt16 :=
  (s.ranges.toList.find? (·.covers value)).bind fun r => named? r.target

def targets (s : DraftState) : List UInt16 := s.direct.toList ++ s.ranges.toList.map (·.target)

/-- What the block of a state can be read as: of the ranges, the first ones, as many as its count says. -/
def counted (s : DraftState) : DraftState :=
  { s with ranges := s.ranges.take (s.ranges.size % UInt16.size) }

theorem toList_counted (s : DraftState) :
    s.counted.ranges.toList = s.ranges.toList.take (s.ranges.size % UInt16.size) := by
  rw [counted, Array.toList_extract, List.extract_eq_take_drop, List.drop_zero, Nat.sub_zero]

theorem size_counted (s : DraftState) : s.counted.ranges.size = s.ranges.size % UInt16.size := by
  rw [← Array.length_toList, toList_counted, List.length_take, Array.length_toList]
  exact Nat.min_eq_left (Nat.mod_le _ _)

theorem counted_of_few {s : DraftState} (few : s.ranges.size < UInt16.size) : s.counted = s := by
  rw [counted, Nat.mod_eq_of_lt few, Array.take_eq_extract, Array.extract_size]

theorem mem_targets_of_counted {s : DraftState} {target : UInt16} (member : target ∈ s.counted.targets) :
    target ∈ s.targets := by
  rcases List.mem_append.mp member with direct | range
  · exact List.mem_append_left _ direct
  · rw [toList_counted] at range
    exact List.mem_append_right _ (List.map_subset _ (List.take_subset _ _) range)

theorem toList_block (s : DraftState) :
    s.block.toList = [s.terminal, s.transitionCount, .ofNat s.ranges.size] ++ s.direct.toList ++
      s.ranges.toList.flatMap DraftRange.cells := by
  simp [block, Array.toList_flatMap]
  rfl

def cellCount (s : DraftState) : Nat := fixedCells + rangeCells * s.ranges.size

theorem length_block (s : DraftState) : s.block.toList.length = s.cellCount := by
  rw [toList_block, List.length_append, List.length_append, Vector.length_toList,
    length_flatMap_of_even DraftRange.length_cells, Array.length_toList]
  rfl

end DraftState

/-! ### A block in a table -/

namespace CellTable

/-- The block of a drafted state stands at `start`. -/
def Holds (t : CellTable) (start : Nat) (s : DraftState) : Prop :=
  ∃ rest, t.cells.toList.drop start = s.block.toList ++ rest

variable {t : CellTable} {start : Nat} {s : DraftState}

theorem cell_of_drop {k : Nat} {c : UInt16} (found : (t.cells.toList.drop start)[k]? = some c) :
    t.cell (start + k) = c := by
  rw [List.getElem?_drop, Array.getElem?_toList] at found
  rw [cell, Array.getD_eq_getD_getElem?, found, Option.getD_some]

section

variable (holds : t.Holds start s)
include holds

theorem cell_terminal : t.cell (start + 0) = s.terminal := by
  obtain ⟨rest, at_start⟩ := holds
  apply cell_of_drop
  rw [at_start, s.toList_block]
  rfl

theorem cell_transitionCount : t.cell (start + 1) = s.transitionCount := by
  obtain ⟨rest, at_start⟩ := holds
  apply cell_of_drop
  rw [at_start, s.toList_block]
  rfl

theorem cell_direct {value : Nat} (inside : value < directCount) :
    t.cell (start + (headerCells + value)) = s.direct[value] := by
  obtain ⟨rest, at_start⟩ := holds
  apply cell_of_drop
  have found : s.direct.toList[value]? = some s.direct[value] := by
    rw [Vector.getElem?_toList, Vector.getElem?_eq_getElem]
  rw [at_start, s.toList_block, Nat.add_comm]
  simp only [List.append_assoc]
  change (s.direct.toList ++ _)[value]? = _
  rw [List.getElem?_append_left (by rwa [Vector.length_toList]), found]

theorem drop_ranges :
    ∃ rest, t.cells.toList.drop (start + fixedCells) =
      s.ranges.toList.flatMap DraftRange.cells ++ rest := by
  obtain ⟨rest, at_start⟩ := holds
  refine ⟨rest, ?_⟩
  rw [← List.drop_drop, at_start, s.toList_block, List.append_assoc]
  apply List.drop_left'
  rw [List.length_append, Vector.length_toList]
  rfl

theorem rangeCount_eq : t.rangeCount start = s.counted.ranges.size := by
  obtain ⟨rest, at_start⟩ := holds
  have found : t.cell (start + 2) = .ofNat s.ranges.size := by
    apply cell_of_drop
    rw [at_start, s.toList_block]
    rfl
  rw [rangeCount, found, s.size_counted]
  exact UInt16.toNat_ofNat'

theorem blockStop_le : t.blockStop start ≤ t.cells.size := by
  have count := rangeCount_eq holds
  obtain ⟨rest, at_start⟩ := holds
  have length := congrArg List.length at_start
  rw [List.length_drop, List.length_append, s.length_block, Array.length_toList,
    DraftState.cellCount] at length
  have fewer : s.counted.ranges.size ≤ s.ranges.size := by
    rw [s.size_counted]
    exact Nat.mod_le _ _
  have : 0 < fixedCells := by decide
  have := Nat.mul_le_mul_left rangeCells fewer
  rw [blockStop, count]
  omega

theorem cell_range {i k : Nat} (inside : i < s.ranges.size) (small : k < rangeCells) :
    t.cell (start + fixedCells + rangeCells * i + k) = s.ranges[i].cells[k] := by
  obtain ⟨rest, ranges⟩ := drop_ranges holds
  obtain ⟨rest, found⟩ := drop_item DraftRange.length_cells ranges
    (List.drop_eq_getElem_cons (by rwa [Array.length_toList]))
  apply cell_of_drop
  rw [found, List.getElem?_append_left small]
  exact List.getElem?_eq_getElem small

theorem cell_counted {i k : Nat} (inside : i < s.counted.ranges.size) (small : k < rangeCells) :
    t.cell (start + fixedCells + rangeCells * i + k) = s.counted.ranges[i].cells[k] := by
  have drafted : i < s.ranges.size := by
    rw [s.size_counted] at inside
    exact Nat.lt_of_lt_of_le inside (Nat.mod_le _ _)
  have same : s.counted.ranges[i] = s.ranges[i] := by simp [DraftState.counted]
  simp only [same]
  exact cell_range holds drafted small

theorem targets_eq : t.targets start = s.counted.targets := by
  rw [targets, DraftState.targets, rangeCount_eq holds]
  congr 1
  · apply List.ext_getElem (by simp)
    intro value inside _
    rw [List.length_map, List.length_range] at inside
    rw [List.getElem_map, List.getElem_range, Nat.add_assoc, cell_direct holds inside,
      Vector.getElem_toList]
    rfl
  · apply List.ext_getElem (by simp)
    intro i inside _
    rw [List.length_map, List.length_range] at inside
    rw [List.getElem_map, List.getElem_range, cell_counted holds inside (by decide), List.getElem_map,
      Array.getElem_toList]
    rfl

end

end CellTable

/-! ### Look-ups in an automaton -/

namespace Automaton

variable {a : Automaton} {q : a.State} {s : DraftState}

theorem follow_eq {target : UInt16} (member : target ∈ a.table.targets (a.start q)) :
    a.follow q target member = (named? target).bind fun n => a.state? n.toNat := by
  unfold follow named?
  split
  · rfl
  · next there => rw [Option.bind_some, state?, dif_pos (a.closed q target member there)]

variable (holds : a.table.Holds (a.start q) s)
include holds

theorem terminal?_eq : a.terminal? q = s.terminal? := by
  rw [terminal?, fixedCell_eq_cell, CellTable.cell_terminal holds, DraftState.terminal?]

theorem isDeadEnd_eq : a.isDeadEnd q = s.isDeadEnd := by
  rw [isDeadEnd, fixedCell_eq_cell, CellTable.cell_transitionCount holds, DraftState.isDeadEnd]

theorem direct?_eq (value : UInt8) :
    a.direct? q value = (s.direct? value).bind fun n => a.state? n.toNat := by
  rw [direct?, follow_eq, fixedCell_eq_cell, CellTable.cell_direct holds value.toNat_lt]
  rfl

theorem arcs_eq :
    a.arcs q = s.counted.ranges.toList.map fun r =>
      ⟨r.low, r.high, (named? r.target).bind fun n => a.state? n.toNat⟩ := by
  have count := CellTable.rangeCount_eq holds
  refine List.ext_getElem ?_ ?_
  · rw [arcs, List.length_ofFn, List.length_map, Array.length_toList]
    exact count
  · intro i inside _
    have inside' : i < s.counted.ranges.size := by
      rw [arcs, List.length_ofFn] at inside
      exact Nat.lt_of_lt_of_eq inside count
    have cell {k : Nat} (small : k < rangeCells) := CellTable.cell_counted holds inside' small
    simp only [arcs, List.getElem_ofFn, arc, follow_eq, rangeCell_eq_cell, List.getElem_map,
      Array.getElem_toList]
    rw [cell (by decide), cell (by decide), cell (by decide)]
    rfl

theorem range?_eq_counted (value : UInt16) :
    a.range? q value = (s.counted.range? value).bind fun n => a.state? n.toNat := by
  rw [range?, arcs_eq holds, List.find?_map, DraftState.range?, Option.bind_map, Option.bind_assoc]
  rfl

theorem range?_eq (few : s.ranges.size < UInt16.size) (value : UInt16) :
    a.range? q value = (s.range? value).bind fun n => a.state? n.toNat := by
  rw [range?_eq_counted holds, DraftState.counted_of_few few]

end Automaton

/-! ### The table of a draft -/

def CellTable.addStates (t : CellTable) (states : List DraftState) : CellTable :=
  states.foldl (fun t s => t.addBlock s.block) t

theorem addStates_extends (t : CellTable) (states : List DraftState) :
    ∃ offsets cells, offsets.length = states.length ∧
      (t.addStates states).offsets.toList = t.offsets.toList ++ offsets ∧
      (t.addStates states).cells.toList = t.cells.toList ++ cells := by
  induction states generalizing t with
  | nil => exact ⟨[], [], rfl, (List.append_nil _).symm, (List.append_nil _).symm⟩
  | cons s rest ih =>
    obtain ⟨offsets, cells, length, offsets_eq, cells_eq⟩ := ih (t.addBlock s.block)
    refine ⟨.ofNat t.cells.size :: offsets, s.block.toList ++ cells, congrArg Nat.succ length, ?_, ?_⟩
    · refine offsets_eq.trans ?_
      simp [CellTable.addBlock]
    · refine cells_eq.trans ?_
      simp [CellTable.addBlock]

theorem stateCount_addStates (t : CellTable) (states : List DraftState) :
    (t.addStates states).stateCount = t.stateCount + states.length := by
  obtain ⟨offsets, _, length, offsets_eq, -⟩ := addStates_extends t states
  have size := congrArg List.length offsets_eq
  rwa [Array.length_toList, List.length_append, Array.length_toList, length] at size

theorem size_addStates (t : CellTable) (states : List DraftState) :
    (t.addStates states).cells.size = states.foldl (fun n s => n + s.cellCount) t.cells.size := by
  induction states generalizing t with
  | nil => rfl
  | cons s rest ih =>
    have size : (t.addBlock s.block).cells.size = t.cells.size + s.cellCount := by
      rw [← s.length_block, Array.length_toList]
      exact Array.size_append
    rw [List.foldl_cons, ← size]
    exact ih (t.addBlock s.block)

theorem holds_addStates {t : CellTable} {before after : List DraftState} {s : DraftState}
    (added : t = CellTable.addStates ⟨#[], #[]⟩ (before ++ s :: after))
    (small : t.cells.size < UInt32.size) {q : Fin t.stateCount} (place : q.val = before.length) :
    t.Holds (t.offset q).toNat s := by
  let u := CellTable.addStates ⟨#[], #[]⟩ before
  have later : t = (u.addBlock s.block).addStates after := added.trans List.foldl_append
  obtain ⟨offsets, cells, -, offsets_eq, cells_eq⟩ := addStates_extends (u.addBlock s.block) after
  rw [← later] at offsets_eq cells_eq
  simp only [CellTable.addBlock, Array.toList_push, Array.toList_append, List.append_assoc,
    List.singleton_append] at offsets_eq cells_eq
  have bound : u.cells.size < UInt32.size := by
    have length := congrArg List.length cells_eq
    rw [Array.length_toList, List.length_append, Array.length_toList] at length
    omega
  have index : q.val = u.offsets.toList.length := by
    rw [place, Array.length_toList]
    exact ((stateCount_addStates _ before).trans (Nat.zero_add _)).symm
  have offset : t.offset q = .ofNat u.cells.size := by
    have found : t.offsets.toList[q.val]? = some (.ofNat u.cells.size) := by
      rw [offsets_eq, index, List.getElem?_append_right (Nat.le_refl _), Nat.sub_self]
      rfl
    rw [Array.getElem?_toList] at found
    exact (Array.getElem?_eq_some_iff.mp found).2
  refine ⟨cells, ?_⟩
  rw [offset, UInt32.toNat_ofNat_of_lt' bound, cells_eq, ← Array.length_toList]
  exact List.drop_left

namespace Draft

variable {d : Draft}

theorem table_eq (d : Draft) : d.table = CellTable.addStates ⟨#[], #[]⟩ d.states.toList := by
  rw [Draft.table, ← Array.foldl_toList]
  rfl

theorem stateCount_table (d : Draft) : d.table.stateCount = d.stateCount := by
  rw [table_eq, stateCount_addStates]
  exact Nat.zero_add _

theorem size_table (d : Draft) :
    d.table.cells.size = d.states.toList.foldl (fun n s => n + s.cellCount) 0 := by
  rw [table_eq, size_addStates]
  rfl

theorem states_split {i : Nat} (inside : i < d.states.size) :
    d.states.toList = d.states.toList.take i ++ d.states[i] :: d.states.toList.drop (i + 1) := by
  rw [← Array.getElem_toList, ← List.drop_eq_getElem_cons, List.take_append_drop]

theorem holds_table (small : d.table.cells.size < UInt32.size) (q : Fin d.table.stateCount)
    {s : DraftState} (found : d.states[q.val]? = some s) :
    d.table.Holds (d.table.offset q).toNat s := by
  obtain ⟨inside, there⟩ := Array.getElem?_eq_some_iff.mp found
  have split := states_split inside
  rw [there] at split
  refine holds_addStates (d.table_eq.trans (congrArg _ split)) small ?_
  rw [List.length_take_of_le (Nat.le_of_lt inside)]

/-! ### Decoding -/

/-- What a draft needs so that its bytes hold an automaton with its states. -/
structure Sound (d : Draft) : Prop where
  nonempty : 0 < d.stateCount
  numbered : d.stateCount ≤ maxStates
  closed : ∀ s ∈ d.states, ∀ target ∈ s.targets, target ≠ noTarget → target.toNat < d.stateCount

theorem block_table (sound : d.Sound) (small : d.table.cells.size < UInt32.size)
    (q : Fin d.table.stateCount) :
    d.table.blockStop (d.table.offset q).toNat ≤ d.table.cells.size ∧
      ∀ target ∈ d.table.targets (d.table.offset q).toNat, target ≠ noTarget →
        target.toNat < d.table.stateCount := by
  have drafted : q.val < d.states.size := Nat.lt_of_lt_of_eq q.isLt d.stateCount_table
  have holds := holds_table small q (Array.getElem?_eq_getElem drafted)
  have closed := sound.closed _ (Array.getElem_mem drafted)
  refine ⟨CellTable.blockStop_le holds, ?_⟩
  intro target member named
  rw [CellTable.targets_eq holds] at member
  rw [stateCount_table]
  exact closed target (DraftState.mem_targets_of_counted member) named

/-- The bytes of a draft hold an automaton on the draft's table. -/
theorem decode_toBytes (sound : d.Sound) (small : d.table.cells.size < UInt32.size) :
    ∃ a : Automaton, Automaton.decode d.toBytes = .ok a ∧ a.table = d.table := by
  have nonempty : 0 < d.table.stateCount := d.stateCount_table ▸ sound.nonempty
  have numbered : d.table.stateCount < signBit :=
    d.stateCount_table ▸ Nat.lt_of_le_of_lt sound.numbered (by decide)
  let a : Automaton := ⟨d.table, nonempty, fun q => (block_table sound small q).1,
    fun q => (block_table sound small q).2⟩
  have read : Automaton.decode d.toBytes = .ok a :=
    Automaton.decode_eq_ok.mpr (CellTable.ofBytes_toBytes nonempty numbered)
  exact ⟨a, read, rfl⟩

theorem table_of_decode {a : Automaton} (nonempty : 0 < d.stateCount)
    (numbered : d.stateCount ≤ maxStates) (decoded : Automaton.decode d.toBytes = .ok a) :
    a.table = d.table := by
  have some_state : 0 < d.table.stateCount := d.stateCount_table ▸ nonempty
  have few_states : d.table.stateCount < signBit :=
    d.stateCount_table ▸ Nat.lt_of_le_of_lt numbered (by decide)
  have read := Automaton.decode_eq_ok.mp decoded
  rw [toBytes, CellTable.ofBytes_toBytes some_state few_states] at read
  exact (Except.ok.inj read).symm

theorem holds_state {a : Automaton} (same : a.table = d.table)
    (small : d.table.cells.size < UInt32.size) (q : a.State) {s : DraftState}
    (found : d.states[q.val]? = some s) : a.table.Holds (a.start q) s := by
  obtain ⟨table, _, _, _⟩ := a
  obtain rfl : table = d.table := same
  exact holds_table small q found

end Draft

end ParseKit
