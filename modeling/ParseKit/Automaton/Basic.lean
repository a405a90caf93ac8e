import ParseKit.Automaton.Table
import ParseKit.Text.Utf16

/-!
Lexer automata. An `Automaton` is a cell table in which every block lies within the cells and
every target names a state, so that its look-ups read only cells that exist and lead only to
states that exist. Each access of a cell carries the proof that the cell is there.
-/

namespace ParseKit

/-- A deterministic automaton over UTF-16 code units; state 0 is where it starts. -/
structure Automaton where
  table : CellTable
  nonempty : 0 < table.stateCount
  fits : ∀ s : Fin table.stateCount, table.blockStop (table.offset s).toNat ≤ table.cells.size
  closed : ∀ s : Fin table.stateCount, ∀ target ∈ table.targets (table.offset s).toNat,
    target ≠ noTarget → target.toNat < table.stateCount

namespace Automaton

abbrev stateCount (a : Automaton) : Nat := a.table.stateCount

abbrev State (a : Automaton) := Fin a.stateCount

def initial (a : Automaton) : a.State := ⟨0, a.nonempty⟩

def state? (a : Automaton) (number : Nat) : Option a.State :=
  if h : number < a.stateCount then some ⟨number, h⟩ else none

def start (a : Automaton) (s : a.State) : Nat := (a.table.offset s).toNat

def rangeCount (a : Automaton) (s : a.State) : Nat := a.table.rangeCount (a.start s)

theorem blockStop_le (a : Automaton) (s : a.State) :
    a.start s + fixedCells + rangeCells * a.rangeCount s ≤ a.table.cells.size :=
  a.fits s

theorem fixed_lt (a : Automaton) (s : a.State) {k : Nat} (h : k < fixedCells) :
    a.start s + k < a.table.cells.size := by
  have := a.blockStop_le s
  omega

theorem range_lt (a : Automaton) (s : a.State) {i k : Nat} (hi : i < a.rangeCount s)
    (hk : k < rangeCells) :
    a.start s + fixedCells + rangeCells * i + k < a.table.cells.size := by
  have := a.blockStop_le s
  simp only [rangeCells] at *
  omega

def fixedCell (a : Automaton) (s : a.State) (k : Nat) (h : k < fixedCells) : UInt16 :=
  have := a.fixed_lt s h
  a.table.cells[a.start s + k]

def rangeCell (a : Automaton) (s : a.State) (i : Fin (a.rangeCount s)) (k : Nat)
    (h : k < rangeCells) : UInt16 :=
  have := a.range_lt s i.isLt h
  a.table.cells[a.start s + fixedCells + rangeCells * i.val + k]

theorem fixedCell_eq_cell (a : Automaton) (s : a.State) (k : Nat) (h : k < fixedCells) :
    a.fixedCell s k h = a.table.cell (a.start s + k) := by
  simp [fixedCell, CellTable.cell, a.fixed_lt s h]

theorem rangeCell_eq_cell (a : Automaton) (s : a.State) (i : Fin (a.rangeCount s)) (k : Nat)
    (h : k < rangeCells) :
    a.rangeCell s i k h = a.table.cell (a.start s + fixedCells + rangeCells * i.val + k) := by
  simp [rangeCell, CellTable.cell, a.range_lt s i.isLt h]

theorem direct_mem_targets (a : Automaton) (s : a.State) (value : UInt8)
    (h : headerCells + value.toNat < fixedCells) :
    a.fixedCell s (headerCells + value.toNat) h ∈ a.table.targets (a.start s) := by
  rw [fixedCell_eq_cell, CellTable.targets, List.mem_append]
  refine .inl (List.mem_map.mpr ⟨value.toNat, List.mem_range.mpr value.toNat_lt, ?_⟩)
  rw [Nat.add_assoc]

theorem range_mem_targets (a : Automaton) (s : a.State) (i : Fin (a.rangeCount s))
    (h : 2 < rangeCells) : a.rangeCell s i 2 h ∈ a.table.targets (a.start s) := by
  rw [rangeCell_eq_cell, CellTable.targets, List.mem_append]
  exact .inr (List.mem_map.mpr ⟨i.val, List.mem_range.mpr i.isLt, rfl⟩)

/-- The state that a target cell of `s` names, if any. -/
def follow (a : Automaton) (s : a.State) (target : UInt16)
    (h : target ∈ a.table.targets (a.start s)) : Option a.State :=
  if h' : target = noTarget then none
  else some ⟨target.toNat, a.closed s target h h'⟩

/-! ### Look-ups -/

def terminal? (a : Automaton) (s : a.State) : Option UInt16 :=
  let cell := a.fixedCell s 0 (by decide)
  if cell = noTerminal then none else some cell

def isDeadEnd (a : Automaton) (s : a.State) : Bool := a.fixedCell s 1 (by decide) == 0

def direct? (a : Automaton) (s : a.State) (value : UInt8) : Option a.State :=
  have h : headerCells + value.toNat < fixedCells := by
    have := value.toNat_lt
    simp only [headerCells, fixedCells, directCount]
    omega
  a.follow s (a.fixedCell s (headerCells + value.toNat) h) (a.direct_mem_targets s value h)

structure Arc (a : Automaton) where
  low : UInt16
  high : UInt16
  target : Option a.State

def Arc.covers {a : Automaton} (arc : Arc a) (value : UInt16) : Bool :=
  arc.low ≤ value && value ≤ arc.high

def arc (a : Automaton) (s : a.State) (i : Fin (a.rangeCount s)) : Arc a where
  low := a.rangeCell s i 0 (by decide)
  high := a.rangeCell s i 1 (by decide)
  target := a.follow s (a.rangeCell s i 2 (by decide)) (a.range_mem_targets s i (by decide))

def arcs (a : Automaton) (s : a.State) : List (Arc a) := List.ofFn (a.arc s)

def range? (a : Automaton) (s : a.State) (value : UInt16) : Option a.State :=
  ((a.arcs s).find? (·.covers value)).bind Arc.target

def next? (a : Automaton) (s : a.State) (unit : UInt16) : Option a.State :=
  if unit.toNat < directCount then a.direct? s (.ofNat unit.toNat) else a.range? s unit

/-- The target of a character; a surrogate pair takes two ranges. -/
def step? (a : Automaton) (s : a.State) (c : Char) : Option a.State :=
  match Units.ofChar c with
  | .single unit => a.next? s unit
  | .pair lead trail => (a.range? s lead).bind fun middle => a.range? middle trail

end Automaton

end ParseKit
