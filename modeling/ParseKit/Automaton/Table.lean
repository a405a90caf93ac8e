import ParseKit.Automaton.Fault
import ParseKit.Automaton.Word

/-!
The cell table of a lexer automaton, and its binary format.

A state is a block of 16-bit cells: the terminal that it recognizes, the number of its
transitions, the number of its ranges, one target for each value below 256, and then three cells
for each range (low, high, target). Blocks are found by the offset table. In binary, the number
of states comes first as a signed 32-bit word, then the offsets, then the cells; all words have
their low byte first.
-/

namespace ParseKit

def noTarget : UInt16 := 0xFFFF

def noTerminal : UInt16 := 0xFFFF

/-- The most states that an automaton can have: every number but `noTarget` names one. -/
def maxStates : Nat := 0xFFFF

def directCount : Nat := 256

/-- From here on, a 32-bit word counts as negative. -/
def signBit : Nat := 0x80000000

def headerCells : Nat := 3

def fixedCells : Nat := headerCells + directCount

def rangeCells : Nat := 3

structure CellTable where
  offsets : Array UInt32
  cells : Array UInt16
deriving DecidableEq

namespace CellTable

abbrev stateCount (t : CellTable) : Nat := t.offsets.size

def offset (t : CellTable) (s : Fin t.stateCount) : UInt32 := t.offsets[s]

/-- The cell at `i`; there are only zeros past the end. -/
def cell (t : CellTable) (i : Nat) : UInt16 := t.cells.getD i 0

def rangeCount (t : CellTable) (start : Nat) : Nat := (t.cell (start + 2)).toNat

def blockStop (t : CellTable) (start : Nat) : Nat :=
  start + fixedCells + rangeCells * t.rangeCount start

/-- The target cells of the block at `start`: the direct ones, then those of the ranges. -/
def targets (t : CellTable) (start : Nat) : List UInt16 :=
  (List.range directCount).map (fun value => t.cell (start + headerCells + value)) ++
    (List.range (t.rangeCount start)).map
      (fun i => t.cell (start + fixedCells + rangeCells * i + 2))

def addBlock (t : CellTable) (block : Array UInt16) : CellTable :=
  ⟨t.offsets.push (.ofNat t.cells.size), t.cells ++ block⟩

def toBytes (t : CellTable) : ByteArray :=
  t.cells.foldl push16 (t.offsets.foldl push32 (push32 .empty (.ofNat t.stateCount)))

/-- The state count, the offsets and the cells that `bytes` hold. -/
def ofBytes (bytes : ByteArray) : Except Fault CellTable :=
  if header : 4 ≤ bytes.size then
    let count := (word32At bytes 0 header).toNat
    if signBit ≤ count then .error (.negativeStateCount (count - UInt32.size : Int))
    else if count = 0 then .error .noStates
    else if offsets : 4 + 4 * count ≤ bytes.size then
      let cellBytes := bytes.size - (4 + 4 * count)
      if cellBytes % 2 = 1 then .error (.oddCellBytes cellBytes)
      else
        .ok ⟨words32 bytes 4 count offsets,
          words16 bytes (4 + 4 * count) (cellBytes / 2) (by omega)⟩
    else .error (.tooShort (4 + 4 * count) bytes.size)
  else .error (.tooShort 4 bytes.size)

theorem toList_toBytes (t : CellTable) :
    t.toBytes.data.toList =
      bytes32 (.ofNat t.stateCount) ++ t.offsets.toList.flatMap bytes32 ++
        t.cells.toList.flatMap bytes16 := by
  have offsets (ws : List UInt32) (b : ByteArray) :
      (ws.foldl push32 b).data.toList = b.data.toList ++ ws.flatMap bytes32 := by
    induction ws generalizing b with
    | nil => simp
    | cons w ws ih => simp [ih, toList_push32]
  have cells (ws : List UInt16) (b : ByteArray) :
      (ws.foldl push16 b).data.toList = b.data.toList ++ ws.flatMap bytes16 := by
    induction ws generalizing b with
    | nil => simp
    | cons w ws ih => simp [ih, toList_push16]
  rw [toBytes, ← Array.foldl_toList, ← Array.foldl_toList, cells, offsets, toList_push32]
  rfl

end CellTable

end ParseKit
