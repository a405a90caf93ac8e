import ParseKit.Automaton.Basic

/-!
From bytes to automata. `CellTable.fault?` finds the first state whose block leaves the table or
that leads nowhere; `Automaton.decode` refuses such a table, and bytes that hold no table at all,
with the first thing wrong with them.
-/

namespace ParseKit

namespace CellTable

def blockFault? (t : CellTable) (state : Nat) (offset : UInt32) : Option Fault :=
  if t.cells.size < t.blockStop offset.toNat then
    some (.blockOutOfBounds state offset t.cells.size)
  else
    ((t.targets offset.toNat).find? fun target =>
      target != noTarget && t.stateCount ≤ target.toNat).map
      fun target => .missingTarget state target t.stateCount

/-- The first thing wrong with the blocks of a table, state by state. -/
def fault? (t : CellTable) : Option Fault :=
  t.offsets.toList.zipIdx.findSome? fun (offset, state) => t.blockFault? state offset

theorem blockFault?_eq_none {t : CellTable} (h : t.fault? = none) (s : Fin t.stateCount) :
    t.blockFault? s.val (t.offset s) = none := by
  have mem : (t.offset s, s.val) ∈ t.offsets.toList.zipIdx := by
    rw [List.mem_zipIdx_iff_getElem?, Array.getElem?_toList]
    exact Array.getElem?_eq_getElem s.isLt
  exact List.findSome?_eq_none_iff.mp h _ mem

theorem fits_of_blockFault? {t : CellTable} {s : Nat} {offset : UInt32}
    (h : t.blockFault? s offset = none) : t.blockStop offset.toNat ≤ t.cells.size := by
  unfold blockFault? at h
  split at h
  · contradiction
  · omega

theorem closed_of_blockFault? {t : CellTable} {s : Nat} {offset : UInt32}
    (h : t.blockFault? s offset = none) :
    ∀ target ∈ t.targets offset.toNat, target ≠ noTarget → target.toNat < t.stateCount := by
  unfold blockFault? at h
  split at h
  · contradiction
  · intro target mem ne
    have := List.find?_eq_none.mp (Option.map_eq_none_iff.mp h) target mem
    simpa [ne] using this

end CellTable

namespace Automaton

def ofTable (t : CellTable) : Except Fault Automaton :=
  if nonempty : 0 < t.stateCount then
    match h : t.fault? with
    | some fault => .error fault
    | none =>
      .ok
        { table := t
          nonempty
          fits := fun s => CellTable.fits_of_blockFault? (CellTable.blockFault?_eq_none h s)
          closed := fun s => CellTable.closed_of_blockFault? (CellTable.blockFault?_eq_none h s) }
  else .error .noStates

/-- The automaton of a binary form, or the first thing wrong with the bytes. -/
def decode (bytes : ByteArray) : Except Fault Automaton :=
  (CellTable.ofBytes bytes).bind ofTable

end Automaton

end ParseKit
