import ParseKit.Proofs.Automaton.Binary

/-!
# The binary format of automata

Which bytes hold an automaton (`Automaton.Format`), and what is wrong with all others
(`Automaton.Refused`, whose cases are in the order in which faults are looked for):
`Automaton.decode_reads_format`.
-/

namespace ParseKit

theorem toInt_toInt32 (w : UInt32) :
    w.toInt32.toInt = if w.toNat < signBit then (w.toNat : Int) else w.toNat - UInt32.size := by
  have value : w.toInt32.toInt =
      if 2 * w.toNat < UInt32.size then (w.toNat : Int) else w.toNat - UInt32.size :=
    BitVec.toInt_eq_toNat_cond _
  have half : 2 * w.toNat < UInt32.size ↔ w.toNat < signBit := by
    simp only [UInt32.size, signBit]
    omega
  simp only [value, half]

namespace Automaton

/-! ### The format -/

/-- Every third cell: of the cells of ranges, the targets. -/
def thirds : List UInt16 → List UInt16
  | _ :: _ :: target :: rest => target :: thirds rest
  | _ => []

/-- The block at `offset` counts `ranges` ranges, and it ends within the cells. -/
def BlockFits (cells : List UInt16) (offset : UInt32) (ranges : UInt16) : Prop :=
  cells[offset.toNat + 2]? = some ranges ∧ offset.toNat + 259 + 3 * ranges.toNat ≤ cells.length

/-- The targets of the block at `offset`, the direct ones first. -/
def blockTargets (cells : List UInt16) (offset : UInt32) (ranges : UInt16) : List UInt16 :=
  (cells.drop (offset.toNat + 3)).take 256 ++
    thirds ((cells.drop (offset.toNat + 259)).take (3 * ranges.toNat))

def Known (count : Nat) (target : UInt16) : Prop := target = 0xFFFF ∨ target.toNat < count

def BlockSound (count : Nat) (cells : List UInt16) (offset : UInt32) : Prop :=
  ∃ ranges, BlockFits cells offset ranges ∧
    ∀ target ∈ blockTargets cells offset ranges, Known count target

/-- The bytes begin with the number of states and their offsets, and `rest` follows. -/
structure Headed (bytes : List UInt8) (offsets : List UInt32) (rest : List UInt8) : Prop where
  written : bytes = bytes32 (.ofNat offsets.length) ++ offsets.flatMap bytes32 ++ rest
  nonempty : 0 < offsets.length
  signed : offsets.length < 0x80000000

/-- The bytes of an automaton with these offsets and cells. -/
structure Format (bytes : List UInt8) (offsets : List UInt32) (cells : List UInt16) : Prop where
  headed : Headed bytes offsets (cells.flatMap bytes16)
  sound : ∀ offset ∈ offsets, BlockSound offsets.length cells offset

/-- The first thing wrong with bytes that hold no automaton. -/
inductive Refused (bytes : List UInt8) : Fault → Prop
  | short (few : bytes.length < 4) : Refused bytes (.tooShort 4 bytes.length)
  | negative {count : UInt32} {rest : List UInt8} (header : bytes = bytes32 count ++ rest)
      (negative : count.toInt32.toInt < 0) :
      Refused bytes (.negativeStateCount count.toInt32.toInt)
  | empty {rest : List UInt8} (header : bytes = bytes32 0 ++ rest) : Refused bytes .noStates
  | truncated {count : UInt32} {rest : List UInt8} (header : bytes = bytes32 count ++ rest)
      (positive : 0 < count.toInt32.toInt) (few : bytes.length < 4 + 4 * count.toNat) :
      Refused bytes (.tooShort (4 + 4 * count.toNat) bytes.length)
  | odd {offsets : List UInt32} {rest : List UInt8} (headed : Headed bytes offsets rest)
      (odd : rest.length % 2 = 1) : Refused bytes (.oddCellBytes rest.length)
  | block {before after : List UInt32} {offset : UInt32} {cells : List UInt16}
      (headed : Headed bytes (before ++ offset :: after) (cells.flatMap bytes16))
      (sound : ∀ o ∈ before, BlockSound (before ++ offset :: after).length cells o)
      (outside : ∀ ranges, ¬ BlockFits cells offset ranges) :
      Refused bytes (.blockOutOfBounds before.length offset cells.length)
  | target {before after : List UInt32} {offset : UInt32} {cells : List UInt16} {ranges : UInt16}
      {known more : List UInt16} {target : UInt16}
      (headed : Headed bytes (before ++ offset :: after) (cells.flatMap bytes16))
      (sound : ∀ o ∈ before, BlockSound (before ++ offset :: after).length cells o)
      (fits : BlockFits cells offset ranges)
      (targets : blockTargets cells offset ranges = known ++ target :: more)
      (fine : ∀ t ∈ known, Known (before ++ offset :: after).length t)
      (unknown : ¬ Known (before ++ offset :: after).length target) :
      Refused bytes (.missingTarget before.length target (before ++ offset :: after).length)

/-! ### Targets of a block -/

theorem thirds_take {cells : List UInt16} {n : Nat} (long : 3 * n ≤ cells.length) :
    thirds (cells.take (3 * n)) = (List.range n).map fun i => cells.getD (3 * i + 2) 0 := by
  induction n generalizing cells with
  | zero => simp [thirds]
  | succ n ih =>
    match cells, long with
    | low :: high :: target :: rest, long =>
      simp only [List.length_cons] at long
      rw [Nat.mul_succ, List.take_succ_cons, List.take_succ_cons, List.take_succ_cons, thirds,
        ih (by omega), List.range_succ_eq_map, List.map_cons, List.map_map]
      rfl

end Automaton

namespace CellTable

variable {t : CellTable} {offset : UInt32} {ranges : UInt16}

theorem cell_eq_getD (t : CellTable) (i : Nat) : t.cell i = t.cells.toList.getD i 0 := by
  rw [cell, Array.getD_eq_getD_getElem?, List.getD_eq_getElem?_getD, Array.getElem?_toList]

theorem rangeCount_of_fits (fits : Automaton.BlockFits t.cells.toList offset ranges) :
    t.rangeCount offset.toNat = ranges.toNat := by
  rw [rangeCount, cell_eq_getD, List.getD_eq_getElem?_getD, fits.1, Option.getD_some]

theorem blockStop_le_iff :
    t.blockStop offset.toNat ≤ t.cells.size ↔
      ∃ ranges, Automaton.BlockFits t.cells.toList offset ranges := by
  constructor
  · intro inside
    have third : offset.toNat + 2 < t.cells.size := by
      simp only [blockStop, fixedCells, headerCells, directCount] at inside
      omega
    refine ⟨t.cell (offset.toNat + 2), ?_, ?_⟩
    · rw [Array.getElem?_toList, Array.getElem?_eq_getElem third]
      simp [cell, third]
    · rw [Array.length_toList]
      exact inside
  · rintro ⟨ranges, fits⟩
    rw [blockStop, rangeCount_of_fits fits, ← Array.length_toList]
    exact fits.2

theorem targets_of_fits (fits : Automaton.BlockFits t.cells.toList offset ranges) :
    t.targets offset.toNat = Automaton.blockTargets t.cells.toList offset ranges := by
  have inside := fits.2
  rw [targets, Automaton.blockTargets, rangeCount_of_fits fits,
    Automaton.thirds_take (by rw [List.length_drop]; omega)]
  congr 1
  · apply List.ext_getElem
    · simp only [List.length_map, List.length_range, List.length_take, List.length_drop, directCount]
      omega
    · intro value small small'
      have here : offset.toNat + headerCells + value < t.cells.toList.length := by
        simp only [List.length_map, List.length_range, directCount, headerCells] at small ⊢
        omega
      rw [List.getElem_map, List.getElem_range, List.getElem_take, List.getElem_drop, cell_eq_getD,
        List.getD_eq_getElem?_getD, List.getElem?_eq_getElem here]
      rfl
  · apply List.map_congr_left
    intro i _
    rw [cell_eq_getD, List.getD_eq_getElem?_getD, List.getD_eq_getElem?_getD, List.getElem?_drop,
      Nat.add_assoc]
    rfl

theorem known_iff {count : Nat} {target : UInt16} :
    Automaton.Known count target ↔ ¬ (target ≠ noTarget ∧ count ≤ target.toNat) := by
  rw [Automaton.Known, noTarget]
  by_cases dead : target = 0xFFFF
  · simp [dead]
  · simp [dead]

theorem blockFault?_eq_none_iff {state : Nat} :
    t.blockFault? state offset = none ↔
      Automaton.BlockSound t.stateCount t.cells.toList offset := by
  unfold blockFault? Automaton.BlockSound
  constructor
  · intro sound
    split at sound
    · contradiction
    · next inside =>
      obtain ⟨ranges, fits⟩ := blockStop_le_iff.mp (Nat.le_of_not_lt inside)
      refine ⟨ranges, fits, ?_⟩
      intro target member
      rw [Option.map_eq_none_iff, List.find?_eq_none, targets_of_fits fits] at sound
      have fine := sound target member
      rw [Bool.and_eq_true, bne_iff_ne, decide_eq_true_eq] at fine
      exact known_iff.mpr fine
  · rintro ⟨ranges, fits, sound⟩
    rw [if_neg (Nat.not_lt_of_le (blockStop_le_iff.mpr ⟨ranges, fits⟩)), Option.map_eq_none_iff,
      List.find?_eq_none, targets_of_fits fits]
    intro target member
    rw [Bool.and_eq_true, bne_iff_ne, decide_eq_true_eq]
    exact known_iff.mp (sound target member)

/-- What is wrong with a block: it leaves the cells, or else one of its targets is the first that
names no state. -/
theorem blockFault?_eq_some_iff {state : Nat} {fault : Fault} :
    t.blockFault? state offset = some fault ↔
      ((∀ ranges, ¬ Automaton.BlockFits t.cells.toList offset ranges) ∧
        fault = .blockOutOfBounds state offset t.cells.size) ∨
      ∃ ranges known target more, Automaton.BlockFits t.cells.toList offset ranges ∧
        Automaton.blockTargets t.cells.toList offset ranges = known ++ target :: more ∧
        (∀ x ∈ known, Automaton.Known t.stateCount x) ∧ ¬ Automaton.Known t.stateCount target ∧
        fault = .missingTarget state target t.stateCount := by
  unfold blockFault?
  by_cases fits : ∃ ranges, Automaton.BlockFits t.cells.toList offset ranges
  · rw [if_neg (Nat.not_lt_of_le (blockStop_le_iff.mpr fits)), Option.map_eq_some_iff]
    obtain ⟨ranges, fits⟩ := fits
    rw [targets_of_fits fits]
    constructor
    · rintro ⟨target, found, rfl⟩
      obtain ⟨bad, known, more, split, fine⟩ := List.find?_eq_some_iff_append.mp found
      rw [Bool.and_eq_true, bne_iff_ne, decide_eq_true_eq] at bad
      refine .inr ⟨ranges, known, target, more, fits, split, ?_, mt known_iff.mp (not_not_intro bad),
        rfl⟩
      intro x member
      have fine := fine x member
      rw [Bool.not_eq_true', ← Bool.not_eq_true, Bool.and_eq_true, bne_iff_ne,
        decide_eq_true_eq] at fine
      exact known_iff.mpr fine
    · rintro (⟨outside, -⟩ | ⟨ranges', known, target, more, fits', split, fine, unknown, rfl⟩)
      · exact absurd fits (outside ranges)
      · obtain rfl := Option.some.inj (fits.1.symm.trans fits'.1)
        refine ⟨target, List.find?_eq_some_iff_append.mpr ⟨?_, known, more, split, ?_⟩, rfl⟩
        · rw [Bool.and_eq_true, bne_iff_ne, decide_eq_true_eq]
          exact Classical.not_not.mp (mt known_iff.mpr unknown)
        · intro x member
          rw [Bool.not_eq_true', ← Bool.not_eq_true, Bool.and_eq_true, bne_iff_ne,
            decide_eq_true_eq]
          exact known_iff.mp (fine x member)
  · rw [if_pos (Nat.lt_of_not_le (mt blockStop_le_iff.mp fits)), Option.some.injEq]
    constructor
    · rintro rfl
      exact .inl ⟨not_exists.mp fits, rfl⟩
    · rintro (⟨-, rfl⟩ | ⟨ranges, _, _, _, fits', -⟩)
      · rfl
      · exact absurd ⟨ranges, fits'⟩ fits

theorem fault?_eq_none_iff :
    t.fault? = none ↔
      ∀ offset ∈ t.offsets.toList, Automaton.BlockSound t.stateCount t.cells.toList offset := by
  rw [fault?, List.findSome?_eq_none_iff]
  constructor
  · intro sound offset member
    obtain ⟨i, found⟩ := List.mem_iff_getElem?.mp member
    exact blockFault?_eq_none_iff.mp
      (sound (offset, i) (List.mem_zipIdx_iff_getElem?.mpr found))
  · intro sound pair member
    have found := List.mem_zipIdx_iff_getElem?.mp member
    exact blockFault?_eq_none_iff.mpr (sound pair.1 (List.mem_of_getElem? found))

theorem fault?_eq_some_iff {fault : Fault} :
    t.fault? = some fault ↔
      ∃ before offset after, t.offsets.toList = before ++ offset :: after ∧
        (∀ o ∈ before, Automaton.BlockSound t.stateCount t.cells.toList o) ∧
        t.blockFault? before.length offset = some fault := by
  rw [fault?, List.findSome?_eq_some_iff]
  constructor
  · rintro ⟨sounds, ⟨offset, state⟩, more, split, found, sound⟩
    have parts := congrArg (List.map Prod.fst) split
    rw [List.zipIdx_map_fst, List.map_append, List.map_cons] at parts
    have place : t.offsets.toList.zipIdx[sounds.length]? = some (offset, state) := by
      rw [split, List.getElem?_append_right (Nat.le_refl _), Nat.sub_self]
      rfl
    obtain rfl : state = sounds.length := by
      rw [List.getElem?_zipIdx, Option.map_eq_some_iff] at place
      obtain ⟨_, -, same⟩ := place
      rw [← (Prod.mk.inj same).2, Nat.zero_add]
    refine ⟨sounds.map Prod.fst, offset, more.map Prod.fst, parts, ?_, ?_⟩
    · intro o member
      obtain ⟨pair, inside, rfl⟩ := List.mem_map.mp member
      exact blockFault?_eq_none_iff.mp (sound pair inside)
    · rw [List.length_map]
      exact found
  · rintro ⟨before, offset, after, split, sound, found⟩
    refine ⟨before.zipIdx, (offset, before.length), after.zipIdx (before.length + 1), ?_, found, ?_⟩
    · rw [split, List.zipIdx_append, List.zipIdx_cons, Nat.zero_add]
    · intro pair member
      have there := List.mem_zipIdx_iff_getElem?.mp member
      exact blockFault?_eq_none_iff.mpr (sound pair.1 (List.mem_of_getElem? there))

/-! ### The bytes of a table -/

section

variable {bytes : ByteArray} {count : UInt32} {rest : List UInt8}

theorem ofBytes_of_short (few : bytes.size < 4) : ofBytes bytes = .error (.tooShort 4 bytes.size) := by
  rw [ofBytes, dif_neg (Nat.not_le_of_lt few)]

theorem size_of_header (header : bytes.data.toList = bytes32 count ++ rest) :
    bytes.size = 4 + rest.length := by
  have length := congrArg List.length header
  rwa [List.length_append, length_bytes32, Array.length_toList] at length

theorem word32At_of_header (header : bytes.data.toList = bytes32 count ++ rest)
    (h : 0 + 4 ≤ bytes.size) : word32At bytes 0 h = count :=
  word32At_eq (by rw [List.drop_zero, header])

theorem ofBytes_of_negative (header : bytes.data.toList = bytes32 count ++ rest)
    (negative : count.toInt32.toInt < 0) :
    ofBytes bytes = .error (.negativeStateCount count.toInt32.toInt) := by
  have size := size_of_header header
  rw [toInt_toInt32] at negative ⊢
  unfold ofBytes
  rw [dif_pos (by omega)]
  simp only [word32At_of_header header]
  split at negative
  · omega
  · next high => rw [if_neg high, if_pos (Nat.le_of_not_lt high)]

theorem ofBytes_of_empty (header : bytes.data.toList = bytes32 0 ++ rest) :
    ofBytes bytes = .error .noStates := by
  have size := size_of_header header
  unfold ofBytes
  rw [dif_pos (by omega)]
  simp only [word32At_of_header header]
  rfl

theorem ofBytes_of_truncated (header : bytes.data.toList = bytes32 count ++ rest)
    (positive : 0 < count.toInt32.toInt) (few : bytes.size < 4 + 4 * count.toNat) :
    ofBytes bytes = .error (.tooShort (4 + 4 * count.toNat) bytes.size) := by
  have size := size_of_header header
  have bound := count.toNat_lt
  rw [toInt_toInt32] at positive
  unfold ofBytes
  rw [dif_pos (by omega)]
  simp only [word32At_of_header header]
  split at positive
  · next low =>
    rw [if_neg (Nat.not_le_of_lt low), if_neg (by omega), dif_neg (Nat.not_le_of_lt few)]
  · simp only [UInt32.size] at positive
    omega

end

section

variable {bytes : ByteArray} {offsets : List UInt32} {rest : List UInt8}
  (headed : Automaton.Headed bytes.data.toList offsets rest)
include headed

theorem size_of_headed : bytes.size = 4 + 4 * offsets.length + rest.length := by
  have length := congrArg List.length headed.written
  rwa [List.length_append, List.length_append, length_bytes32, length_flatMap_of_even length_bytes32,
    Array.length_toList] at length

theorem ofBytes_of_odd (odd : rest.length % 2 = 1) :
    ofBytes bytes = .error (.oddCellBytes rest.length) := by
  have size := size_of_headed headed
  have signed : offsets.length < signBit := headed.signed
  have header := headed.written
  rw [List.append_assoc] at header
  have count : (UInt32.ofNat offsets.length).toNat = offsets.length :=
    UInt32.toNat_ofNat_of_lt' (Nat.lt_trans signed (by decide))
  have left : bytes.size - (4 + 4 * offsets.length) = rest.length := by omega
  unfold ofBytes
  rw [dif_pos (by omega)]
  simp only [word32At_of_header header, count]
  rw [if_neg (Nat.not_le_of_lt signed), if_neg (Nat.ne_of_gt headed.nonempty), dif_pos (by omega),
    if_pos (by rw [left, odd]), left]

end

theorem toBytes_eq_iff {t : CellTable} {bytes : ByteArray} :
    t.toBytes = bytes ↔ bytes.data.toList =
      bytes32 (.ofNat t.stateCount) ++ t.offsets.toList.flatMap bytes32 ++
        t.cells.toList.flatMap bytes16 := by
  rw [← toList_toBytes, ByteArray.ext_iff, ← Array.toList_inj, eq_comm]

theorem exists_header {bytes : List UInt8} (long : 4 ≤ bytes.length) :
    ∃ count rest, bytes = bytes32 count ++ rest := by
  match bytes, long with
  | a :: b :: c :: d :: rest, _ => exact ⟨word32 a b c d, rest, by rw [bytes32_word32]; rfl⟩

theorem exists_offsets {bytes : List UInt8} {count : UInt32} {rest : List UInt8}
    (header : bytes = bytes32 count ++ rest) (positive : 0 < count.toInt32.toInt)
    (long : 4 + 4 * count.toNat ≤ bytes.length) :
    ∃ offsets rest, Automaton.Headed bytes offsets rest := by
  rw [header, List.length_append, length_bytes32] at long
  obtain ⟨offsets, length, front⟩ := exists_words32 (n := count.toNat)
    (List.length_take_of_le (Nat.le_of_add_le_add_left long))
  refine ⟨offsets, rest.drop (4 * count.toNat), ?_, ?_, ?_⟩
  · rw [header, List.append_assoc, ← front, List.take_append_drop, length, UInt32.ofNat_toNat]
  all_goals
    rw [toInt_toInt32] at positive
    have bound := count.toNat_lt
    split at positive
    · simp only [signBit] at *
      omega
    · simp only [UInt32.size] at positive
      omega

end CellTable

namespace Automaton

variable {bytes : ByteArray} {a : Automaton} {fault : Fault}

theorem decode_of_error (read : CellTable.ofBytes bytes = .error fault) :
    decode bytes = .error fault := by
  rw [decode, read]
  rfl

theorem ofBytes_of_headed {offsets : List UInt32} {cells : List UInt16}
    (headed : Headed bytes.data.toList offsets (cells.flatMap bytes16)) :
    CellTable.ofBytes bytes = .ok ⟨offsets.toArray, cells.toArray⟩ := by
  have written : CellTable.toBytes ⟨offsets.toArray, cells.toArray⟩ = bytes :=
    CellTable.toBytes_eq_iff.mpr headed.written
  rw [← written]
  exact CellTable.ofBytes_toBytes headed.nonempty headed.signed

theorem decode_of_headed {offsets : List UInt32} {cells : List UInt16}
    (headed : Headed bytes.data.toList offsets (cells.flatMap bytes16)) :
    decode bytes = ofTable ⟨offsets.toArray, cells.toArray⟩ := by
  rw [decode, ofBytes_of_headed headed]
  rfl

theorem ofTable_of_fault? {t : CellTable} (nonempty : 0 < t.stateCount)
    (found : t.fault? = some fault) : ofTable t = .error fault := by
  unfold ofTable
  rw [dif_pos nonempty]
  split
  · next again => rw [Option.some.inj (again.symm.trans found)]
  · next sound => exact absurd (sound.symm.trans found) (by simp)

theorem decode_of_format {offsets : List UInt32} {cells : List UInt16}
    (format : Format bytes.data.toList offsets cells) :
    ∃ a, decode bytes = .ok a ∧ a.table = ⟨offsets.toArray, cells.toArray⟩ := by
  let t : CellTable := ⟨offsets.toArray, cells.toArray⟩
  have sound : t.fault? = none := CellTable.fault?_eq_none_iff.mpr format.sound
  refine ⟨⟨t, format.headed.nonempty, ?_, ?_⟩, ?_, rfl⟩
  · intro s
    exact CellTable.fits_of_blockFault? (CellTable.blockFault?_eq_none sound s)
  · intro s
    exact CellTable.closed_of_blockFault? (CellTable.blockFault?_eq_none sound s)
  · rw [decode_of_headed format.headed]
    exact ofTable_eq_ok.mpr rfl

theorem decode_of_fault? {offsets : List UInt32} {cells : List UInt16}
    (headed : Headed bytes.data.toList offsets (cells.flatMap bytes16))
    (found : CellTable.fault? ⟨offsets.toArray, cells.toArray⟩ = some fault) :
    decode bytes = .error fault := by
  rw [decode_of_headed headed]
  exact ofTable_of_fault? headed.nonempty found

theorem decode_of_refused (refused : Refused bytes.data.toList fault) :
    decode bytes = .error fault := by
  cases refused with
  | short few =>
    rw [Array.length_toList] at few ⊢
    exact decode_of_error (CellTable.ofBytes_of_short few)
  | negative header negative => exact decode_of_error (CellTable.ofBytes_of_negative header negative)
  | empty header => exact decode_of_error (CellTable.ofBytes_of_empty header)
  | truncated header positive few =>
    rw [Array.length_toList] at few ⊢
    exact decode_of_error (CellTable.ofBytes_of_truncated header positive few)
  | odd headed odd => exact decode_of_error (CellTable.ofBytes_of_odd headed odd)
  | block headed sound outside =>
    exact decode_of_fault? headed (CellTable.fault?_eq_some_iff.mpr
      ⟨_, _, _, rfl, sound, CellTable.blockFault?_eq_some_iff.mpr (.inl ⟨outside, rfl⟩)⟩)
  | target headed sound fits targets fine unknown =>
    exact decode_of_fault? headed (CellTable.fault?_eq_some_iff.mpr
      ⟨_, _, _, rfl, sound, CellTable.blockFault?_eq_some_iff.mpr
        (.inr ⟨_, _, _, _, fits, targets, fine, unknown, rfl⟩)⟩)

theorem refused_of_fault? {bytes : List UInt8} {offsets : List UInt32} {cells : List UInt16}
    (headed : Headed bytes offsets (cells.flatMap bytes16))
    (found : CellTable.fault? ⟨offsets.toArray, cells.toArray⟩ = some fault) :
    Refused bytes fault := by
  obtain ⟨before, offset, after, rfl, sound, bad⟩ := CellTable.fault?_eq_some_iff.mp found
  rcases CellTable.blockFault?_eq_some_iff.mp bad with
    ⟨outside, rfl⟩ | ⟨ranges, known, target, more, fits, targets, fine, unknown, rfl⟩
  · exact .block headed sound outside
  · exact .target headed sound fits targets fine unknown

/-- Bytes that hold no automaton are refused for some reason. -/
theorem format_or_refused (bytes : List UInt8) :
    (∃ offsets cells, Format bytes offsets cells) ∨ ∃ fault, Refused bytes fault := by
  by_cases few : bytes.length < 4
  · exact .inr ⟨_, .short few⟩
  obtain ⟨count, rest, header⟩ := CellTable.exists_header (Nat.le_of_not_lt few)
  rcases Int.lt_trichotomy count.toInt32.toInt 0 with negative | zero | positive
  · exact .inr ⟨_, .negative header negative⟩
  · have none : count = 0 := by
      rw [toInt_toInt32] at zero
      have bound := count.toNat_lt
      apply UInt32.toNat_inj.mp
      split at zero
      · simp at zero ⊢
        omega
      · simp only [UInt32.size] at zero
        omega
    exact .inr ⟨_, .empty (none ▸ header)⟩
  by_cases truncated : bytes.length < 4 + 4 * count.toNat
  · exact .inr ⟨_, .truncated header positive truncated⟩
  obtain ⟨offsets, rest, headed⟩ :=
    CellTable.exists_offsets header positive (Nat.le_of_not_lt truncated)
  rcases Nat.mod_two_eq_zero_or_one rest.length with even | odd
  · have whole : rest.length = 2 * (rest.length / 2) := by omega
    obtain ⟨cells, -, rfl⟩ := exists_words16 whole
    cases found : CellTable.fault? ⟨offsets.toArray, cells.toArray⟩ with
    | none => exact .inl ⟨offsets, cells, headed, CellTable.fault?_eq_none_iff.mp found⟩
    | some fault => exact .inr ⟨fault, refused_of_fault? headed found⟩
  · exact .inr ⟨_, .odd headed odd⟩

theorem format_of_decode (decoded : decode bytes = .ok a) :
    Format bytes.data.toList a.table.offsets.toList a.table.cells.toList := by
  rcases format_or_refused bytes.data.toList with ⟨offsets, cells, format⟩ | ⟨fault, refused⟩
  · obtain ⟨a', decoded', table⟩ := decode_of_format format
    obtain rfl := Except.ok.inj (decoded.symm.trans decoded')
    rw [table]
    exact format
  · rw [decode_of_refused refused] at decoded
    contradiction

theorem refused_of_decode (failed : decode bytes = .error fault) :
    Refused bytes.data.toList fault := by
  rcases format_or_refused bytes.data.toList with ⟨offsets, cells, format⟩ | ⟨fault', refused⟩
  · obtain ⟨a, decoded, -⟩ := decode_of_format format
    rw [decoded] at failed
    contradiction
  · obtain rfl := Except.error.inj (failed.symm.trans (decode_of_refused refused))
    exact refused

/-- Exactly the bytes of the format are decoded, to the automaton that they write down, and all
others are refused with the first thing wrong with them. -/
theorem decode_reads_format (bytes : ByteArray) :
    (∀ t : CellTable, (∃ a, decode bytes = .ok a ∧ a.table = t) ↔
      Format bytes.data.toList t.offsets.toList t.cells.toList) ∧
    (∀ a, decode bytes = .ok a →
      a.table.toBytes = bytes ∧ ∀ bytes', decode bytes' = .ok a → bytes' = bytes) ∧
    ∀ fault, decode bytes = .error fault ↔ Refused bytes.data.toList fault := by
  have rewrite {bytes : ByteArray} {a : Automaton} (decoded : decode bytes = .ok a) :
      a.table.toBytes = bytes :=
    CellTable.toBytes_eq_iff.mpr (format_of_decode decoded).headed.written
  refine ⟨?_, ?_, fun fault => ⟨refused_of_decode, decode_of_refused⟩⟩
  · intro t
    constructor
    · rintro ⟨a, decoded, rfl⟩
      exact format_of_decode decoded
    · intro format
      exact decode_of_format format
  · intro a decoded
    refine ⟨rewrite decoded, ?_⟩
    intro bytes' decoded'
    rw [← rewrite decoded', rewrite decoded]

end Automaton

end ParseKit
