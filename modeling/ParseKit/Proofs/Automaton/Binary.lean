import ParseKit.Automaton.Decode

/-!
# Cell tables and their bytes

A table is read back from its bytes: `CellTable.ofBytes_toBytes`.
-/

namespace ParseKit

/-! ### Items of one width -/

section

variable {α β : Type} {encode : α → List β} {width : Nat}

theorem exists_items (each : ∀ run : List β, run.length = width → ∃ x, encode x = run) {n : Nat}
    {cells : List β} (size : cells.length = width * n) :
    ∃ items : List α, items.length = n ∧ cells = items.flatMap encode := by
  induction n generalizing cells with
  | zero => exact ⟨[], rfl, List.length_eq_zero_iff.mp size⟩
  | succ n ih =>
    rw [Nat.mul_succ] at size
    obtain ⟨x, first⟩ := each (cells.take width) (by rw [List.length_take]; omega)
    obtain ⟨items, length, later⟩ := @ih (cells.drop width) (by rw [List.length_drop]; omega)
    refine ⟨x :: items, by rw [List.length_cons, length], ?_⟩
    rw [List.flatMap_cons, first, ← later, List.take_append_drop]

variable (even : ∀ x, (encode x).length = width)
include even

theorem length_flatMap_of_even (items : List α) :
    (items.flatMap encode).length = width * items.length := by
  induction items with
  | nil => rfl
  | cons x items ih =>
    rw [List.flatMap_cons, List.length_append, even, ih, List.length_cons, Nat.mul_succ,
      Nat.add_comm]

theorem drop_flatMap_of_even (items : List α) (n : Nat) :
    (items.flatMap encode).drop (width * n) = (items.drop n).flatMap encode := by
  induction n generalizing items with
  | zero => rfl
  | succ n ih =>
    cases items with
    | nil => simp
    | cons x items =>
      rw [Nat.mul_succ, Nat.add_comm, ← List.drop_drop, List.flatMap_cons,
        List.drop_left' (even x), ih, List.drop_succ_cons]

theorem drop_item {cells : List β} {start : Nat} {items after : List α} {rest : List β}
    {item : α} {n : Nat} (laid : cells.drop start = items.flatMap encode ++ rest)
    (found : items.drop n = item :: after) :
    ∃ rest, cells.drop (start + width * n) = encode item ++ rest := by
  have inside : width * n ≤ (items.flatMap encode).length := by
    have short : n ≤ items.length := by
      have := congrArg List.length found
      rw [List.length_drop, List.length_cons] at this
      omega
    rw [length_flatMap_of_even even]
    exact Nat.mul_le_mul_left width short
  refine ⟨after.flatMap encode ++ rest, ?_⟩
  rw [← List.drop_drop, laid, List.drop_append_of_le_length inside, drop_flatMap_of_even even,
    found, List.flatMap_cons, List.append_assoc]

end

/-! ### Words -/

theorem length_bytes16 (w : UInt16) : (bytes16 w).length = 2 := rfl

theorem length_bytes32 (w : UInt32) : (bytes32 w).length = 4 := rfl

theorem word16_bytes16 (w : UInt16) :
    word16 (.ofNat (w.toNat % 256)) (.ofNat (w.toNat / 256)) = w := by
  have bound := w.toNat_lt
  have low : (UInt8.ofNat (w.toNat % 256)).toNat = w.toNat % 256 :=
    UInt8.toNat_ofNat_of_lt' (Nat.mod_lt _ (by decide))
  have high : (UInt8.ofNat (w.toNat / 256)).toNat = w.toNat / 256 :=
    UInt8.toNat_ofNat_of_lt' (show _ < 256 by omega)
  rw [word16, low, high, show w.toNat % 256 + 256 * (w.toNat / 256) = w.toNat by omega]
  exact UInt16.ofNat_toNat

theorem word32_bytes32 (w : UInt32) :
    word32 (.ofNat (w.toNat % 256)) (.ofNat (w.toNat / 256 % 256))
      (.ofNat (w.toNat / 65536 % 256)) (.ofNat (w.toNat / 16777216)) = w := by
  have bound := w.toNat_lt
  have small {n : Nat} (h : n < 256) : (UInt8.ofNat n).toNat = n := UInt8.toNat_ofNat_of_lt' h
  rw [word32, small (by omega), small (by omega), small (by omega), small (by omega),
    show w.toNat % 256 + 256 * (w.toNat / 256 % 256) + 65536 * (w.toNat / 65536 % 256) +
      16777216 * (w.toNat / 16777216) = w.toNat by omega]
  exact UInt32.ofNat_toNat

theorem bytes16_word16 (a b : UInt8) : bytes16 (word16 a b) = [a, b] := by
  have := a.toNat_lt
  have := b.toNat_lt
  have value : (word16 a b).toNat = a.toNat + 256 * b.toNat :=
    UInt16.toNat_ofNat_of_lt' (show _ < 65536 by omega)
  rw [bytes16, value, show (a.toNat + 256 * b.toNat) % 256 = a.toNat by omega,
    show (a.toNat + 256 * b.toNat) / 256 = b.toNat by omega, UInt8.ofNat_toNat, UInt8.ofNat_toNat]

theorem bytes32_word32 (a b c d : UInt8) : bytes32 (word32 a b c d) = [a, b, c, d] := by
  have := a.toNat_lt
  have := b.toNat_lt
  have := c.toNat_lt
  have := d.toNat_lt
  have value : (word32 a b c d).toNat =
      a.toNat + 256 * b.toNat + 65536 * c.toNat + 16777216 * d.toNat :=
    UInt32.toNat_ofNat_of_lt' (show _ < 4294967296 by omega)
  rw [bytes32, value]
  generalize n_eq : a.toNat + 256 * b.toNat + 65536 * c.toNat + 16777216 * d.toNat = n
  rw [show n % 256 = a.toNat by omega, show n / 256 % 256 = b.toNat by omega,
    show n / 65536 % 256 = c.toNat by omega, show n / 16777216 = d.toNat by omega]
  simp only [UInt8.ofNat_toNat]

theorem exists_words16 {n : Nat} {bytes : List UInt8} (size : bytes.length = 2 * n) :
    ∃ ws : List UInt16, ws.length = n ∧ bytes = ws.flatMap bytes16 := by
  refine exists_items ?_ size
  intro run two
  match run, two with
  | [a, b], _ => exact ⟨word16 a b, bytes16_word16 a b⟩

theorem exists_words32 {n : Nat} {bytes : List UInt8} (size : bytes.length = 4 * n) :
    ∃ ws : List UInt32, ws.length = n ∧ bytes = ws.flatMap bytes32 := by
  refine exists_items ?_ size
  intro run four
  match run, four with
  | [a, b, c, d], _ => exact ⟨word32 a b c d, bytes32_word32 a b c d⟩

section

variable {bytes : ByteArray} {i : Nat}

theorem getElem_of_drop {k : Nat} {h : i + k < bytes.size} {b : UInt8}
    (found : (bytes.data.toList.drop i)[k]? = some b) : bytes[i + k] = b := by
  rw [List.getElem?_drop, Array.getElem?_toList] at found
  exact (Array.getElem?_eq_some_iff.mp found).2

theorem word16At_eq {h : i + 2 ≤ bytes.size} {w : UInt16} {rest : List UInt8}
    (found : bytes.data.toList.drop i = bytes16 w ++ rest) : word16At bytes i h = w := by
  rw [word16At, getElem_of_drop (k := 1) (by rw [found]; rfl)]
  change word16 bytes[i + 0] _ = w
  rw [getElem_of_drop (k := 0) (by rw [found]; rfl)]
  exact word16_bytes16 w

theorem word32At_eq {h : i + 4 ≤ bytes.size} {w : UInt32} {rest : List UInt8}
    (found : bytes.data.toList.drop i = bytes32 w ++ rest) : word32At bytes i h = w := by
  rw [word32At, getElem_of_drop (k := 1) (by rw [found]; rfl),
    getElem_of_drop (k := 2) (by rw [found]; rfl), getElem_of_drop (k := 3) (by rw [found]; rfl)]
  change word32 bytes[i + 0] _ _ _ = w
  rw [getElem_of_drop (k := 0) (by rw [found]; rfl)]
  exact word32_bytes32 w

theorem words16_eq {ws : Array UInt16} {rest : List UInt8} {h : i + 2 * ws.size ≤ bytes.size}
    (laid : bytes.data.toList.drop i = ws.toList.flatMap bytes16 ++ rest) :
    words16 bytes i ws.size h = ws := by
  apply Array.ext Array.size_ofFn
  intro n _ inside
  obtain ⟨_, found⟩ := drop_item length_bytes16 laid (List.drop_eq_getElem_cons inside)
  exact (Array.getElem_ofFn _).trans ((word16At_eq found).trans (Array.getElem_toList _))

theorem words32_eq {ws : Array UInt32} {rest : List UInt8} {h : i + 4 * ws.size ≤ bytes.size}
    (laid : bytes.data.toList.drop i = ws.toList.flatMap bytes32 ++ rest) :
    words32 bytes i ws.size h = ws := by
  apply Array.ext Array.size_ofFn
  intro n _ inside
  obtain ⟨_, found⟩ := drop_item length_bytes32 laid (List.drop_eq_getElem_cons inside)
  exact (Array.getElem_ofFn _).trans ((word32At_eq found).trans (Array.getElem_toList _))

end

/-! ### Tables -/

namespace CellTable

theorem size_toBytes (t : CellTable) :
    t.toBytes.size = 4 + 4 * t.stateCount + 2 * t.cells.size := by
  have length := congrArg List.length t.toList_toBytes
  rw [List.length_append, List.length_append, length_flatMap_of_even length_bytes32,
    length_flatMap_of_even length_bytes16, length_bytes32] at length
  exact length

theorem ofBytes_toBytes {t : CellTable} (nonempty : 0 < t.stateCount)
    (few : t.stateCount < signBit) : ofBytes t.toBytes = .ok t := by
  have size := t.size_toBytes
  have header : 4 ≤ t.toBytes.size := by omega
  have table : 4 + 4 * t.stateCount ≤ t.toBytes.size := by omega
  have front : t.toBytes.data.toList.drop 0 = bytes32 (.ofNat t.stateCount) ++
      (t.offsets.toList.flatMap bytes32 ++ t.cells.toList.flatMap bytes16) := by
    rw [List.drop_zero, t.toList_toBytes, List.append_assoc]
  have offsets : t.toBytes.data.toList.drop 4 =
      t.offsets.toList.flatMap bytes32 ++ t.cells.toList.flatMap bytes16 := by
    rw [← List.drop_zero (l := t.toBytes.data.toList), front]
    rfl
  have cells : t.toBytes.data.toList.drop (4 + 4 * t.stateCount) =
      t.cells.toList.flatMap bytes16 ++ [] := by
    rw [← List.drop_drop, offsets, List.append_nil]
    apply List.drop_left'
    rw [length_flatMap_of_even length_bytes32, Array.length_toList]
  have count : (word32At t.toBytes 0 header).toNat = t.stateCount := by
    rw [word32At_eq front]
    exact UInt32.toNat_ofNat_of_lt' (Nat.lt_trans few (by decide))
  have half : (t.toBytes.size - (4 + 4 * t.stateCount)) / 2 = t.cells.size := by omega
  have even : (t.toBytes.size - (4 + 4 * t.stateCount)) % 2 ≠ 1 := by omega
  rw [ofBytes, dif_pos header]
  simp only [count, half]
  rw [if_neg (Nat.not_le_of_lt few), if_neg (Nat.ne_of_gt nonempty), dif_pos table, if_neg even,
    words32_eq offsets, words16_eq cells]

theorem fault?_eq_none {t : CellTable}
    (fits : ∀ s : Fin t.stateCount, t.blockStop (t.offset s).toNat ≤ t.cells.size)
    (closed : ∀ s : Fin t.stateCount, ∀ target ∈ t.targets (t.offset s).toNat,
      target ≠ noTarget → target.toNat < t.stateCount) : t.fault? = none := by
  refine List.findSome?_eq_none_iff.mpr fun (offset, state) member => ?_
  rw [List.mem_zipIdx_iff_getElem?, Array.getElem?_toList] at member
  obtain ⟨inside, there⟩ := Array.getElem?_eq_some_iff.mp member
  have offset_eq : t.offset ⟨state, inside⟩ = offset := there
  change t.blockFault? state offset = none
  rw [← offset_eq, blockFault?, if_neg (Nat.not_lt_of_le (fits _)), Option.map_eq_none_iff,
    List.find?_eq_none]
  intro target member bad
  rw [Bool.and_eq_true, bne_iff_ne, decide_eq_true_eq] at bad
  exact absurd (closed _ target member bad.1) (Nat.not_lt_of_le bad.2)

end CellTable

/-! ### Automata -/

namespace Automaton

variable {a : Automaton}

theorem ofTable_eq_ok {t : CellTable} : ofTable t = .ok a ↔ a.table = t := by
  unfold ofTable
  constructor
  · intro built
    split at built
    · split at built
      · contradiction
      · exact congrArg table (Except.ok.inj built).symm
    · contradiction
  · rintro rfl
    rw [dif_pos a.nonempty]
    split
    · next fault =>
      rw [CellTable.fault?_eq_none a.fits a.closed] at fault
      contradiction
    · rfl

/-- An automaton is decoded from the bytes that hold its table. -/
theorem decode_eq_ok {bytes : ByteArray} :
    decode bytes = .ok a ↔ CellTable.ofBytes bytes = .ok a.table := by
  unfold decode
  cases CellTable.ofBytes bytes with
  | error => exact ⟨fun h => (nomatch h), fun h => (nomatch h)⟩
  | ok t =>
    change ofTable t = .ok a ↔ _
    rw [ofTable_eq_ok, Except.ok.injEq, eq_comm]

end Automaton

end ParseKit
