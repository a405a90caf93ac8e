import ParseKit.Label

/-!
# Labels as words

A label is a table and an index in one word. `pack_pairs_words` says that no two labels have the same
table and index, that every index below 2^30 has a label in every table, and where in the word the two
parts stand.
-/

namespace ParseKit

namespace Label

namespace Kind

theorem code_lt (kind : Kind) : kind.code < 4 := by
  cases kind <;> decide

theorem ofCode_code (kind : Kind) : ofCode kind.code = kind := by
  cases kind <;> rfl

theorem code_ofCode {code : Nat} (small : code < 4) : (ofCode code).code = code := by
  match code, small with
  | 0, _ => rfl
  | 1, _ => rfl
  | 2, _ => rfl
  | 3, _ => rfl

end Kind

variable {kind : Kind} {index : Nat} {label other : Label}

/-! ### The parts of a word -/

theorem code_kind (label : Label) : label.kind.code = label.bits.toNat / indexCount := by
  have small := label.bits.toNat_lt
  exact Kind.code_ofCode (by simp only [indexCount]; omega)

theorem index_le (label : Label) : label.index ≤ maxIndex :=
  Nat.le_of_lt_succ (Nat.mod_lt _ (by decide))

theorem bits_eq (label : Label) : label.bits.toNat = label.kind.code * indexCount + label.index := by
  rw [code_kind, index, Nat.div_add_mod']

theorem ext_parts (kinds : label.kind = other.kind) (indices : label.index = other.index) :
    label = other := by
  have bits : label.bits.toNat = other.bits.toNat := by
    rw [bits_eq, bits_eq, kinds, indices]
  cases label
  cases other
  exact congrArg mk (UInt32.toNat_inj.mp bits)

theorem parts_of_bits (small : index ≤ maxIndex)
    (bits : label.bits.toNat = kind.code * indexCount + index) :
    label.kind = kind ∧ label.index = index := by
  have inside : index < indexCount := Nat.lt_succ_of_le small
  constructor
  · rw [Label.kind, bits, Nat.mul_comm, Nat.mul_add_div (by decide), Nat.div_eq_of_lt inside,
      Nat.add_zero, Kind.ofCode_code]
  · rw [Label.index, bits, Nat.mul_comm, Nat.mul_add_mod, Nat.mod_eq_of_lt inside]

/-! ### Packing -/

theorem pack_eq_ok_iff : pack kind index = .ok label ↔ label.kind = kind ∧ label.index = index := by
  constructor
  · intro packed
    unfold pack at packed
    split at packed
    · next small =>
      obtain rfl := Except.ok.inj packed
      refine parts_of_bits small (UInt32.toNat_ofNat_of_lt' ?_)
      have := kind.code_lt
      simp only [maxIndex, indexCount, UInt32.size] at small ⊢
      omega
    · contradiction
  · rintro ⟨rfl, rfl⟩
    rw [pack, if_pos label.index_le, ← bits_eq, UInt32.ofNat_toNat]

theorem pack_eq_error_iff {e : Violation} :
    pack kind index = .error e ↔ maxIndex < index ∧ e = .indexTooLarge index := by
  unfold pack
  split
  · next small => simp [Nat.not_lt_of_le small]
  · next large => simp [Nat.lt_of_not_le large, eq_comm]

/-! ### The places of the parts -/

theorem shiftRight_bits (label : Label) : label.bits >>> 30 = .ofNat label.kind.code := by
  apply UInt32.toNat_inj.mp
  have small := label.kind.code_lt
  rw [UInt32.toNat_shiftRight, UInt32.toNat_ofNat_of_lt' (by simp only [UInt32.size]; omega), code_kind]
  exact Nat.shiftRight_eq_div_pow _ 30

theorem and_bits (label : Label) : label.bits &&& 0x3FFFFFFF = .ofNat label.index := by
  apply UInt32.toNat_inj.mp
  have small := label.index_le
  rw [UInt32.toNat_and,
    UInt32.toNat_ofNat_of_lt' (by simp only [maxIndex, indexCount, UInt32.size] at small ⊢; omega)]
  exact Nat.and_two_pow_sub_one_eq_mod _ 30

/-- The tables and the indices below 2^30 are paired with the words of 32 bits: two high bits for the
table, and thirty low bits for the index. -/
theorem pack_pairs_words (kind : Kind) (index : Nat) :
    ((∃ label, pack kind index = .ok label) ↔ index ≤ 0x3FFFFFFF) ∧
      (∀ e, pack kind index = .error e ↔ 0x3FFFFFFF < index ∧ e = .indexTooLarge index) ∧
      (∀ label, pack kind index = .ok label ↔ label.kind = kind ∧ label.index = index) ∧
      (∀ label, pack label.kind label.index = .ok label) ∧
      (∀ label other : Label, label = other ↔ label.kind = other.kind ∧ label.index = other.index) ∧
      ∀ label : Label, label.bits >>> 30 = .ofNat label.kind.code ∧
        label.bits &&& 0x3FFFFFFF = .ofNat label.index := by
  refine ⟨?_, fun e => pack_eq_error_iff, fun label => pack_eq_ok_iff,
    fun label => pack_eq_ok_iff.mpr ⟨rfl, rfl⟩, fun label other => ?_,
    fun label => ⟨label.shiftRight_bits, label.and_bits⟩⟩
  · constructor
    · rintro ⟨label, packed⟩
      obtain ⟨-, rfl⟩ := pack_eq_ok_iff.mp packed
      exact label.index_le
    · intro small
      cases packed : pack kind index with
      | ok label => exact ⟨label, rfl⟩
      | error e => exact absurd small (Nat.not_le_of_lt (pack_eq_error_iff.mp packed).1)
  · constructor
    · rintro rfl
      exact ⟨rfl, rfl⟩
    · rintro ⟨kinds, indices⟩
      exact ext_parts kinds indices

end Label

end ParseKit
