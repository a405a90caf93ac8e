import ParseKit.Text.Utf16

/-!
# Code units of single characters

A character is told by its code units (`Units.ofChar_injective`), and no surrogate is a character
of its own.
-/

namespace ParseKit

def IsLead (unit : UInt16) : Prop := 0xD800 ≤ unit.toNat ∧ unit.toNat < 0xDC00

def IsTrail (unit : UInt16) : Prop := 0xDC00 ≤ unit.toNat ∧ unit.toNat < 0xE000

theorem Char.toNat_valid (c : Char) :
    c.toNat < 0xD800 ∨ (0xDFFF < c.toNat ∧ c.toNat < 0x110000) := c.valid

namespace Units

variable {c c' : Char} {unit lead trail : UInt16}

theorem of_single (h : ofChar c = .single unit) :
    unit.toNat = c.toNat ∧ ¬ IsLead unit ∧ ¬ IsTrail unit := by
  unfold ofChar at h
  split at h
  · next short =>
    cases h
    have same : (UInt16.ofNat c.toNat).toNat = c.toNat := UInt16.toNat_ofNat_of_lt' short
    have valid := Char.toNat_valid c
    refine ⟨same, ?_, ?_⟩
    · simp only [IsLead, same]
      omega
    · simp only [IsTrail, same]
      omega
  · contradiction

theorem of_pair (h : ofChar c = .pair lead trail) :
    IsLead lead ∧ IsTrail trail ∧
      c.toNat = 0x10000 + 0x400 * (lead.toNat - 0xD800) + (trail.toNat - 0xDC00) := by
  unfold ofChar at h
  split at h
  · contradiction
  · next long =>
    cases h
    have valid := Char.toNat_valid c
    have first : (UInt16.ofNat (0xD800 + (c.toNat - 0x10000) / 0x400)).toNat =
        0xD800 + (c.toNat - 0x10000) / 0x400 := UInt16.toNat_ofNat_of_lt' (show _ < 65536 by omega)
    have second : (UInt16.ofNat (0xDC00 + (c.toNat - 0x10000) % 0x400)).toNat =
        0xDC00 + (c.toNat - 0x10000) % 0x400 := UInt16.toNat_ofNat_of_lt' (show _ < 65536 by omega)
    simp only [IsLead, IsTrail, first, second]
    omega

theorem ofChar_injective (same : ofChar c = ofChar c') : c = c' := by
  apply Char.toNat_inj.mp
  cases units : ofChar c' with
  | single unit => rw [← (of_single (same.trans units)).1, ← (of_single units).1]
  | pair lead trail => rw [(of_pair (same.trans units)).2.2, (of_pair units).2.2]

theorem ofChar_ofUInt8 (value : UInt8) :
    ofChar (Char.ofUInt8 value) = .single (.ofNat value.toNat) := by
  have bound := value.toNat_lt
  have code : (Char.ofUInt8 value).toNat = value.toNat := rfl
  rw [ofChar, code, if_pos (by omega)]

end Units

end ParseKit
