import ParseKit.Proofs.Text.Units

/-!
# The encoding form UTF-16

`Encodes` says when code units are the UTF-16 form of a text, by what the units stand for:
`encodes_iff` finds that `utf16` gives them, and nothing else does.
-/

namespace ParseKit

/-- A scalar value is one unit of the same value, or a surrogate pair: the high and the low ten bits
of its distance from U+10000, each counted from the start of its kind of surrogate. -/
inductive EncodesChar (c : Char) : List UInt16 → Prop where
  | single {unit : UInt16} (same : unit.toNat = c.toNat) : EncodesChar c [unit]
  | pair {lead trail : UInt16} (high : IsLead lead) (low : IsTrail trail)
      (distance : c.toNat = 0x10000 + 0x400 * (lead.toNat - 0xD800) + (trail.toNat - 0xDC00)) :
      EncodesChar c [lead, trail]

inductive Encodes : List Char → List UInt16 → Prop where
  | nil : Encodes [] []
  | cons {c : Char} {rest : List Char} {first units : List UInt16} (char : EncodesChar c first)
      (more : Encodes rest units) : Encodes (c :: rest) (first ++ units)

theorem encodesChar_ofChar (c : Char) : EncodesChar c (Units.ofChar c).toList := by
  cases units : Units.ofChar c with
  | single unit => exact .single (Units.of_single units).1
  | pair lead trail =>
    obtain ⟨high, low, distance⟩ := Units.of_pair units
    exact .pair high low distance

theorem encodesChar_unique {c : Char} {units units' : List UInt16} (encodes : EncodesChar c units)
    (encodes' : EncodesChar c units') : units = units' := by
  cases encodes with
  | @single unit same =>
    have small := unit.toNat_lt
    cases encodes' with
    | @single unit' same' => rw [UInt16.toNat_inj.mp (same.trans same'.symm)]
    | pair _ _ distance => omega
  | @pair lead trail high low distance =>
    cases encodes' with
    | @single unit' same' =>
      have small := unit'.toNat_lt
      omega
    | @pair lead' trail' high' low' distance' =>
      simp only [IsLead, IsTrail] at high low high' low'
      have leads : lead = lead' := UInt16.toNat_inj.mp (by omega)
      have trails : trail = trail' := UInt16.toNat_inj.mp (by omega)
      rw [leads, trails]

theorem encodesChar_iff {c : Char} {units : List UInt16} :
    EncodesChar c units ↔ units = (Units.ofChar c).toList :=
  ⟨fun encodes => encodesChar_unique encodes (encodesChar_ofChar c),
    fun same => same ▸ encodesChar_ofChar c⟩

theorem utf16_cons (c : Char) (rest : List Char) :
    utf16 (c :: rest) = (Units.ofChar c).toList ++ utf16 rest := rfl

/-- The code units of a text are its only encoding. -/
theorem encodes_iff {chars : List Char} {units : List UInt16} :
    Encodes chars units ↔ units = utf16 chars := by
  constructor
  · intro encodes
    induction encodes with
    | nil => rfl
    | cons char _ ih => rw [utf16_cons, ih, encodesChar_iff.mp char]
  · rintro rfl
    induction chars with
    | nil => exact .nil
    | cons c rest ih =>
      rw [utf16_cons]
      exact .cons (encodesChar_ofChar c) ih

end ParseKit
