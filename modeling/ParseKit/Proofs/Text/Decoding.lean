import ParseKit.Proofs.Text.Encoding

/-!
# Reading a text from its code units

`ofUtf16?` reads characters from code units, and refuses a surrogate outside of a pair. It undoes
`utf16` also where more units follow. So a text is told by its units, and a text whose units stand
at the front of another's is at its front (`utf16_uniquely_decodable`).
-/

namespace ParseKit

variable {chars : List Char} {units : List UInt16} {unit lead trail : UInt16}

instance : Decidable (IsLead unit) := inferInstanceAs (Decidable (_ ∧ _))

instance : Decidable (IsTrail unit) := inferInstanceAs (Decidable (_ ∧ _))

/-- The value of a surrogate pair: ten bits of each, counted from U+10000. -/
def pairedValue (lead trail : UInt16) : Nat :=
  0x10000 + 0x400 * (lead.toNat - 0xD800) + (trail.toNat - 0xDC00)

def ofUtf16? : List UInt16 → Option (List Char)
  | [] => some []
  | unit :: rest =>
    if IsLead unit then
      match rest with
      | [] => none
      | trail :: rest =>
        if IsTrail trail then (ofUtf16? rest).map (Char.ofNat (pairedValue unit trail) :: ·)
        else none
    else if IsTrail unit then none
    else (ofUtf16? rest).map (Char.ofNat unit.toNat :: ·)

/-! ### Scalar values -/

theorem Char.toNat_ofNat_of_valid {value : Nat} (valid : value.isValidChar) :
    (Char.ofNat value).toNat = value := by
  rw [Char.ofNat, dif_pos valid]
  rfl

theorem pairedValue_valid (high : IsLead lead) (low : IsTrail trail) :
    (pairedValue lead trail).isValidChar := by
  unfold IsLead at high
  unfold IsTrail at low
  right
  unfold pairedValue
  omega

theorem single_valid (notLead : ¬ IsLead unit) (notTrail : ¬ IsTrail unit) :
    unit.toNat.isValidChar := by
  have small := unit.toNat_lt
  unfold IsLead at notLead
  unfold IsTrail at notTrail
  unfold Nat.isValidChar
  omega

/-! ### Reading what was written -/

theorem ofUtf16?_single (notLead : ¬ IsLead unit) (notTrail : ¬ IsTrail unit)
    (more : List UInt16) :
    ofUtf16? (unit :: more) = (ofUtf16? more).map (Char.ofNat unit.toNat :: ·) := by
  rw [ofUtf16?.eq_def]
  simp only [if_neg notLead, if_neg notTrail]

theorem ofUtf16?_pair (high : IsLead lead) (low : IsTrail trail) (more : List UInt16) :
    ofUtf16? (lead :: trail :: more) =
      (ofUtf16? more).map (Char.ofNat (pairedValue lead trail) :: ·) := by
  rw [ofUtf16?.eq_def]
  simp only [if_pos high, if_pos low]

theorem ofUtf16?_ofChar_append (c : Char) (more : List UInt16) :
    ofUtf16? ((Units.ofChar c).toList ++ more) = (ofUtf16? more).map (c :: ·) := by
  cases units : Units.ofChar c with
  | single unit =>
    obtain ⟨same, notLead, notTrail⟩ := Units.of_single units
    rw [Units.toList, List.singleton_append, ofUtf16?_single notLead notTrail, same,
      Char.ofNat_toNat]
  | pair lead trail =>
    obtain ⟨high, low, distance⟩ := Units.of_pair units
    have same : pairedValue lead trail = c.toNat := distance.symm
    rw [Units.toList, List.cons_append, List.singleton_append, ofUtf16?_pair high low, same,
      Char.ofNat_toNat]

theorem ofUtf16?_utf16_append (chars : List Char) (more : List UInt16) :
    ofUtf16? (utf16 chars ++ more) = (ofUtf16? more).map (chars ++ ·) := by
  induction chars with
  | nil => exact Option.map_id'.symm
  | cons c rest ih =>
    rw [utf16_cons, List.append_assoc, ofUtf16?_ofChar_append, ih, Option.map_map]
    rfl

theorem ofUtf16?_utf16 (chars : List Char) : ofUtf16? (utf16 chars) = some chars := by
  have read := ofUtf16?_utf16_append chars []
  rwa [List.append_nil, ofUtf16?, Option.map_some, List.append_nil] at read

/-! ### Nothing else is read -/

theorem encodes_of_read (read : ofUtf16? units = some chars) : Encodes chars units := by
  fun_induction ofUtf16? units generalizing chars with
  | case1 =>
    obtain rfl := Option.some.inj read
    exact .nil
  | case2 => contradiction
  | case3 lead high trail rest low ih =>
    obtain ⟨following, later, rfl⟩ := Option.map_eq_some_iff.mp read
    exact .cons (.pair high low (Char.toNat_ofNat_of_valid (pairedValue_valid high low))) (ih later)
  | case4 => contradiction
  | case5 => contradiction
  | case6 unit rest notLead notTrail ih =>
    obtain ⟨following, later, rfl⟩ := Option.map_eq_some_iff.mp read
    exact .cons (.single (Char.toNat_ofNat_of_valid (single_valid notLead notTrail)).symm) (ih later)

theorem ofUtf16?_eq_some_iff : ofUtf16? units = some chars ↔ units = utf16 chars := by
  constructor
  · intro read
    exact encodes_iff.mp (encodes_of_read read)
  · rintro rfl
    exact ofUtf16?_utf16 chars

theorem utf16_prefix_iff {chars chars' : List Char} :
    utf16 chars <+: utf16 chars' ↔ chars <+: chars' := by
  constructor
  · rintro ⟨more, whole⟩
    have read := ofUtf16?_utf16_append chars more
    rw [whole, ofUtf16?_utf16] at read
    -- What the units after the first text are read as comes after that text.
    obtain ⟨rest, -, joined⟩ := Option.map_eq_some_iff.mp read.symm
    exact ⟨rest, joined⟩
  · rintro ⟨rest, rfl⟩
    exact ⟨utf16 rest, List.flatMap_append.symm⟩

/-- The units of a text are its UTF-16 encoding, the only one. The text is read back from its units,
and from nothing else. Different texts have different units, and a text stands at the front of
another one when its units do. -/
theorem utf16_uniquely_decodable (chars chars' : List Char) (units : List UInt16) :
    (Encodes chars units ↔ units = utf16 chars) ∧
      (ofUtf16? units = some chars ↔ units = utf16 chars) ∧
      (utf16 chars = utf16 chars' ↔ chars = chars') ∧
      (utf16 chars <+: utf16 chars' ↔ chars <+: chars') := by
  refine ⟨encodes_iff, ofUtf16?_eq_some_iff, ?_, utf16_prefix_iff⟩
  constructor
  · intro same
    have read := ofUtf16?_utf16 chars
    rw [same, ofUtf16?_utf16] at read
    exact (Option.some.inj read).symm
  · rintro rfl
    rfl

/-- Surrogates that form no pair are read as no text. -/
example : ofUtf16? [0xDE00, 0xD83D] = none := by decide

end ParseKit
