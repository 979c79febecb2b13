import LibXpf.Xpfstring.PrintedFields

/-! # The layout of the standard

The standard fills up a field of the width by its own rules. In most of the cases the
prefix and the digits are the ones that are printed.
-/
namespace LibXpf.Xpfstring
open TextFields

section Standard

/-- A percision that is negative is taken as if it were omitted. -/
def Directive.precision (d : Directive) : Option ℕ :=
  d.percision.value.bind fun p => if p < 0 then none else some p.toNat

def Directive.isoSign (d : Directive) (v : Int32) : List UInt8 :=
  if v < 0 then chars "-"
  else if FlagChar.plus ∈ d.flags then chars "+"
  else if FlagChar.space ∈ d.flags then chars " "
  else []

def Directive.isoPrefix (d : Directive) (v : Int32) : List UInt8 :=
  if d.conversion.signed then d.isoSign v
  else if d.conversion.hex ∧ FlagChar.hash ∈ d.flags ∧ v ≠ 0 then [ascii '0', d.conversion.char]
  else []

/-- The precision is the least number of digits. Zero has no digit for the precision zero. -/
def Directive.isoNumeral (d : Directive) (v : Int32) : List UInt8 :=
  if d.precision = some 0 ∧ v = 0 then []
  else (d.conversion.numeral (d.conversion.magnitude v)).leftpad (d.precision.getD 1) (ascii '0')

/-- The alternative form of an octal number starts with a zero. -/
def Directive.isoDigits (d : Directive) (v : Int32) : List UInt8 :=
  if d.conversion = .o ∧ FlagChar.hash ∈ d.flags ∧ (d.isoNumeral v).head? ≠ some (ascii '0') then
    ascii '0' :: d.isoNumeral v
  else d.isoNumeral v

def Directive.isoFill (d : Directive) : Fill :=
  if FlagChar.minus ∈ d.flags ∨ d.width.value.getD 0 < 0 then .right
  else if FlagChar.zero ∈ d.flags ∧ d.precision = none then .inner
  else .left

/-- The text of the standard. -/
def Directive.iso (d : Directive) (v : Int32) : List UInt8 :=
  field (ascii ' ') (ascii '0') d.isoFill (d.width.value.getD 0).natAbs (d.isoPrefix v) (d.isoDigits v)

end Standard

section Conditions

/-- A zero in the alternative octal form. -/
def Directive.OctalZero (d : Directive) (v : Int32) : Prop := d.conversion = .o ∧ FlagChar.hash ∈ d.flags ∧ v = 0

def Directive.OctalZeroConforms (keeps : Bool) (d : Directive) : Prop :=
  match d.width.value, d.percision.value with
  | none, none => True
  | some w, none => FlagChar.zero ∈ d.flags ∧ FlagChar.minus ∉ d.flags ∧ 2 ≤ w
  | w, some p =>
    if p < 0 then FlagChar.zero ∈ d.flags ∧ FlagChar.minus ∉ d.flags ∧ w = some 2
    else p = 0 ∧ keeps ∧ -1 ≤ w.getD 0

/-- The prefix and the digits are the ones of the standard. -/
structure Directive.SameParts (keeps : Bool) (d : Directive) (v : Int32) : Prop where
  overflow : ¬ d.conversion.Overflows v
  sign : d.conversion.signed → ¬ v < 0 → FlagChar.plus ∈ d.flags → lastSign d.flags ≠ some .space
  base : d.conversion.hex → FlagChar.hash ∈ d.flags → v = 0 →
    d.width.value = none ∧ d.percision.value = none ∨ d.percision.value = some 0
  zero : keeps → d.percision.value = some 0 → v ≠ 0
  octal : d.conversion = .o → FlagChar.hash ∈ d.flags →
    ∀ p, d.percision.value = some p → p ≤ (numeralText 8 v.toUInt32.toNat).length

/-- The field is filled up as in the standard, or not at all. An `int` holds the lengths below `2 ^ 31` only. -/
structure Directive.SameFill (d : Directive) (v : Int32) : Prop where
  negative : d.width.value.getD 0 < 0 → (d.width.value.getD 0).natAbs ≤ (d.isoPrefix v ++ d.isoDigits v).length
  omitted : d.percision.value.getD 0 < 0 → FlagChar.zero ∈ d.flags → FlagChar.minus ∉ d.flags →
    d.width.value.getD 0 ≤ (d.isoPrefix v ++ d.isoDigits v).length
  counted : 2 ^ 31 ≤ (d.isoPrefix v ++ d.isoDigits v).length →
    d.width.value.getD 0 ≤ (d.isoPrefix v ++ d.isoDigits v).length - (2 ^ 32 : ℤ) ∨
      (d.isoPrefix v ++ d.isoDigits v).length - (2 ^ 31 : ℤ) ≤ d.width.value.getD 0

/-- The condition for a directive to print the text of the standard. -/
def Directive.Conforms (keeps : Bool) (d : Directive) (v : Int32) : Prop :=
  if d.conversion = .o ∧ FlagChar.hash ∈ d.flags ∧ v = 0 then d.OctalZeroConforms keeps
  else d.SameParts keeps v ∧ d.SameFill v

end Conditions

section Parts
variable {keeps : Bool} {d : Directive} {v : Int32} {fill : Fill} {width : ℕ}

theorem precision_of_neg {p : ℤ} (hp : d.percision.value = some p) (h : p < 0) : d.precision = none := by
  rw [Directive.precision, hp, Option.bind_some, if_pos h]

theorem precision_of_nonneg {p : ℤ} (hp : d.percision.value = some p) (h : 0 ≤ p) : d.precision = some p.toNat := by
  rw [Directive.precision, hp, Option.bind_some, if_neg (not_lt.mpr h)]

theorem precision_of_none (hp : d.percision.value = none) : d.precision = none := by
  rw [Directive.precision, hp, Option.bind_none]

/-- The last flag for the sign is one of the flags, if there is one. -/
theorem lastSign_cases (flags : List FlagChar) :
    (lastSign flags = some .plus ∧ FlagChar.plus ∈ flags) ∨ (lastSign flags = some .space ∧ FlagChar.space ∈ flags) ∨
      (lastSign flags = none ∧ FlagChar.plus ∉ flags ∧ FlagChar.space ∉ flags) := by
  cases hlast : lastSign flags with
  | none =>
    have hnone := List.filter_eq_nil_iff.mp (List.getLast?_eq_none_iff.mp hlast)
    exact .inr (.inr ⟨rfl, fun hmem => hnone _ hmem (by decide), fun hmem => hnone _ hmem (by decide)⟩)
  | some f =>
    obtain ⟨hmem, hsign⟩ := List.mem_filter.mp (List.mem_of_getLast? hlast)
    rcases of_decide_eq_true hsign with rfl | rfl
    · exact .inl ⟨rfl, hmem⟩
    · exact .inr (.inl ⟨rfl, hmem⟩)

theorem sign_eq (h : ¬ v < 0 → FlagChar.plus ∈ d.flags → lastSign d.flags ≠ some .space) :
    d.printedSign v = d.isoSign v := by
  rw [Directive.printedSign, Directive.isoSign]
  by_cases hv : v < 0
  · rw [if_pos hv, if_pos hv]
  rw [if_neg hv, if_neg hv]
  obtain ⟨hlast, hmem⟩ | ⟨hlast, hmem⟩ | ⟨hlast, hplus, hspace⟩ := lastSign_cases d.flags
  · rw [if_pos hlast, if_pos hmem]
  · have hplus : FlagChar.plus ∉ d.flags := fun hplus => h hv hplus hlast
    rw [hlast, if_neg (by decide), if_pos rfl, if_neg hplus, if_pos hmem]
  · rw [hlast, if_neg (by decide), if_neg (by decide), if_neg hplus, if_neg hspace]

theorem written_eq (h : ¬ d.conversion.Overflows v) :
    d.conversion.written v = d.conversion.numeral (d.conversion.magnitude v) := if_neg h

/-- The digits of the standard, but for the alternative octal form. -/
theorem isoNumeral_eq (hover : ¬ d.conversion.Overflows v) (hzero : ¬ (d.percision.value = some 0 ∧ v = 0)) :
    d.isoNumeral v = (d.conversion.written v).leftpad (d.percision.value.getD 0).toNat (ascii '0') := by
  have hlen : 1 ≤ (d.conversion.numeral (d.conversion.magnitude v)).length :=
    List.length_pos_of_ne_nil conversion_numeral_ne_nil
  have hnone : d.precision = none → (d.percision.value.getD 0).toNat = 0 → d.isoNumeral v =
      (d.conversion.written v).leftpad (d.percision.value.getD 0).toNat (ascii '0') := by
    intro hprecision hp
    have hcase : ¬ (none = some 0 ∧ v = 0) := fun h => absurd h.1 (by rintro ⟨⟩)
    rw [Directive.isoNumeral, hprecision, if_neg hcase, hp, written_eq hover, Option.getD_none, leftpad_of_le hlen,
      leftpad_of_le (Nat.zero_le _)]
  cases hp : d.percision.value with
  | none => exact hp ▸ hnone (precision_of_none hp) (by rw [hp]; rfl)
  | some p =>
    by_cases hneg : p < 0
    · exact hp ▸ hnone (precision_of_neg hp hneg) (by rw [hp, Option.getD_some]; omega)
    · have hcase : ¬ (some p.toNat = some 0 ∧ v = 0) := by
        rintro ⟨hp0, hv⟩
        refine hzero ⟨?_, hv⟩
        rw [hp]
        exact congrArg some (by have := Option.some.inj hp0; omega)
      rw [Directive.isoNumeral, precision_of_nonneg hp (not_lt.mp hneg), if_neg hcase, written_eq hover, Option.getD_some,
        Option.getD_some]

theorem octal_written (h : d.conversion = .o) : d.conversion.written v = numeralText 8 v.toUInt32.toNat := by
  rw [h]
  rfl

theorem isoDigits_eq (h : ¬ (d.conversion = .o ∧ FlagChar.hash ∈ d.flags)) : d.isoDigits v = d.isoNumeral v := by
  rw [Directive.isoDigits, if_neg fun hcase => h ⟨hcase.1, hcase.2.1⟩]

/-- The prefix is the one of the standard, but for the alternative octal form. -/
theorem isoPrefix_eq (hparts : d.SameParts keeps v) (hzero : ¬ (d.percision.value = some 0 ∧ v = 0))
    (hoct : ¬ (d.conversion = .o ∧ FlagChar.hash ∈ d.flags)) :
    (if d.width.value = none ∧ d.percision.value = none ∧ v = 0 ∧ ¬ d.conversion.signed then [] else d.printedPrefix v) =
      d.isoPrefix v := by
  rw [Directive.printedPrefix, Directive.isoPrefix]
  by_cases hsigned : d.conversion.signed = true
  · rw [if_neg fun h => h.2.2.2 hsigned, if_pos hsigned, if_pos hsigned]
    exact sign_eq (hparts.sign hsigned)
  rw [if_neg hsigned, if_neg hsigned]
  by_cases hhash : FlagChar.hash ∈ d.flags
  · by_cases hhex : d.conversion.hex = true
    · rw [if_pos hhash, if_pos hhex]
      by_cases hv : v = 0
      · have hbare : d.width.value = none ∧ d.percision.value = none :=
          (hparts.base hhex hhash hv).resolve_right fun h => hzero ⟨h, hv⟩
        rw [if_pos ⟨hbare.1, hbare.2, hv, hsigned⟩, if_neg fun h => h.2.2 hv]
      · rw [if_neg fun h => hv h.2.2.1, if_pos ⟨hhex, hhash, hv⟩]
    · rw [if_pos hhash, if_neg hhex, if_neg fun h => hoct ⟨h, hhash⟩, ite_self, if_neg fun h => hhex h.1]
  · rw [if_neg hhash, ite_self, if_neg fun h => hhash h.2.1]

/-- Where the parts are the ones of the standard, any field of them is. -/
theorem field_printed (hparts : d.SameParts keeps v) (hoct : ¬ d.OctalZero v)
    (hfill : d.percision.value ≠ none → fill ≠ .inner) :
    field (ascii ' ') (ascii '0') fill width (d.printed keeps v).1 (d.printed keeps v).2 =
      field (ascii ' ') (ascii '0') fill width (d.isoPrefix v) (d.isoDigits v) := by
  rw [Directive.printed]
  by_cases hzero : d.percision.value = some 0 ∧ v = 0
  · have hkeeps : ¬ keeps = true := fun h => hparts.zero h hzero.1 hzero.2
    have hnumeral : d.isoNumeral v = [] := if_pos ⟨precision_of_nonneg hzero.1 le_rfl, hzero.2⟩
    have hdigits : d.isoDigits v = [] := by
      rw [Directive.isoDigits, if_neg fun h => hoct ⟨h.1, h.2.1, hzero.2⟩, hnumeral]
    have hprefix : d.isoPrefix v = if d.conversion.signed then d.printedSign v else [] := by
      rw [Directive.isoPrefix]
      split
      next hsigned => exact (sign_eq (hparts.sign hsigned)).symm
      next => exact if_neg fun h => h.2.2 hzero.2
    rw [if_pos hzero, hdigits, hprefix, if_neg hkeeps]
    exact field_congr (hfill (by rw [hzero.1]; rintro ⟨⟩)) (by rw [List.nil_append, List.append_nil])
  rw [if_neg hzero]
  by_cases hoctal : d.conversion = .o ∧ FlagChar.hash ∈ d.flags
  · have hv : v ≠ 0 := fun hv => hoct ⟨hoctal.1, hoctal.2, hv⟩
    have hunsigned : ¬ d.conversion.signed = true := by rw [hoctal.1]; decide
    have hhex : ¬ d.conversion.hex = true := by rw [hoctal.1]; decide
    have hprinted : d.printedPrefix v = [ascii '0'] := by
      rw [Directive.printedPrefix, if_neg hunsigned, if_pos hoctal.2, if_neg hhex, if_pos hoctal.1]
      rfl
    have hprefix : d.isoPrefix v = [] := by
      rw [Directive.isoPrefix, if_neg hunsigned, if_neg fun h => hhex h.1]
    have hshort : (d.percision.value.getD 0).toNat ≤ (d.conversion.written v).length := by
      rw [octal_written hoctal.1]
      cases hp : d.percision.value with
      | none => exact Nat.zero_le _
      | some p => exact Int.toNat_le.mpr (hparts.octal hoctal.1 hoctal.2 p hp)
    have hnumeral : d.isoNumeral v = d.conversion.written v := by
      rw [isoNumeral_eq hparts.overflow hzero, leftpad_of_le hshort]
    have hhead : (d.conversion.written v).head? ≠ some (ascii '0') := by
      obtain ⟨c, rest, htext, -, hzero⟩ := written_head d.conversion v
      rw [htext, List.head?_cons]
      exact fun h => hv (hzero.mp (Option.some.inj h))
    have hdigits : d.isoDigits v = ascii '0' :: d.conversion.written v := by
      rw [Directive.isoDigits, hnumeral, if_pos ⟨hoctal.1, hoctal.2, hhead⟩]
    rw [if_neg fun h => hv h.2.2.1, hprinted, hprefix, hdigits]
    simp only [leftpad_of_le hshort]
    exact field_zero
  · simp only [isoPrefix_eq hparts hzero hoctal, isoDigits_eq hoctal, isoNumeral_eq hparts.overflow hzero]

end Parts

section Fills
variable {keeps : Bool} {d : Directive} {v : Int32}

theorem printedFill_ne_inner (h : d.percision.value ≠ none) : d.printedFill ≠ .inner := by
  rw [Directive.printedFill]
  split_ifs with hminus hzeros
  · exact Fill.noConfusion
  · exact absurd hzeros.2 h
  · exact Fill.noConfusion

theorem isoFill_ne_inner (h : d.precision ≠ none) : d.isoFill ≠ .inner := by
  rw [Directive.isoFill]
  split_ifs with hminus hzeros
  · exact Fill.noConfusion
  · exact absurd hzeros.2 h
  · exact Fill.noConfusion

theorem isoFill_eq_inner : d.isoFill = .inner ↔
    FlagChar.zero ∈ d.flags ∧ FlagChar.minus ∉ d.flags ∧ 0 ≤ d.width.value.getD 0 ∧ d.precision = none := by
  rw [Directive.isoFill]
  split_ifs with hright hzeros
  · refine iff_of_false not_false fun h => ?_
    rcases hright with hminus | hneg
    · exact h.2.1 hminus
    · exact absurd h.2.2.1 (not_le.mpr hneg)
  · rw [not_or, not_lt] at hright
    exact iff_of_true rfl ⟨hzeros.1, hright.1, hright.2, hzeros.2⟩
  · exact iff_of_false not_false fun h => hzeros ⟨h.1, h.2.2.2⟩

/-- A negative percision does away with the zeros of a field. -/
def Directive.ZerosOmitted (d : Directive) : Prop :=
  d.percision.value.getD 0 < 0 ∧ FlagChar.zero ∈ d.flags ∧ FlagChar.minus ∉ d.flags

theorem fill_eq (hwidth : 0 ≤ d.width.value.getD 0) (h : ¬ d.ZerosOmitted) : d.printedFill = d.isoFill := by
  rw [Directive.printedFill, Directive.isoFill]
  by_cases hminus : FlagChar.minus ∈ d.flags
  · rw [if_pos hminus, if_pos (.inl hminus)]
  have hright : ¬ (FlagChar.minus ∈ d.flags ∨ d.width.value.getD 0 < 0) := not_or.mpr ⟨hminus, not_lt.mpr hwidth⟩
  rw [if_neg hminus, if_neg hright]
  cases hp : d.percision.value with
  | none => simp only [precision_of_none hp, and_true]
  | some p =>
    by_cases hneg : p < 0
    · have hzero : FlagChar.zero ∉ d.flags := fun hzero => h ⟨by rw [hp]; exact hneg, hzero, hminus⟩
      rw [if_neg fun h => hzero h.1, if_neg fun h => hzero h.1]
    · rw [precision_of_nonneg hp (not_lt.mp hneg), if_neg fun h => absurd h.2 (by rintro ⟨⟩),
        if_neg fun h => absurd h.2 (by rintro ⟨⟩)]

theorem precision_lt (d : Directive) : d.precision.getD 1 < 2 ^ 31 := by
  cases hp : d.percision.value with
  | none =>
    rw [precision_of_none hp]
    decide
  | some p =>
    by_cases hneg : p < 0
    · rw [precision_of_neg hp hneg]
      decide
    · have hhi := (Percision.value_range hp).2
      rw [precision_of_nonneg hp (not_lt.mp hneg), Option.getD_some]
      omega

/-- The text without a width is shorter than what an `unsigned` holds. -/
theorem unpadded_length_lt (d : Directive) (v : Int32) : (d.isoPrefix v ++ d.isoDigits v).length < 2 ^ 32 := by
  have hpre : (d.isoPrefix v).length ≤ 2 := by
    rw [Directive.isoPrefix, Directive.isoSign]
    split_ifs <;> first | decide | exact le_rfl
  have hprecision := precision_lt d
  have hnumeral : (d.isoNumeral v).length ≤ 2 ^ 31 := by
    rw [Directive.isoNumeral]
    split
    · exact Nat.zero_le _
    · have hdigits := numeral_length_le (k := d.conversion) (magnitude_lt d.conversion v)
      rw [List.length_leftpad]
      omega
  have hdigits : (d.isoDigits v).length ≤ 2 ^ 31 + 1 := by
    rw [Directive.isoDigits]
    split
    · exact Nat.succ_le_succ hnumeral
    · exact hnumeral.trans (Nat.le_succ _)
  rw [List.length_append]
  omega

theorem printed_append (hparts : d.SameParts keeps v) (hoct : ¬ d.OctalZero v) :
    (d.printed keeps v).1 ++ (d.printed keeps v).2 = d.isoPrefix v ++ d.isoDigits v := by
  have hfield : field (ascii ' ') (ascii '0') d.printedFill 0 (d.printed keeps v).1 (d.printed keeps v).2 =
      field (ascii ' ') (ascii '0') d.printedFill 0 (d.isoPrefix v) (d.isoDigits v) :=
    field_printed hparts hoct printedFill_ne_inner
  rwa [field_of_le (Nat.zero_le _), field_of_le (Nat.zero_le _)] at hfield

/-- For a length that an `int` holds, the widths are the same and the sides may differ. -/
theorem text_eq_iso_iff_of_lt (hparts : d.SameParts keeps v) (hoct : ¬ d.OctalZero v)
    (hlen : (d.isoPrefix v ++ d.isoDigits v).length < 2 ^ 31) : d.text keeps v = d.iso v ↔ d.SameFill v := by
  have hsame := printed_append hparts hoct
  have hcounted : 2 ^ 31 ≤ (d.isoPrefix v ++ d.isoDigits v).length →
      d.width.value.getD 0 ≤ (d.isoPrefix v ++ d.isoDigits v).length - (2 ^ 32 : ℤ) ∨
        (d.isoPrefix v ++ d.isoDigits v).length - (2 ^ 31 : ℤ) ≤ d.width.value.getD 0 := fun h => absurd h (by omega)
  rw [text_field_of_lt (hsame ▸ hlen), field_printed hparts hoct printedFill_ne_inner, Directive.iso]
  generalize hpre : d.isoPrefix v = pre
  generalize hdigits : d.isoDigits v = digits
  by_cases hneg : d.width.value.getD 0 < 0
  · have hnat : (d.width.value.getD 0).toNat = 0 := Int.toNat_of_nonpos hneg.le
    rw [hnat, field_of_le (Nat.zero_le _)]
    constructor
    · intro h
      have hlen := congrArg List.length h
      rw [field_length] at hlen
      exact ⟨fun _ => by rw [hpre, hdigits]; omega, fun _ _ _ => by omega, hcounted⟩
    · intro h
      have hle := h.negative hneg
      rw [hpre, hdigits] at hle
      exact (field_of_le hle).symm
  have hnat : (d.width.value.getD 0).natAbs = (d.width.value.getD 0).toNat := by omega
  rw [hnat]
  by_cases homitted : d.ZerosOmitted
  · obtain ⟨hp, hzero, hminus⟩ := homitted
    have hprecision : d.precision = none := by
      cases hvalue : d.percision.value with
      | none => exact precision_of_none hvalue
      | some p => exact precision_of_neg hvalue (by rwa [hvalue] at hp)
    have hiso : d.isoFill = .inner := isoFill_eq_inner.mpr ⟨hzero, hminus, not_lt.mp hneg, hprecision⟩
    have hprinted : d.printedFill ≠ .inner := printedFill_ne_inner fun hnone => by
      rw [hnone] at hp
      exact absurd hp (by decide)
    constructor
    · intro h
      have hcount := congrArg (List.countP (· ≠ ascii ' ')) h
      rw [countP_field (by decide), countP_field (by decide), if_neg hprinted, if_pos hiso] at hcount
      refine ⟨fun h => absurd h hneg, fun _ _ _ => ?_, hcounted⟩
      rw [hpre, hdigits]
      omega
    · intro h
      have hle := h.omitted hp hzero hminus
      rw [hpre, hdigits] at hle
      rw [field_of_le (by omega), field_of_le (by omega)]
  · rw [fill_eq (not_lt.mp hneg) homitted]
    exact iff_of_true rfl ⟨fun h => absurd h hneg, fun hp hzero hminus => absurd ⟨hp, hzero, hminus⟩ homitted, hcounted⟩

/-- For a length that an `int` does not hold, the standard does not fill up the field, and the code does so for the
widths between the two bounds. -/
theorem text_eq_iso_iff_of_ge (hparts : d.SameParts keeps v) (hoct : ¬ d.OctalZero v)
    (hlen : 2 ^ 31 ≤ (d.isoPrefix v ++ d.isoDigits v).length) : d.text keeps v = d.iso v ↔ d.SameFill v := by
  have hsame := printed_append hparts hoct
  have hlo := d.width.value_range.1
  have hhi := d.width.value_range.2
  have hfill := fillCount_of_ge hlo hhi hlen (unpadded_length_lt d v)
  have hmissing : d.printedWidth keeps v = (d.isoPrefix v ++ d.isoDigits v).length +
      (fillCount (d.width.value.getD 0) (d.isoPrefix v ++ d.isoDigits v).length).toNat := by
    rw [Directive.printedWidth, hsame]
  have hiso : d.iso v = d.isoPrefix v ++ d.isoDigits v := field_of_le (by omega)
  rw [text_field, field_printed hparts hoct printedFill_ne_inner, hiso, hmissing]
  generalize hwidth : d.width.value.getD 0 = width at hlo hhi hfill
  constructor
  · intro h
    have hlength := congrArg List.length h
    rw [field_length, hfill] at hlength
    refine ⟨fun _ => by omega, fun _ _ _ => by omega, fun _ => ?_⟩
    by_contra hcase
    rw [not_or, not_le, not_le, hwidth] at hcase
    rw [if_pos ⟨hcase.1, hcase.2⟩] at hlength
    omega
  · intro h
    have hcounted := h.counted hlen
    rw [hwidth] at hcounted
    rw [hfill, if_neg (by omega)]
    exact field_of_le le_rfl

/-- Fields of the same parts differ in how they are filled up only. -/
theorem text_eq_iso_iff (hparts : d.SameParts keeps v) (hoct : ¬ d.OctalZero v) : d.text keeps v = d.iso v ↔ d.SameFill v := by
  rcases Nat.lt_or_ge (d.isoPrefix v ++ d.isoDigits v).length (2 ^ 31) with hlen | hlen
  · exact text_eq_iso_iff_of_lt hparts hoct hlen
  · exact text_eq_iso_iff_of_ge hparts hoct hlen

end Fills

end LibXpf.Xpfstring
