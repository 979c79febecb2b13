import LibXpf.Foundation.TextFields
import LibXpf.Xpfstring.DirectiveRuns

/-! # The text of a directive as a field

The three layouts of integers are one field, whose prefix and digits depend on the layout
in the case of a zero only.
-/
namespace LibXpf.Xpfstring
open PositionalDigits TextFields

section Numbers
variable {k : Conversion} {v : Int32}

def Conversion.signed : Conversion → Bool
  | .d | .i => true
  | _ => false

def Conversion.hex : Conversion → Bool
  | .x | .X => true
  | _ => false

theorem isSigned_char (k : Conversion) : isSigned k.char ↔ k.signed = true := by cases k <;> decide

theorem isHex_char (k : Conversion) : isHex k.char ↔ k.hex = true := by cases k <;> decide

theorem isOct_char (k : Conversion) : isOct k.char ↔ k = .o := by cases k <;> decide

theorem not_isFloat_char (k : Conversion) : ¬ isFloat k.char := by cases k <;> decide

def Conversion.negative (k : Conversion) (v : Int32) : Bool := k.signed ∧ v < 0

/-- The absolute value, or the value as an `unsigned`. -/
def Conversion.magnitude (k : Conversion) (v : Int32) : ℕ := if k.signed then v.toInt.natAbs else v.toUInt32.toNat

def Conversion.numeral : Conversion → ℕ → List UInt8
  | .d, n | .i, n | .u, n => numeralText 10 n
  | .x, n => hexNumeral (ascii 'x') n
  | .X, n => hexNumeral (ascii 'X') n
  | .o, n => numeralText 8 n

/-- The negation of the least value overflows. -/
def Conversion.Overflows (k : Conversion) (v : Int32) : Prop := k.signed ∧ v = Int32.minValue

instance (k : Conversion) (v : Int32) : Decidable (k.Overflows v) := inferInstanceAs (Decidable (_ ∧ _))

/-- The digits that are written. -/
def Conversion.written (k : Conversion) (v : Int32) : List UInt8 :=
  if k.Overflows v then chars "./,),(-*,(" else k.numeral (k.magnitude v)

theorem number_text (k : Conversion) (v : Int32) :
    (k.number v).text k.char = signText (k.negative v) ++ k.written v := by
  have hnegative : ∀ v : Int32, decide (v < 0) = decide (v.toInt < 0) := fun v => by
    rw [decide_eq_decide, Int32.lt_iff_toInt_lt, Int32.toInt_zero]
  by_cases hsigned : k.signed = true
  · have hnum : k.numeral v.toInt.natAbs = numeralText 10 v.toInt.natAbs := by cases k <;> first | rfl | cases hsigned
    rw [Conversion.number, if_pos ((isSigned_char k).mpr hsigned), Number.text, Conversion.negative, Conversion.written,
      Conversion.magnitude, if_pos hsigned, hnum, hsigned]
    by_cases hmin : v = Int32.minValue
    · have hover : k.Overflows v := ⟨hsigned, hmin⟩
      rw [if_pos hmin, if_pos hover, hmin]
      rfl
    · have hover : ¬ k.Overflows v := fun h => hmin h.2
      rw [if_neg hmin, if_neg hover, integerText, ← hnegative]
      simp only [true_and]
  · have hover : ¬ k.Overflows v := fun h => hsigned h.1
    have hnegative : k.negative v = false := decide_eq_false fun h => hsigned h.1
    rw [Conversion.number, if_neg ((isSigned_char k).not.mpr hsigned), Number.text, Conversion.written, if_neg hover,
      Conversion.magnitude, if_neg hsigned, hnegative]
    cases k <;> rfl

theorem magnitude_eq_zero : k.magnitude v = 0 ↔ v = 0 := by
  rw [Conversion.magnitude]
  split
  · rw [Int.natAbs_eq_zero, ← Int32.toInt_zero, Int32.toInt_inj]
  · have hzero : (0 : Int32).toUInt32.toNat = 0 := rfl
    rw [← hzero, UInt32.toNat_inj]
    exact ⟨fun h => by simpa using congrArg UInt32.toInt32 h, fun h => by rw [h]⟩

theorem zeroHead_numeral {n : ℕ} : zeroHead (k.numeral n) ↔ n = 0 := by
  cases k with
  | d => exact zeroHead_numeralText (by decide) (by decide)
  | i => exact zeroHead_numeralText (by decide) (by decide)
  | u => exact zeroHead_numeralText (by decide) (by decide)
  | o => exact zeroHead_numeralText (by decide) (by decide)
  | x => exact zeroHead_hexNumeral _
  | X => exact zeroHead_hexNumeral _

theorem numeral_zeroText (k : Conversion) : k.numeral 0 = chars "0" := by cases k <;> decide

theorem conversion_numeral_ne_nil {n : ℕ} : k.numeral n ≠ [] := by
  have hnumeral : ∀ b, numeralText b n ≠ [] := fun b => List.map_eq_nil_iff.not.mpr numeral_ne_nil
  have hhex : ∀ c, hexNumeral c n ≠ [] := by
    intro c
    rw [hexNumeral]
    split
    · exact List.map_eq_nil_iff.not.mpr (hnumeral 16)
    · exact hnumeral 16
  cases k with
  | d => exact hnumeral 10
  | i => exact hnumeral 10
  | u => exact hnumeral 10
  | x => exact hhex _
  | X => exact hhex _
  | o => exact hnumeral 8

theorem mem_numeral {n : ℕ} {c : UInt8} (h : c ∈ k.numeral n) : c ∈ chars "0123456789abcdefABCDEF" := by
  have hdigit : ∀ d < 16, hextable.getD d 0 ∈ chars "0123456789abcdefABCDEF" := by decide
  have hupper : ∀ d < 16, (if ascii 'a' ≤ hextable.getD d 0 ∧ hextable.getD d 0 ≤ ascii 'z' then hextable.getD d 0 - 32
      else hextable.getD d 0) ∈ chars "0123456789abcdefABCDEF" := by decide
  have hnumeral : ∀ b, 1 < b → b ≤ 16 → c ∈ numeralText b n → c ∈ chars "0123456789abcdefABCDEF" := by
    intro b hb hb' hc
    obtain ⟨d, hd, rfl⟩ := List.mem_map.mp hc
    exact hdigit d ((numeral_lt hb hd).trans_le hb')
  cases k with
  | d => exact hnumeral 10 (by decide) (by decide) h
  | i => exact hnumeral 10 (by decide) (by decide) h
  | u => exact hnumeral 10 (by decide) (by decide) h
  | o => exact hnumeral 8 (by decide) (by decide) h
  | x => exact hnumeral 16 (by decide) le_rfl h
  | X =>
    rw [Conversion.numeral, hexNumeral, if_pos rfl] at h
    obtain ⟨c', hc', rfl⟩ := List.mem_map.mp h
    obtain ⟨d, hd, rfl⟩ := List.mem_map.mp hc'
    exact hupper d (numeral_lt (by decide) hd)

theorem numeralText_length_le {b n : ℕ} (hb : 8 ≤ b) (h : n < 2 ^ 32) : (numeralText b n).length ≤ 11 := by
  rw [numeralText, digitText, List.length_map, numeral]
  split
  · decide
  · rw [List.length_reverse]
    have hpow : 8 ^ 11 ≤ b ^ 11 := Nat.pow_le_pow_left hb 11
    exact (Nat.digits_length_le_iff (by omega) n).mpr (by omega)

/-- The octal form is the longest one. -/
theorem numeral_length_le {n : ℕ} (h : n < 2 ^ 32) : (k.numeral n).length ≤ 11 := by
  have hhex : ∀ c, (hexNumeral c n).length ≤ 11 := by
    intro c
    rw [hexNumeral]
    split
    · rw [List.length_map]
      exact numeralText_length_le (by decide) h
    · exact numeralText_length_le (by decide) h
  cases k with
  | d => exact numeralText_length_le (by decide) h
  | i => exact numeralText_length_le (by decide) h
  | u => exact numeralText_length_le (by decide) h
  | o => exact numeralText_length_le (by decide) h
  | x => exact hhex _
  | X => exact hhex _

theorem magnitude_lt (k : Conversion) (v : Int32) : k.magnitude v < 2 ^ 32 := by
  have hlo := v.le_toInt
  have hhi := v.toInt_lt
  rw [Conversion.magnitude]
  split
  · omega
  · exact v.toUInt32.toNat_lt

theorem written_length_le (k : Conversion) (v : Int32) : (k.written v).length ≤ 11 := by
  rw [Conversion.written]
  split
  · decide
  · exact numeral_length_le (magnitude_lt k v)

theorem Width.value_range (w : Width) : -2 ^ 31 ≤ w.value.getD 0 ∧ w.value.getD 0 < 2 ^ 31 := by
  rw [← w.toInt_param]
  exact ⟨w.param.le_toInt, w.param.toInt_lt⟩

theorem Percision.value_range {p : Percision} {n : ℤ} (h : p.value = some n) : -2 ^ 31 ≤ n ∧ n < 2 ^ 31 := by
  have hparam := p.toInt_param
  rw [h, Option.getD_some] at hparam
  rw [← hparam]
  exact ⟨p.param.le_toInt, p.param.toInt_lt⟩

end Numbers

section Printed
variable {keeps : Bool} {d : Directive} {v : Int32}

def Directive.printedSign (d : Directive) (v : Int32) : List UInt8 :=
  if v < 0 then chars "-"
  else if lastSign d.flags = some .plus then chars "+"
  else if lastSign d.flags = some .space then chars " "
  else []

def Directive.printedPrefix (d : Directive) (v : Int32) : List UInt8 :=
  if d.conversion.signed then d.printedSign v
  else if FlagChar.hash ∈ d.flags then
    if d.conversion.hex then [ascii '0', d.conversion.char] else if d.conversion = .o then chars "0" else []
  else []

/-- The prefix and the digits of the field that is printed. -/
def Directive.printed (keeps : Bool) (d : Directive) (v : Int32) : List UInt8 × List UInt8 :=
  if d.percision.value = some 0 ∧ v = 0 then
    (if keeps then chars "0" else [], if d.conversion.signed then d.printedSign v else [])
  else
    (if d.width.value = none ∧ d.percision.value = none ∧ v = 0 ∧ ¬ d.conversion.signed then [] else d.printedPrefix v,
      (d.conversion.written v).leftpad (d.percision.value.getD 0).toNat (ascii '0'))

/-- The width of the field that is printed. The size of its text is converted to an `int`. -/
def Directive.printedWidth (keeps : Bool) (d : Directive) (v : Int32) : ℕ :=
  let size := ((d.printed keeps v).1 ++ (d.printed keeps v).2).length
  size + (fillCount (d.width.value.getD 0) size).toNat

def Directive.printedFill (d : Directive) : Fill :=
  if FlagChar.minus ∈ d.flags then .right
  else if FlagChar.zero ∈ d.flags ∧ d.percision.value = none then .inner
  else .left

theorem flag_eq (d : Directive) :
    d.flag =
      { Flags.zero with
        LEFTJUSTIFY := FlagChar.minus ∈ d.flags
        FORCESIGN := lastSign d.flags = some .plus
        BLANKSIGN := lastSign d.flags = some .space
        PREFIXSUFFIX := FlagChar.hash ∈ d.flags
        LEFTPADZERO := FlagChar.zero ∈ d.flags
        WIDTH_SPECIFIED := d.width.value.isSome
        WIDTH_PARAM := d.width.stars ≠ []
        PERCISION_SPECIFIED := d.percision.value.isSome
        PERCISION_PARAM := d.percision.stars ≠ [] } := by
  rw [Directive.flag, foldl_mark]
  cases d.width <;> cases d.percision <;> rfl

theorem written_head (k : Conversion) (v : Int32) :
    ∃ c rest, k.written v = c :: rest ∧ c ≠ ascii '-' ∧ (c = ascii '0' ↔ v = 0) := by
  rw [Conversion.written]
  split
  next h =>
    rw [h.2]
    exact ⟨ascii '.', chars "/,),(-*,(", rfl, by decide, by decide⟩
  next h =>
    have hzero := zeroHead_numeral (k := k) (n := k.magnitude v)
    obtain ⟨c, rest, htext⟩ := List.exists_cons_of_ne_nil (conversion_numeral_ne_nil (k := k) (n := k.magnitude v))
    have hmem : c ∈ chars "0123456789abcdefABCDEF" := mem_numeral (htext ▸ List.mem_cons_self)
    rw [htext, zeroHead, List.head?_cons, Option.some_inj, magnitude_eq_zero] at hzero
    refine ⟨c, rest, htext, ?_, hzero⟩
    rintro rfl
    exact absurd hmem (by decide)

theorem written_zero (k : Conversion) : k.written 0 = chars "0" := by cases k <;> decide

theorem text_negative (k : Conversion) (v : Int32) :
    decide ((signText (k.negative v) ++ k.written v).getD 0 (id 0) = id (ascii '-')) = k.negative v := by
  obtain ⟨c, rest, htext, hminus, -⟩ := written_head k v
  rw [htext]
  cases k.negative v with
  | false => exact decide_eq_false hminus
  | true => rfl

theorem text_dropSign (k : Conversion) (v : Int32) :
    dropSign (k.negative v) (signText (k.negative v) ++ k.written v) = k.written v := by
  cases k.negative v <;> rfl

theorem text_isZero (k : Conversion) (v : Int32) : isZero id (signText (k.negative v) ++ k.written v) ↔ v = 0 := by
  by_cases hv : v = 0
  · have hnegative : k.negative 0 = false := decide_eq_false fun h => absurd h.2 (by decide)
    rw [hv, hnegative, written_zero]
    exact iff_of_true ⟨rfl, rfl⟩ rfl
  · obtain ⟨c, rest, htext, -, hzero⟩ := written_head k v
    refine iff_of_false (fun h => ?_) hv
    rw [htext] at h
    cases hnegative : k.negative v with
    | false =>
      rw [hnegative] at h
      exact hv (hzero.mp h.1)
    | true =>
      rw [hnegative] at h
      have hminus : ascii '-' = ascii '0' := h.1
      exact absurd hminus (by decide)

theorem text_prefixText (keeps : Bool) (d : Directive) (v : Int32) :
    prefixText id keeps d.flag d.conversion.char (d.conversion.negative v) = d.printedPrefix v := by
  have hmap : ∀ s : List UInt8, s.map id = s := List.map_id
  rw [prefixText, flag_eq]
  simp only [assign_nil, hmap, isSigned_char, isHex_char, isOct_char, not_isFloat_char, or_false, id_eq, decide_eq_true_eq]
  rw [Directive.printedPrefix, Directive.printedSign]
  by_cases hsigned : d.conversion.signed = true
  · simp only [Conversion.negative, hsigned, true_and, decide_eq_true_eq, if_true]
  · rw [if_neg hsigned, if_neg hsigned]
    by_cases hhash : FlagChar.hash ∈ d.flags
    · simp only [hhash, and_true, if_true]
      by_cases hhex : d.conversion.hex = true
      · rw [if_pos (.inl hhex), if_pos hhex, if_pos hhex]
        rfl
      · by_cases hoct : d.conversion = .o
        · rw [if_pos (.inr hoct), if_neg hhex, if_neg hhex, if_pos hoct]
          rfl
        · rw [if_neg (not_or.mpr ⟨hhex, hoct⟩), if_neg hhex, if_neg hoct]
    · rw [if_neg fun h => hhash h.2, if_neg hhash]

theorem text_percision (keeps : Bool) {p : ℤ} (hp : d.percision.value = some p) :
    percisionText id keeps d.flag p d.conversion.char (d.conversion.negative v)
        (signText (d.conversion.negative v) ++ d.conversion.written v) =
      (d.printed keeps v).1 ++ (d.printed keeps v).2 := by
  rw [percisionText, text_prefixText, text_dropSign, Directive.printed, hp]
  by_cases hzero : p = 0 ∧ v = 0
  · have hcase : ¬ isFloat d.conversion.char ∧ p = 0 ∧
        isZero id (signText (d.conversion.negative v) ++ d.conversion.written v) :=
      ⟨not_isFloat_char _, hzero.1, (text_isZero _ v).mpr hzero.2⟩
    have hnegative : d.conversion.negative 0 = false := decide_eq_false fun h => absurd h.2 (by decide)
    have hprinted : some p = some 0 ∧ v = 0 := ⟨congrArg some hzero.1, hzero.2⟩
    rw [if_pos hcase, if_pos hprinted, hzero.2, hnegative, written_zero, flag_eq, Directive.printedSign]
    simp only [isSigned_char, decide_eq_true_eq]
    cases keeps <;> split_ifs <;> first | rfl | contradiction
  · have hcase : ¬ (¬ isFloat d.conversion.char ∧ p = 0 ∧
        isZero id (signText (d.conversion.negative v) ++ d.conversion.written v)) := fun h =>
      hzero ⟨h.2.1, (text_isZero _ v).mp h.2.2⟩
    have hnone : ¬ (d.width.value = none ∧ some p = none ∧ v = 0 ∧ ¬ d.conversion.signed = true) := fun h =>
      absurd h.2.1 (by rintro ⟨⟩)
    have hcount : (fillCount p (d.conversion.written v).length).toNat = p.toNat - (d.conversion.written v).length := by
      have hshort := written_length_le d.conversion v
      rw [fillCount_of_lt (Percision.value_range hp).1 (Percision.value_range hp).2 (by omega)]
      omega
    have hprinted : ¬ (some p = some 0 ∧ v = 0) := fun h => hzero ⟨Option.some.inj h.1, h.2⟩
    rw [if_neg hcase, if_neg hprinted, if_neg (not_isFloat_char _), if_neg hnone, Option.getD_some, hcount, List.append_assoc]
    rfl

theorem text_plain (keeps : Bool) (hwidth : d.width.value = none) (hpercision : d.percision.value = none) :
    plainLayout id d.flag d.conversion.char (d.conversion.negative v)
        (signText (d.conversion.negative v) ++ d.conversion.written v) =
      (d.printed keeps v).1 ++ (d.printed keeps v).2 := by
  have hzero : ¬ (d.percision.value = some 0 ∧ v = 0) := by
    rw [hpercision]
    exact fun h => absurd h.1 (by rintro ⟨⟩)
  have hpad : (d.conversion.written v).leftpad (d.percision.value.getD 0).toNat (ascii '0') = d.conversion.written v := by
    rw [hpercision]
    exact leftpad_of_le (Nat.zero_le _)
  rw [Directive.printed, if_neg hzero]
  simp only [hpad]
  rw [plainLayout, flag_eq]
  simp only [text_isZero, isSigned_char, isHex_char, isOct_char, not_isFloat_char, or_false, id_eq, decide_eq_true_eq, hwidth,
    hpercision, true_and, false_and, if_false]
  rw [← List.append_assoc, Directive.printedPrefix, Conversion.negative]
  congr 1
  by_cases hsigned : d.conversion.signed = true
  · have hbase : ¬ ((d.conversion.hex = true ∨ d.conversion = .o) ∧ FlagChar.hash ∈ d.flags ∧ ¬ v = 0) := by
      rintro ⟨hhex | hoct, -⟩
      · cases hconversion : d.conversion <;> rw [hconversion] at hsigned hhex <;> contradiction
      · rw [hoct] at hsigned
        contradiction
    rw [if_neg hbase, Directive.printedSign]
    simp only [hsigned, true_and, not_true_eq_false, and_false, if_true, if_false, decide_eq_true_eq, List.append_nil]
    by_cases hv : v < 0
    · simp only [hv, not_true_eq_false, and_false, if_true, if_false, decide_true]
      rfl
    · simp only [hv, not_false_eq_true, and_true, if_false, decide_false]
      by_cases hplus : lastSign d.flags = some .plus
      · rw [if_pos hplus, if_pos hplus, hplus]
        rfl
      · rw [if_neg hplus, if_neg hplus, List.nil_append]
        split <;> rfl
  · simp only [hsigned, false_and, not_false_eq_true, and_true, if_false, decide_false, Bool.false_eq_true, List.nil_append]
    by_cases hv : v = 0
    · simp only [hv, not_true_eq_false, and_false, if_true, if_false]
      rfl
    · simp only [hv, not_false_eq_true, and_true, if_false]
      by_cases hhash : FlagChar.hash ∈ d.flags
      · simp only [hhash, and_true, if_true]
        cases d.conversion <;> rfl
      · simp only [hhash, and_false, if_false]
        rfl

theorem printed_plain (keeps : Bool) (v : Int32) (hpercision : d.percision.value = none) :
    d.printed keeps v =
      (if d.width.value = none ∧ v = 0 ∧ ¬ d.conversion.signed then [] else d.printedPrefix v, d.conversion.written v) := by
  have hcase : ¬ (d.percision.value = some 0 ∧ v = 0) := by
    rw [hpercision]
    exact fun h => absurd h.1 (by rintro ⟨⟩)
  rw [Directive.printed, if_neg hcase, hpercision]
  simp only [true_and]
  exact congrArg (Prod.mk _) (leftpad_of_le (Nat.zero_le _))

theorem printedPrefix_length_le (d : Directive) (v : Int32) : (d.printedPrefix v).length ≤ 2 := by
  rw [Directive.printedPrefix, Directive.printedSign]
  split_ifs <;> first | decide | exact le_rfl

theorem printed_short (keeps : Bool) (v : Int32) (hpercision : d.percision.value = none) :
    ((d.printed keeps v).1 ++ (d.printed keeps v).2).length < 2 ^ 31 := by
  have hpre := printedPrefix_length_le d v
  have hdigits := written_length_le d.conversion v
  rw [printed_plain keeps v hpercision]
  split
  · simp only [List.nil_append]
    omega
  · simp only [List.length_append]
    omega

/-- The text of a directive is a field, whose missing characters are counted with an `int`. -/
theorem text_field (keeps : Bool) (d : Directive) (v : Int32) :
    d.text keeps v =
      field (ascii ' ') (ascii '0') d.printedFill (d.printedWidth keeps v) (d.printed keeps v).1 (d.printed keeps v).2 := by
  rw [Directive.text, number_text, layout, text_negative, Directive.printedFill]
  have hwidth : d.flag.WIDTH_SPECIFIED = d.width.value.isSome := by rw [flag_eq]
  have hpercision : d.flag.PERCISION_SPECIFIED = d.percision.value.isSome := by rw [flag_eq]
  have hleft : d.flag.LEFTJUSTIFY = decide (FlagChar.minus ∈ d.flags) := by rw [flag_eq]
  have hzero : d.flag.LEFTPADZERO = decide (FlagChar.zero ∈ d.flags) := by rw [flag_eq]
  have hmissing : (fillCount (d.width.value.getD 0) ((d.printed keeps v).1 ++ (d.printed keeps v).2).length).toNat =
      d.printedWidth keeps v - ((d.printed keeps v).1 ++ (d.printed keeps v).2).length := (Nat.add_sub_cancel_left _ _).symm
  rw [hwidth, hpercision, hleft, hzero]
  cases hp : d.percision.value with
  | some p =>
    have hinner : ¬ (FlagChar.zero ∈ d.flags ∧ some p = none) := fun h => absurd h.2 (by rintro ⟨⟩)
    simp only [Option.isSome_some, Option.getD_some, text_percision keeps hp, not_true_eq_false, and_false,
      if_false, if_true, hmissing, if_neg hinner, decide_eq_true_eq]
    by_cases hminus : FlagChar.minus ∈ d.flags
    · rw [if_pos hminus, if_pos hminus]
      rfl
    · rw [if_neg hminus, if_neg hminus]
      rfl
  | none =>
    cases hw : d.width.value with
    | none =>
      have hsize : ((d.printed keeps v).1 ++ (d.printed keeps v).2).length < 2 ^ 31 := printed_short keeps v hp
      have hfull : d.printedWidth keeps v ≤ ((d.printed keeps v).1 ++ (d.printed keeps v).2).length := by
        rw [Directive.printedWidth, fillCount_of_lt d.width.value_range.1 d.width.value_range.2 hsize, hw, Option.getD_none]
        omega
      simp only [text_plain keeps hw hp, Option.isSome_none, Bool.false_eq_true, not_false_eq_true, and_self, if_true]
      exact (field_of_le hfull).symm
    | some w =>
      have hprinted : d.printed keeps v = (d.printedPrefix v, d.conversion.written v) := by
        rw [printed_plain keeps v hp, hw, if_neg fun h => absurd h.1 (by rintro ⟨⟩)]
      rw [hw, hprinted, Option.getD_some, List.length_append] at hmissing
      simp only [text_prefixText, text_dropSign, hprinted, Option.isSome_none, Option.isSome_some, Option.getD_some,
        Bool.false_eq_true, not_true_eq_false, false_and, if_false, and_true, decide_eq_true_eq]
      rw [hmissing, ← List.length_append]
      by_cases hminus : FlagChar.minus ∈ d.flags
      · rw [if_pos hminus, if_pos hminus]
        rfl
      · rw [if_neg hminus, if_neg hminus]
        by_cases hzeros : FlagChar.zero ∈ d.flags
        · rw [if_pos hzeros, if_pos hzeros, List.append_assoc]
          rfl
        · rw [if_neg hzeros, if_neg hzeros, List.append_assoc]
          rfl

/-- The field has the width of the directive where an `int` holds the size of its text. -/
theorem text_field_of_lt (h : ((d.printed keeps v).1 ++ (d.printed keeps v).2).length < 2 ^ 31) :
    d.text keeps v =
      field (ascii ' ') (ascii '0') d.printedFill (d.width.value.getD 0).toNat (d.printed keeps v).1 (d.printed keeps v).2 := by
  rw [text_field]
  refine field_width ?_
  rw [Directive.printedWidth, fillCount_of_lt d.width.value_range.1 d.width.value_range.2 h]
  omega

end Printed
end LibXpf.Xpfstring
