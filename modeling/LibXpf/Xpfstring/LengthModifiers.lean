import LibXpf.Xpfstring.DecimalConstructors
import LibXpf.Xpfstring.PrintedFields

/-! # Length modifiers

A modifier names the type that the argument of an integer conversion has. `printf` takes an
`int` for all modifiers but `ll`, and masks it for the short ones without regard to its sign.
-/
namespace LibXpf.Xpfstring
open Buffers StepLoops PositionalDigits

section Modifiers

/-- The size of `long` in bytes, which is eight for the model LP64. -/
inductive LongLen where
  | four
  | eight
  deriving DecidableEq

inductive Modifier where
  | hh
  | h
  | none
  | l
  | ll
  deriving DecidableEq

def Modifier.units : Modifier → List UInt8
  | .hh => chars "hh"
  | .h => chars "h"
  | .none => []
  | .l => chars "l"
  | .ll => chars "ll"

/-- The bits of the type that a modifier names. -/
def Modifier.bits (long : LongLen) : Modifier → ℕ
  | .hh => 8
  | .h => 16
  | .none => 32
  | .l => if long = .eight then 64 else 32
  | .ll => 64

/-- The bits of the argument, where a `char` or a `short` is passed as an `int`. -/
def Modifier.argBits (long : LongLen) (md : Modifier) : ℕ := max 32 (md.bits long)

/-- The argument as `printf` takes it. An `int` that is taken where a `long` of 64 bits was passed is its low half. -/
def Modifier.passed (t : CharType) (long : LongLen) (md : Modifier) (v : BitVec (md.argBits long)) : VaArg t :=
  if md = .ll then .longlong (Int64.ofBitVec (v.setWidth 64)) else .int (Int32.ofBitVec (v.setWidth 32))

/-- The argument, converted to the type that the modifier names. -/
def Modifier.converted (long : LongLen) (md : Modifier) (k : Conversion) (v : BitVec (md.argBits long)) : ℤ :=
  if k.signed then (v.setWidth (md.bits long)).toInt else (v.setWidth (md.bits long)).toNat

/-- The canonical numeral of an integer in the base of a conversion. -/
def Conversion.canonical (k : Conversion) (z : ℤ) : List UInt8 := signText (z < 0) ++ k.numeral z.natAbs

/-- The text of a conversion with a modifier, without flags, width and percision. -/
def modifiedUnits (md : Modifier) (k : Conversion) : List UInt8 := ascii '%' :: md.units ++ [k.char]

end Modifiers

section Scan
variable {t : CharType} {format : List t.ValueType} {i : ℕ} {c : UInt8} {rest : List UInt8}
  {width percision : Int32} {flag : Flags} {ap : List (VaArg t)} {str : List t.ValueType}

/-- The bits that the scanner sets for a modifier. -/
def Modifier.mark (flag : Flags) : Modifier → Flags
  | .hh => { flag with FMT_HALFHALF := true }
  | .h => { flag with FMT_HALF := true }
  | .none => flag
  | .l => { flag with FMT_LONG := true }
  | .ll => { flag with FMT_LONGLONG := true }

/-- An `l` is the first of two, or stands alone. -/
theorem examine_l {m : Machine t} {d : UInt8} (hstate : m.state = .ST_SUBSPEC)
    (hnext : format[m.p + 1]? = some (t.ofChar d)) :
    m.examine format (t.ofChar (ascii 'l')) =
      .ok (if d = ascii 'l' then { m with flag := { m.flag with FMT_LONGLONG := true }, p := m.p + 1 }
        else { m with flag := { m.flag with FMT_LONG := true } }) := by
  have hread : read Trap.formatBounds format (m.p + 1) = .ok (t.ofChar d) := read_ok_iff.mpr hnext
  rw [Machine.examine]
  simp only [hstate, t.narrow_ofChar, Machine.subspec, if_pos, hread]
  by_cases hd : d = ascii 'l'
  · rw [if_pos hd]
    exact if_pos (congrArg t.ofChar hd)
  · rw [if_neg hd]
    exact if_neg (CharType.ofChar_inj.not.mpr hd)

theorem examine_h {m : Machine t} {d : UInt8} (hstate : m.state = .ST_SUBSPEC)
    (hnext : format[m.p + 1]? = some (t.ofChar d)) :
    m.examine format (t.ofChar (ascii 'h')) =
      .ok (if d = ascii 'h' then { m with flag := { m.flag with FMT_HALFHALF := true }, p := m.p + 1 }
        else { m with flag := { m.flag with FMT_HALF := true } }) := by
  have hread : read Trap.formatBounds format (m.p + 1) = .ok (t.ofChar d) := read_ok_iff.mpr hnext
  have hother : ¬ ascii 'h' = ascii 'l' := by decide
  rw [Machine.examine]
  simp only [hstate, t.narrow_ofChar, Machine.subspec, if_neg hother, if_pos, hread]
  by_cases hd : d = ascii 'h'
  · rw [if_pos hd]
    exact if_pos (congrArg t.ofChar hd)
  · rw [if_neg hd]
    exact if_neg (CharType.ofChar_inj.not.mpr hd)

/-- The scanner comes through a modifier to the conversion. -/
theorem modifier_visits (md : Modifier) (hi : 0 < i) (h : Stands format i (md.units ++ c :: rest)) (hc : c ≠ 0)
    (hplain : c ∉ chars "lhjztL") :
    Visits (Machine.step format) ⟨i, .ST_SUBSPEC, width, percision, flag, ap, str⟩
      ⟨i + md.units.length, .ST_SPEC, width, percision, md.mark flag, ap, str⟩ := by
  obtain ⟨hunits, hrest⟩ := stands_append.mp h
  obtain ⟨hnext, -⟩ := stands_cons.mp hrest
  have hend : Leads (Machine.step format) ⟨i + md.units.length, .ST_SUBSPEC, width, percision, md.mark flag, ap, str⟩
      ⟨i + md.units.length, .ST_SPEC, width, percision, md.mark flag, ap, str⟩ :=
    subspec_leads (Nat.lt_add_right md.units.length hi) hnext hc hplain
  let m : Machine t := ⟨i, .ST_SUBSPEC, width, percision, flag, ap, str⟩
  cases md with
  | none => exact .single hend
  | l =>
    have hl : c ≠ ascii 'l' := by
      rintro rfl
      exact hplain (by decide)
    have hexamine := examine_l (m := m) rfl hnext
    rw [if_neg hl] at hexamine
    exact .head (leads_examine (stands_cons.mp hunits).1 (by decide) hexamine) (.single hend)
  | h =>
    have hh : c ≠ ascii 'h' := by
      rintro rfl
      exact hplain (by decide)
    have hexamine := examine_h (m := m) rfl hnext
    rw [if_neg hh] at hexamine
    exact .head (leads_examine (stands_cons.mp hunits).1 (by decide) hexamine) (.single hend)
  | ll =>
    obtain ⟨hget, hmore⟩ := stands_cons.mp hunits
    have hsecond : format[i + 1]? = some (t.ofChar (ascii 'l')) := (stands_cons.mp hmore).1
    have hexamine := examine_l (m := m) rfl hsecond
    rw [if_pos rfl] at hexamine
    exact .head (leads_examine hget (by decide) hexamine) (.single hend)
  | hh =>
    obtain ⟨hget, hmore⟩ := stands_cons.mp hunits
    have hsecond : format[i + 1]? = some (t.ofChar (ascii 'h')) := (stands_cons.mp hmore).1
    have hexamine := examine_h (m := m) rfl hsecond
    rw [if_pos rfl] at hexamine
    exact .head (leads_examine hget (by decide) hexamine) (.single hend)

end Scan

section Numbers
variable {t : CharType} {long : LongLen} {md : Modifier} {k : Conversion}

def Integer.number : Integer → Number
  | .s32 v => .s32 v
  | .u32 v => .u32 v
  | .s64 v => .s64 v
  | .u64 v => .u64 v

def Integer.signed : Integer → Bool
  | .s32 _ | .s64 _ => true
  | .u32 _ | .u64 _ => false

/-- The number that `printf` makes of its argument. -/
def Modifier.integer (long : LongLen) (md : Modifier) (k : Conversion) (v : BitVec (md.argBits long)) : Integer :=
  if md = .ll then
    if k.signed then .s64 (Int64.ofBitVec (v.setWidth 64)) else .u64 (UInt64.ofBitVec (v.setWidth 64))
  else
    let w := shrink (md.mark Flags.zero) (Int32.ofBitVec (v.setWidth 32))
    if k.signed then .s32 w else .u32 w.toUInt32

theorem fits_number (n : Integer) : n.number.Fits := by cases n <;> trivial

theorem signed_integer (v : BitVec (md.argBits long)) : (md.integer long k v).signed = k.signed := by
  rw [Modifier.integer]
  by_cases hsigned : k.signed = true
  · simp only [hsigned, if_true]
    split <;> rfl
  · simp only [hsigned, Bool.false_eq_true, if_false]
    split <;> rfl

theorem takeNumber_modifier (v : BitVec (md.argBits long)) (rest : List (VaArg t)) :
    takeNumber (md.mark Flags.zero) k.char (md.passed t long v :: rest) = .ok ((md.integer long k v).number, rest) := by
  rw [takeNumber, Modifier.integer, Modifier.passed]
  by_cases hll : md = .ll
  · have hlonglong : (md.mark Flags.zero).FMT_LONGLONG = true := by
      rw [hll]
      rfl
    rw [if_pos hll, if_pos hll, if_pos hlonglong, takeLongLong]
    change Except.ok (if isSigned k.char then Number.s64 _ else .u64 _, rest) = _
    simp only [isSigned_char]
    split <;> rfl
  · have hint : ¬ (md.mark Flags.zero).FMT_LONGLONG = true := by cases md <;> first | exact Bool.false_ne_true | exact absurd rfl hll
    rw [if_neg hll, if_neg hll, if_neg hint, if_neg (not_isFloat_char k), takeInt]
    change Except.ok (if isSigned k.char then Number.s32 _ else .u32 _, rest) = _
    simp only [isSigned_char]
    split <;> rfl

/-- Without flags, width and percision the text of the number is all that is appended. -/
theorem layout_modifier (keeps : Bool) (md : Modifier) (k : Conversion) (s : List UInt8) :
    layout id keeps (md.mark Flags.zero) 0 0 k.char s = s := by
  have hplain : ¬ (md.mark Flags.zero).WIDTH_SPECIFIED = true ∧ ¬ (md.mark Flags.zero).PERCISION_SPECIFIED = true := by
    cases md <;> exact ⟨Bool.false_ne_true, Bool.false_ne_true⟩
  have hforce : (md.mark Flags.zero).FORCESIGN = false := by cases md <;> rfl
  have hblank : (md.mark Flags.zero).BLANKSIGN = false := by cases md <;> rfl
  have hhash : (md.mark Flags.zero).PREFIXSUFFIX = false := by cases md <;> rfl
  rw [layout, if_pos hplain, plainLayout]
  simp only [hforce, hblank, hhash, Bool.false_eq_true, false_and, and_false, if_false, List.append_nil, ite_self, List.nil_append]

end Numbers

section Texts
variable {t : CharType} {long : LongLen} {md : Modifier} {k : Conversion}

theorem modifier_appends (t : CharType) (long : LongLen) (md : Modifier) (k : Conversion) (v : BitVec (md.argBits long)) :
    Appends (modifiedUnits md k) [md.passed t long v] (((md.integer long k v).number.text k.char).map t.ofChar) := by
  intro format i h width percision flag rest str
  have hunits : modifiedUnits md k = ascii '%' :: (md.units ++ [k.char]) := List.cons_append
  have hplain : k.char ∉ chars "lhjztL" := by cases k <;> decide
  obtain ⟨c, more, hcons, hc⟩ : ∃ c more, md.units ++ [k.char] = c :: more ∧ Follows c := by
    cases md with
    | none => exact ⟨k.char, [], rfl, follows_char k⟩
    | hh => exact ⟨ascii 'h', [ascii 'h', k.char], rfl, by decide⟩
    | h => exact ⟨ascii 'h', [k.char], rfl, by decide⟩
    | l => exact ⟨ascii 'l', [k.char], rfl, by decide⟩
    | ll => exact ⟨ascii 'l', [ascii 'l', k.char], rfl, by decide⟩
  have hlen : i + (modifiedUnits md k).length = i + 1 + md.units.length + 1 := by
    rw [hunits, List.length_cons, List.length_append, List.length_singleton]
    omega
  rw [hunits] at h
  have hmore := (stands_cons.mp h).2
  have hget := (stands_cons.mp (stands_append.mp hmore).2).1
  rw [hcons] at h
  let m : Machine t := ⟨i + 1 + md.units.length, .ST_SPEC, 0, 0, md.mark Flags.zero, md.passed t long v :: rest, str⟩
  have hspecification : Visits (Machine.step format) ⟨i, .ST_TEXT, width, percision, flag, md.passed t long v :: rest, str⟩
      ⟨i + 1, .ST_SUBSPEC, 0, 0, Flags.zero, md.passed t long v :: rest, str⟩ := specification_visits [] .absent .absent hc h
  have hmodifier : Visits (Machine.step format) ⟨i + 1, .ST_SUBSPEC, 0, 0, Flags.zero, md.passed t long v :: rest, str⟩ m :=
    modifier_visits md (Nat.succ_pos i) hmore (follows_char k).1 hplain
  have hexamine : m.examine format (t.ofChar k.char) = .ok { m with
      state := .ST_TEXT, ap := rest, str := str ++ ((md.integer long k v).number.text k.char).map t.ofChar } := by
    have hparams : m.readParams = .ok { m with width := 0, percision := 0, ap := md.passed t long v :: rest } := by
      rw [Machine.readParams]
      cases md <;> rfl
    have hspec := spec_number k (fits_number _) hparams (takeNumber_modifier v rest)
    rw [Machine.examine]
    simp only [m, t.narrow_ofChar]
    rw [hspec]
    exact congrArg (fun s => Except.ok { m with state := .ST_TEXT, ap := rest, str := str ++ s.map t.ofChar })
      (layout_modifier t.keeps md k _)
  refine ⟨_, (hspecification.trans hmodifier).tail (leads_examine (m := m) hget (follows_char k).1 hexamine), rfl, ?_, rfl, rfl⟩
  rw [hlen]

end Texts

section Canonical
variable {k : Conversion} {n : Integer} {z z' : ℤ}

def Conversion.base : Conversion → ℕ
  | .d | .i | .u => 10
  | .x | .X => 16
  | .o => 8

/-- The value of a digit, which may be a capital letter. -/
def digitValue (c : UInt8) : ℕ :=
  let i := (chars "0123456789abcdefABCDEF").idxOf c
  if i < 16 then i else i - 6

theorem map_digitValue (k : Conversion) (m : ℕ) : (k.numeral m).map digitValue = numeral k.base m := by
  have hsmall : ∀ d < 16, digitValue (hextable.getD d 0) = d := by decide
  have hcapital : ∀ d < 16, digitValue (if ascii 'a' ≤ hextable.getD d 0 ∧ hextable.getD d 0 ≤ ascii 'z'
      then hextable.getD d 0 - 32 else hextable.getD d 0) = d := by decide
  have htext : ∀ b, 1 < b → b ≤ 16 → (numeralText b m).map digitValue = numeral b m := by
    intro b hb hb'
    rw [numeralText, digitText, List.map_map]
    exact (List.map_congr_left fun d hd => hsmall d ((numeral_lt hb hd).trans_le hb')).trans (List.map_id _)
  cases k with
  | d => exact htext 10 (by decide) (by decide)
  | i => exact htext 10 (by decide) (by decide)
  | u => exact htext 10 (by decide) (by decide)
  | o => exact htext 8 (by decide) (by decide)
  | x => exact htext 16 (by decide) le_rfl
  | X =>
    rw [Conversion.numeral, hexNumeral, if_pos rfl, numeralText, digitText, List.map_map, List.map_map]
    exact (List.map_congr_left fun d hd => hcapital d (numeral_lt (by decide) hd)).trans (List.map_id _)

theorem conversion_numeral_inj {m m' : ℕ} (h : k.numeral m = k.numeral m') : m = m' := by
  have hbase : 1 < k.base := by cases k <;> decide
  have hdigits : numeral k.base m = numeral k.base m' := by rw [← map_digitValue, h, map_digitValue]
  have hvalue := (isNumeral_iff hbase).mpr (rfl : numeral k.base m = numeral k.base m)
  have hvalue' := (isNumeral_iff hbase).mpr (rfl : numeral k.base m' = numeral k.base m')
  rw [← hvalue.value, ← hvalue'.value, hdigits]

theorem point_notMem_canonical (k : Conversion) (z : ℤ) : ascii '.' ∉ k.canonical z := by
  intro h
  rcases List.mem_append.mp h with h | h
  · cases hsign : decide (z < 0) <;> rw [hsign] at h <;> exact absurd h (by decide)
  · exact absurd (mem_numeral h) (by decide)

theorem canonical_inj (h : k.canonical z = k.canonical z') : z = z' := by
  have hminus : ∀ m, ∀ s : List UInt8, ascii '-' :: s ≠ k.numeral m := by
    intro m s heq
    have hmem : ascii '-' ∈ k.numeral m := heq ▸ List.mem_cons_self
    exact absurd (mem_numeral hmem) (by decide)
  rw [Conversion.canonical, Conversion.canonical] at h
  by_cases hz : z < 0 <;> by_cases hz' : z' < 0
  · rw [decide_eq_true hz, decide_eq_true hz'] at h
    have habs := conversion_numeral_inj (List.append_cancel_left h)
    omega
  · rw [decide_eq_true hz, decide_eq_false hz'] at h
    exact absurd h (hminus _ _)
  · rw [decide_eq_false hz, decide_eq_true hz'] at h
    exact absurd h.symm (hminus _ _)
  · rw [decide_eq_false hz, decide_eq_false hz'] at h
    have habs := conversion_numeral_inj (List.append_cancel_left h)
    omega

theorem text_integer (hsigned : n.signed = k.signed) (hleast : ¬ n.Least) : n.number.text k.char = k.canonical n.value := by
  have hdecimal : k.signed = true → ∀ z : ℤ, integerText z = k.canonical z := by
    intro h z
    cases k <;> first | rfl | cases h
  have hunsigned : ∀ m : ℕ, (if isHex k.char then hexNumeral k.char m else if isOct k.char then numeralText 8 m else numeralText 10 m) =
      k.canonical m := by
    intro m
    have hcanonical : k.canonical m = k.numeral m := by
      rw [Conversion.canonical, decide_eq_false (by omega), Int.natAbs_natCast]
      rfl
    rw [hcanonical]
    cases k <;> rfl
  cases n with
  | s32 v => exact (if_neg fun hv => hleast (.inl (congrArg Integer.s32 hv))).trans (hdecimal hsigned.symm v.toInt)
  | s64 v => exact (if_neg fun hv => hleast (.inr (congrArg Integer.s64 hv))).trans (hdecimal hsigned.symm v.toInt)
  | u32 v => exact hunsigned v.toNat
  | u64 v => exact hunsigned v.toNat

/-- The text is a canonical numeral for a value that is no least one, and determines it. -/
theorem text_integer_iff (hsigned : n.signed = k.signed) :
    n.number.text k.char = k.canonical z ↔ n.value = z ∧ ¬ n.Least := by
  by_cases hleast : n.Least
  · refine iff_of_false (fun h => point_notMem_canonical k z ?_) fun h => h.2 hleast
    rw [← h]
    rcases hleast with rfl | rfl
    · exact (by decide : ascii '.' ∈ chars "-./,),(-*,(")
    · exact (by decide : ascii '.' ∈ chars "-'..--).0-*(+,))+(0(")
  · rw [text_integer hsigned hleast]
    exact ⟨fun h => ⟨canonical_inj h, hleast⟩, fun h => congrArg k.canonical h.1⟩

end Canonical

section Conversions
variable {t : CharType} {long : LongLen} {md : Modifier} {k : Conversion}

/-- The values that are converted as the modifier says: of a `short` and of a `char` those that are not negative,
and of a `long` the values of an `int`, but never the least value of the type that is taken. -/
def Modifier.Range (md : Modifier) (k : Conversion) (z : ℤ) : Prop :=
  match md with
  | .hh | .h => k.signed → 0 ≤ z
  | .none | .l => if k.signed then -2 ^ 31 < z ∧ z < 2 ^ 31 else z < 2 ^ 32
  | .ll => z ≠ -2 ^ 63

theorem toNat_shrink (hll : md ≠ .ll) (v : BitVec (md.argBits long)) :
    (shrink (md.mark Flags.zero) (Int32.ofBitVec (v.setWidth 32))).toBitVec.toNat = v.toNat % 2 ^ min 32 (md.bits long) := by
  have hmask : ∀ n < 32, (v.setWidth 32 &&& BitVec.ofNat 32 (2 ^ n - 1)).toNat = v.toNat % 2 ^ n := by
    intro n hn
    have hpow : 2 ^ n < 2 ^ 32 := Nat.pow_lt_pow_right (by decide) hn
    rw [BitVec.toNat_and, BitVec.toNat_setWidth, BitVec.toNat_ofNat, Nat.mod_eq_of_lt (a := 2 ^ n - 1) (by omega),
      Nat.and_two_pow_sub_one_eq_mod, Nat.mod_mod_of_dvd _ (Nat.pow_dvd_pow 2 hn.le)]
  cases md with
  | hh => exact hmask 8 (by decide)
  | h => exact hmask 16 (by decide)
  | none => exact BitVec.toNat_setWidth 32 v
  | l => cases long <;> exact BitVec.toNat_setWidth 32 v
  | ll => exact absurd rfl hll

theorem least_s32 {w : Int32} : (Integer.s32 w).Least ↔ w.toInt = -2 ^ 31 := by
  rw [← Int32.toInt_minValue, Int32.toInt_inj]
  exact ⟨fun h => h.elim Integer.s32.inj nofun, fun h => .inl (congrArg Integer.s32 h)⟩

theorem least_s64 {w : Int64} : (Integer.s64 w).Least ↔ w.toInt = -2 ^ 63 := by
  rw [← Int64.toInt_minValue, Int64.toInt_inj]
  exact ⟨fun h => h.elim nofun Integer.s64.inj, fun h => .inr (congrArg Integer.s64 h)⟩

theorem not_least_unsigned {n : Integer} (h : n.signed = false) : ¬ n.Least := by
  rintro (rfl | rfl) <;> cases h

/-- The low bits are the value of a shorter signed type if it is not negative. -/
theorem bmod_short {n b : ℕ} (hb : b < 32) :
    (Int.bmod (n % 2 ^ b : ℕ) (2 ^ 32) = Int.bmod n (2 ^ b) ∧ ¬ Int.bmod (n % 2 ^ b : ℕ) (2 ^ 32) = -2 ^ 31) ↔
      0 ≤ Int.bmod n (2 ^ b) := by
  have hpow : 2 ^ b ≤ 2 ^ 31 := Nat.pow_le_pow_right (by decide) (by omega)
  have hlt : n % 2 ^ b < 2 ^ b := Nat.mod_lt _ (Nat.two_pow_pos b)
  have hlow : Int.bmod (n % 2 ^ b : ℕ) (2 ^ 32) = (n % 2 ^ b : ℕ) := Int.bmod_eq_of_le (by omega) (by omega)
  have hvalue : Int.bmod n (2 ^ b) = if ((n % 2 ^ b : ℕ) : ℤ) < ((2 ^ b : ℕ) + 1) / 2 then ((n % 2 ^ b : ℕ) : ℤ)
      else (n % 2 ^ b : ℕ) - (2 ^ b : ℕ) := by
    rw [Int.bmod_def, Int.natCast_mod]
  rw [hlow, hvalue]
  split <;> omega

/-- The low half is the value of a longer signed type if it is in the range of an `int`. -/
theorem bmod_long {n b : ℕ} (hb : 32 ≤ b) :
    (Int.bmod (n % 2 ^ 32 : ℕ) (2 ^ 32) = Int.bmod n (2 ^ b) ∧ ¬ Int.bmod (n % 2 ^ 32 : ℕ) (2 ^ 32) = -2 ^ 31) ↔
      -2 ^ 31 < Int.bmod n (2 ^ b) ∧ Int.bmod n (2 ^ b) < 2 ^ 31 := by
  have hlow : Int.bmod (n % 2 ^ 32 : ℕ) (2 ^ 32) = Int.bmod (Int.bmod n (2 ^ b)) (2 ^ 32) := by
    rw [Int.natCast_mod, Int.emod_bmod, Int.bmod_bmod_of_dvd (Nat.pow_dvd_pow 2 hb)]
  rw [hlow]
  generalize Int.bmod n (2 ^ b) = z
  have hge : -((2 ^ 32 : ℕ) / 2 : ℤ) ≤ Int.bmod z (2 ^ 32) := Int.le_bmod (by decide)
  have hlt : Int.bmod z (2 ^ 32) < ((2 ^ 32 : ℕ) + 1) / 2 := Int.bmod_lt (by decide)
  constructor
  · rintro ⟨heq, hleast⟩
    omega
  · rintro ⟨hlower, hupper⟩
    have heq : Int.bmod z (2 ^ 32) = z := Int.bmod_eq_of_le (by omega) (by omega)
    omega

theorem mod_long {n b : ℕ} (hb : 32 ≤ b) :
    ((n % 2 ^ 32 : ℕ) : ℤ) = (n % 2 ^ b : ℕ) ↔ ((n % 2 ^ b : ℕ) : ℤ) < 2 ^ 32 := by
  have hlow : n % 2 ^ 32 = n % 2 ^ b % 2 ^ 32 := (Nat.mod_mod_of_dvd n (Nat.pow_dvd_pow 2 hb)).symm
  rw [hlow]
  omega

/-- What is taken of the argument is its value as the modifier says in the range of the modifier only. -/
theorem integer_range (v : BitVec (md.argBits long)) :
    ((md.integer long k v).value = md.converted long k v ∧ ¬ (md.integer long k v).Least) ↔
      md.Range k (md.converted long k v) := by
  by_cases hll : md = .ll
  · subst hll
    rw [Modifier.integer, Modifier.converted, Modifier.Range, if_pos rfl]
    by_cases hsigned : k.signed = true
    · rw [if_pos hsigned, if_pos hsigned, least_s64]
      exact and_iff_right rfl
    · rw [if_neg hsigned, if_neg hsigned]
      refine iff_of_true ⟨rfl, not_least_unsigned rfl⟩ fun h => ?_
      omega
  · have hvalue := toNat_shrink hll v
    rw [Modifier.integer, Modifier.converted, if_neg hll]
    by_cases hsigned : k.signed = true
    · have htaken : (shrink (md.mark Flags.zero) (Int32.ofBitVec (v.setWidth 32))).toInt =
          Int.bmod (v.toNat % 2 ^ min 32 (md.bits long) : ℕ) (2 ^ 32) := by
        rw [← hvalue]
        exact BitVec.toInt_eq_toNat_bmod _
      rw [if_pos hsigned, if_pos hsigned, least_s32, Integer.value, htaken, BitVec.toInt_setWidth]
      cases md with
      | hh => exact (bmod_short (show 8 < 32 by decide)).trans ⟨fun h _ => h, fun h => h hsigned⟩
      | h => exact (bmod_short (show 16 < 32 by decide)).trans ⟨fun h _ => h, fun h => h hsigned⟩
      | none => exact (bmod_long (le_refl 32)).trans (iff_of_eq (if_pos hsigned).symm)
      | l =>
        refine Iff.trans ?_ (iff_of_eq (if_pos hsigned).symm)
        cases long with
        | four => exact bmod_long (le_refl 32)
        | eight => exact bmod_long (show 32 ≤ 64 by decide)
      | ll => exact absurd rfl hll
    · have htaken : (shrink (md.mark Flags.zero) (Int32.ofBitVec (v.setWidth 32))).toUInt32.toNat =
          v.toNat % 2 ^ min 32 (md.bits long) := hvalue
      rw [if_neg hsigned, if_neg hsigned, Integer.value, htaken, BitVec.toNat_setWidth, and_iff_left (not_least_unsigned rfl)]
      cases md with
      | hh => exact iff_of_true rfl fun h => absurd h hsigned
      | h => exact iff_of_true rfl fun h => absurd h hsigned
      | none => exact (mod_long (le_refl 32)).trans (iff_of_eq (if_neg hsigned).symm)
      | l =>
        refine Iff.trans ?_ (iff_of_eq (if_neg hsigned).symm)
        cases long with
        | four => exact mod_long (le_refl 32)
        | eight => exact mod_long (show 32 ≤ 64 by decide)
      | ll => exact absurd rfl hll

/-- The conversion appends the canonical numeral of its converted argument in the range of the modifier only. -/
theorem converted_iff (t : CharType) (long : LongLen) (md : Modifier) (k : Conversion) (v : BitVec (md.argBits long)) :
    Appends (modifiedUnits md k) [md.passed t long v] ((k.canonical (md.converted long k v)).map t.ofChar) ↔
      md.Range k (md.converted long k v) := by
  have happends := modifier_appends t long md k v
  rw [← integer_range v, ← text_integer_iff (signed_integer v)]
  constructor
  · intro h
    exact t.ofChar_injective.list_map (happends.unique h)
  · intro h
    exact h ▸ happends

/-- A negative `short` is printed as an unsigned one. -/
theorem not_converted :
    ¬ Appends (modifiedUnits .h .d) [Modifier.passed .c8 .eight .h (-1 : BitVec 32)]
      ((Conversion.canonical .d (Modifier.converted .eight .h .d (-1 : BitVec 32))).map CharType.c8.ofChar) := by
  intro h
  have hprinted := modifier_appends .c8 .eight .h .d (-1 : BitVec 32)
  have htext := CharType.c8.ofChar_injective.list_map (h.unique hprinted)
  exact absurd htext (by decide)

end Conversions
end LibXpf.Xpfstring
