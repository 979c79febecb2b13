import LibXpf.Foundation.SignedNumerals
import LibXpf.Xpfstring.Copying
import LibXpf.Xpfstring.LengthModifiers
import Mathlib.Data.List.TakeWhile

/-! # The function `lexical_cast`

A value is written by `printf`, and read back by `sscanf` after its text was narrowed. The
two directions choose their formats for themselves.
-/
namespace LibXpf.Xpfstring
open PositionalDigits SignedNumerals

/-- The value types, but for the floating ones. -/
inductive ValueKind where
  | bool
  | c8
  | u8
  | s16
  | u16
  | s32
  | u32
  | s64
  | u64

abbrev ValueKind.Value : ValueKind → Type
  | .bool => Bool
  | .c8 => Int8
  | .u8 => UInt8
  | .s16 => Int16
  | .u16 => UInt16
  | .s32 => Int32
  | .u32 => UInt32
  | .s64 => Int64
  | .u64 => UInt64

section Writing
variable (t : CharType)

/-- The format for an integer, and the argument that goes with it. -/
def Integer.format : Integer → String
  | .s32 _ => "%d"
  | .u32 _ => "%u"
  | .s64 _ => "%lld"
  | .u64 _ => "%llu"

def Integer.arg : Integer → VaArg t
  | .s32 v => .int v
  | .u32 v => .int v.toInt32
  | .s64 v => .longlong v
  | .u64 v => .longlong v.toInt64

def printInteger (n : Integer) : Except Trap (List t.ValueType) := do
  let (result, _) ← printf (t.literal n.format) [n.arg t]
  .ok result

/-- The cast of a value to a string. -/
def lexical_cast_string : (V : ValueKind) → V.Value → Except Trap (List t.ValueType)
  | .c8, val => printInteger t (.s32 val.toInt32)
  | .s16, val => printInteger t (.s32 val.toInt32)
  | .s32, val => printInteger t (.s32 val)
  | .u8, val => printInteger t (.u32 val.toUInt32)
  | .u16, val => printInteger t (.u32 val.toUInt32)
  | .u32, val => printInteger t (.u32 val)
  | .s64, val => printInteger t (.s64 val)
  | .u64, val => printInteger t (.u64 val)
  | .bool, val => .ok (assign t.ofChar t.keeps [] (chars (if val then "true" else "false")))

end Writing

section Reading

/-- The conversions of `sscanf`. -/
inductive ScanFormat where
  | d
  | u
  | lld
  | llu

def ScanFormat.bits : ScanFormat → ℕ
  | .d | .u => 32
  | .lld | .llu => 64

/-- The integers whose conversion is defined. An unsigned conversion takes a sign, too. -/
def ScanFormat.Represents : ScanFormat → ℤ → Prop
  | .d, z => -2 ^ 31 ≤ z ∧ z < 2 ^ 31
  | .lld, z => -2 ^ 63 ≤ z ∧ z < 2 ^ 63
  | .u, z => z.natAbs < 2 ^ 32
  | .llu, z => z.natAbs < 2 ^ 64

instance (f : ScanFormat) (z : ℤ) : Decidable (f.Represents z) :=
  match f with
  | .d => inferInstanceAs (Decidable (-2 ^ 31 ≤ z ∧ z < 2 ^ 31))
  | .lld => inferInstanceAs (Decidable (-2 ^ 63 ≤ z ∧ z < 2 ^ 63))
  | .u => inferInstanceAs (Decidable (z.natAbs < 2 ^ 32))
  | .llu => inferInstanceAs (Decidable (z.natAbs < 2 ^ 64))

/-- The characters of the numbers that `sscanf` reads. -/
def decimalAlphabet : Alphabet UInt8 where
  blank c := c = ascii ' ' ∨ 9 ≤ c ∧ c ≤ 13
  plus := ascii '+'
  minus := ascii '-'
  digit c := if isDigit c then some (c - ascii '0').toNat else none

/-- What `sscanf` leaves in its target, unless this is undefined. A target stays as it is if nothing matches. -/
def sscanf (f : ScanFormat) (text : List UInt8) (buf : BitVec f.bits) : Option (BitVec f.bits) :=
  match scan decimalAlphabet 10 (text.takeWhile (· ≠ 0)) with
  | none => some buf
  | some z => if f.Represents z then some (BitVec.ofInt f.bits z) else none

def ValueKind.scanFormat : ValueKind → ScanFormat
  | .bool | .c8 | .s16 | .s32 => .d
  | .u8 | .u16 | .u32 => .u
  | .s64 => .lld
  | .u64 => .llu

/-- The target, cast to the type of the value. -/
def ValueKind.ofBuffer : (V : ValueKind) → BitVec V.scanFormat.bits → V.Value
  | .bool, buf => buf ≠ 0
  | .c8, buf => Int8.ofBitVec (buf.setWidth 8)
  | .u8, buf => UInt8.ofBitVec (buf.setWidth 8)
  | .s16, buf => Int16.ofBitVec (buf.setWidth 16)
  | .u16, buf => UInt16.ofBitVec (buf.setWidth 16)
  | .s32, buf => Int32.ofBitVec buf
  | .u32, buf => UInt32.ofBitVec buf
  | .s64, buf => Int64.ofBitVec buf
  | .u64, buf => UInt64.ofBitVec buf

/-- The cast of a string to a value, with what the target `buf` holds at first. -/
def lexical_cast_value {t : CharType} (V : ValueKind) (src : List t.ValueType) (buf : BitVec V.scanFormat.bits) :
    Option V.Value :=
  let srcText := (src.takeWhile (· ≠ 0)).map t.narrow
  (sscanf V.scanFormat srcText buf).map V.ofBuffer

end Reading

/-- The value is read back from its text, whatever the target holds at first. -/
def RoundTrips (t : CharType) (V : ValueKind) (val : V.Value) : Prop :=
  ∃ src, lexical_cast_string t V val = .ok src ∧ ∀ buf, lexical_cast_value V src buf = some val

/-- The values that are not read back. -/
def Excepted : (V : ValueKind) → V.Value → Prop
  | .bool, _ => True
  | .s32, val => val = Int32.minValue
  | .s64, val => val = Int64.minValue
  | _, _ => False

section Writing
variable {t : CharType} {n : Integer}

def Integer.conversion (n : Integer) : Conversion := if n.signed then .d else .u

def Integer.modifier : Integer → Modifier
  | .s32 _ | .u32 _ => .none
  | .s64 _ | .u64 _ => .ll

theorem format_units (n : Integer) : chars n.format = modifiedUnits n.modifier n.conversion := by
  cases n with
  | s32 v => exact (by decide : chars "%d" = modifiedUnits .none .d)
  | u32 v => exact (by decide : chars "%u" = modifiedUnits .none .u)
  | s64 v => exact (by decide : chars "%lld" = modifiedUnits .ll .d)
  | u64 v => exact (by decide : chars "%llu" = modifiedUnits .ll .u)

/-- What is printed for the bits of an integer, where `long` does not matter. -/
theorem appends_of_bits {md : Modifier} {k : Conversion} (v : BitVec (md.argBits .eight))
    (hpassed : md.passed t .eight v = n.arg t) (hinteger : md.integer .eight k v = n) :
    Appends (modifiedUnits md k) [n.arg t] ((n.number.text k.char).map t.ofChar) := by
  have happends := modifier_appends t .eight md k v
  rw [hpassed, hinteger] at happends
  exact happends

/-- An integer is printed with the modifier of its size. -/
theorem integer_appends (t : CharType) (n : Integer) :
    Appends (modifiedUnits n.modifier n.conversion) [n.arg t] ((n.number.text n.conversion.char).map t.ofChar) := by
  have hint : ∀ v : BitVec 32, v.setWidth 32 = v := fun v => BitVec.setWidth_eq v
  have hlonglong : ∀ v : BitVec 64, v.setWidth 64 = v := fun v => BitVec.setWidth_eq v
  cases n with
  | s32 v =>
    exact appends_of_bits v.toBitVec (congrArg (fun b => VaArg.int (Int32.ofBitVec b)) (hint _))
      (congrArg (fun b => Integer.s32 (Int32.ofBitVec b)) (hint _))
  | u32 v =>
    exact appends_of_bits v.toBitVec (congrArg (fun b => VaArg.int (Int32.ofBitVec b)) (hint _))
      (congrArg (fun b => Integer.u32 (UInt32.ofBitVec b)) (hint _))
  | s64 v =>
    exact appends_of_bits v.toBitVec (congrArg (fun b => VaArg.longlong (Int64.ofBitVec b)) (hlonglong _))
      (congrArg (fun b => Integer.s64 (Int64.ofBitVec b)) (hlonglong _))
  | u64 v =>
    exact appends_of_bits v.toBitVec (congrArg (fun b => VaArg.longlong (Int64.ofBitVec b)) (hlonglong _))
      (congrArg (fun b => Integer.u64 (UInt64.ofBitVec b)) (hlonglong _))

theorem printInteger_text (t : CharType) (n : Integer) :
    printInteger t n = .ok ((n.number.text n.conversion.char).map t.ofChar) := by
  rw [printInteger, CharType.literal, format_units, bind_of_ok (integer_appends t n).printf_eq]

/-- The canonical numeral is printed, but for the least values. -/
theorem printInteger_eq (t : CharType) (h : ¬ n.Least) : printInteger t n = .ok ((integerText n.value).map t.ofChar) := by
  have hsigned : n.signed = n.conversion.signed := by cases n <;> rfl
  have hcanonical : n.conversion.canonical n.value = integerText n.value := by cases n <;> rfl
  rw [printInteger_text, text_integer hsigned h, hcanonical]

end Writing

section Reading
variable {t : CharType} {V : ValueKind} {s : List UInt8} {buf : BitVec V.scanFormat.bits} {z : ℤ}

theorem map_narrow (t : CharType) (h : 0 ∉ s) : ((s.map t.ofChar).takeWhile (· ≠ 0)).map t.narrow = s := by
  have hall : (s.map t.ofChar).takeWhile (· ≠ 0) = s.map t.ofChar := by
    refine List.takeWhile_eq_self_iff.mpr fun u hu => decide_eq_true ?_
    obtain ⟨c, hc, rfl⟩ := List.mem_map.mp hu
    exact CharType.ofChar_eq_zero.not.mpr fun hzero => h (hzero ▸ hc)
  rw [hall, List.map_map]
  exact (List.map_congr_left fun c _ => t.narrow_ofChar c).trans (List.map_id s)

/-- A text without a null is narrowed to itself. -/
theorem lexical_cast_value_map (h : 0 ∉ s) :
    lexical_cast_value V (s.map t.ofChar) buf = (sscanf V.scanFormat s buf).map V.ofBuffer := by
  rw [lexical_cast_value]
  simp only [map_narrow t h]

theorem scan_integerText (z : ℤ) : scan decimalAlphabet 10 (integerText z) = some z := by
  have hdigit : ∀ d < 10, decimalAlphabet.digit (hextable.getD d 0) = some d := by decide
  have hother : ∀ d < 10, decimalAlphabet.blank (hextable.getD d 0) = false ∧
      hextable.getD d 0 ≠ decimalAlphabet.minus ∧ hextable.getD d 0 ≠ decimalAlphabet.plus := by decide
  have hminus : decimalAlphabet.blank decimalAlphabet.minus = false := by decide
  have hsign : signText (z < 0) = if z < 0 then [decimalAlphabet.minus] else [] := by
    rw [signText]
    simp only [decide_eq_true_eq]
    rfl
  rw [integerText, hsign]
  exact scan_integer (by decide) hdigit hother hminus z

theorem notMem_integerText (z : ℤ) : 0 ∉ integerText z := fun h => absurd (mem_integerText h) (by decide)

theorem sscanf_integerText (f : ScanFormat) (buf : BitVec f.bits) (h : f.Represents z) :
    sscanf f (integerText z) buf = some (BitVec.ofInt f.bits z) := by
  have htext : (integerText z).takeWhile (· ≠ 0) = integerText z :=
    List.takeWhile_eq_self_iff.mpr fun c hc => decide_eq_true fun hzero => notMem_integerText z (hzero ▸ hc)
  rw [sscanf, htext, scan_integerText]
  exact if_pos h

/-- A text that has no number leaves the target as it is. -/
theorem sscanf_none (f : ScanFormat) (buf : BitVec f.bits) (h : scan decimalAlphabet 10 (s.takeWhile (· ≠ 0)) = none) :
    sscanf f s buf = some buf := by
  rw [sscanf, h]

theorem setWidth_ofInt {m bits : ℕ} (h : m ≤ bits) (z : ℤ) : (BitVec.ofInt bits z).setWidth m = BitVec.ofInt m z := by
  have hdvd : ((2 ^ m : ℕ) : ℤ) ∣ (2 ^ bits : ℕ) := Int.natCast_dvd_natCast.mpr (Nat.pow_dvd_pow 2 h)
  have hnonneg : 0 ≤ z % (2 ^ bits : ℕ) := Int.emod_nonneg z (Int.natCast_ne_zero.mpr (Nat.two_pow_pos bits).ne')
  refine BitVec.eq_of_toInt_eq ?_
  rw [BitVec.toInt_setWidth, BitVec.toNat_ofInt, BitVec.toInt_ofInt, Int.toNat_of_nonneg hnonneg, Int.bmod_def, Int.bmod_def,
    Int.emod_emod_of_dvd z hdvd]

theorem ofInt_toNat {m : ℕ} (x : BitVec m) : BitVec.ofInt m x.toNat = x := by
  rw [BitVec.ofInt_natCast, BitVec.ofNat_toNat, BitVec.setWidth_eq]

end Reading

section RoundTrips
variable {t : CharType} {V : ValueKind} {n : Integer} {val : V.Value}

/-- A value that is printed as an integer in the range of the format is read back. -/
theorem roundTrips_integer (hwrite : lexical_cast_string t V val = printInteger t n) (hleast : ¬ n.Least)
    (hrange : V.scanFormat.Represents n.value) (hread : V.ofBuffer (BitVec.ofInt V.scanFormat.bits n.value) = val) :
    RoundTrips t V val := by
  refine ⟨_, hwrite.trans (printInteger_eq t hleast), fun buf => ?_⟩
  rw [lexical_cast_value_map (notMem_integerText n.value), sscanf_integerText V.scanFormat buf hrange]
  exact congrArg some hread

/-- A value whose text has no number is not read back from every target. -/
theorem roundTrips_fails {s : List UInt8} (hwrite : lexical_cast_string t V val = .ok (s.map t.ofChar))
    (hnull : 0 ∉ s) (hscan : scan decimalAlphabet 10 (s.takeWhile (· ≠ 0)) = none)
    (buf : BitVec V.scanFormat.bits) (hne : V.ofBuffer buf ≠ val) : ¬ RoundTrips t V val := by
  rintro ⟨src, hsrc, hread⟩
  obtain rfl := Except.ok.inj (hwrite.symm.trans hsrc)
  have hvalue := hread buf
  rw [lexical_cast_value_map hnull, sscanf_none V.scanFormat buf hscan] at hvalue
  exact hne (Option.some.inj hvalue)

theorem not_roundTrips_bool (t : CharType) (val : Bool) : ¬ RoundTrips t .bool val := by
  have hwrite : lexical_cast_string t .bool val = .ok ((chars (if val then "true" else "false")).map t.ofChar) :=
    congrArg Except.ok (assign_nil t.ofChar t.keeps _)
  cases val with
  | false => exact roundTrips_fails hwrite (by decide) (by decide) (1 : BitVec 32) (by decide)
  | true => exact roundTrips_fails hwrite (by decide) (by decide) (0 : BitVec 32) (by decide)

/-- The text of the least value has no digit behind its sign. -/
theorem roundTrips_s32 (t : CharType) (val : Int32) : RoundTrips t .s32 val ↔ val ≠ Int32.minValue := by
  constructor
  · rintro h rfl
    have hwrite : lexical_cast_string t .s32 Int32.minValue = .ok ((chars "-./,),(-*,(").map t.ofChar) :=
      printInteger_text t (.s32 Int32.minValue)
    exact roundTrips_fails hwrite (by decide) (by decide) (0 : BitVec 32) (by decide) h
  · intro hmin
    have hleast : ¬ (Integer.s32 val).Least := fun h => hmin (h.elim Integer.s32.inj nofun)
    exact roundTrips_integer rfl hleast ⟨val.le_toInt, val.toInt_lt⟩ (congrArg Int32.ofBitVec BitVec.ofInt_toInt)

theorem roundTrips_s64 (t : CharType) (val : Int64) : RoundTrips t .s64 val ↔ val ≠ Int64.minValue := by
  constructor
  · rintro h rfl
    have hwrite : lexical_cast_string t .s64 Int64.minValue = .ok ((chars "-'..--).0-*(+,))+(0(").map t.ofChar) :=
      printInteger_text t (.s64 Int64.minValue)
    exact roundTrips_fails hwrite (by decide) (by decide) (0 : BitVec 64) (by decide) h
  · intro hmin
    have hleast : ¬ (Integer.s64 val).Least := fun h => hmin (h.elim nofun Integer.s64.inj)
    exact roundTrips_integer rfl hleast ⟨val.le_toInt, val.toInt_lt⟩ (congrArg Int64.ofBitVec BitVec.ofInt_toInt)

theorem not_least_widened {w : Int32} {z : ℤ} (hvalue : w.toInt = z) (hz : -2 ^ 15 ≤ z) : ¬ (Integer.s32 w).Least := by
  rw [least_s32, hvalue]
  intro hmin
  omega

/-- A value is read back, if and only if it is no truth value and no least one of the types `s32` and `s64`. -/
theorem roundTrips_iff (t : CharType) (V : ValueKind) (val : V.Value) : RoundTrips t V val ↔ ¬ Excepted V val := by
  cases V with
  | bool => exact iff_of_false (not_roundTrips_bool t val) fun h => h trivial
  | s32 => exact roundTrips_s32 t val
  | s64 => exact roundTrips_s64 t val
  | c8 =>
    have hvalue : val.toInt32.toInt = val.toInt := Int8.toInt_toInt32 val
    have hlower := val.le_toInt
    have hupper := val.toInt_lt
    refine iff_of_true (roundTrips_integer (n := .s32 val.toInt32) rfl (not_least_widened hvalue (by omega)) ?_ ?_) id
    · rw [Integer.value, hvalue]
      exact ⟨by omega, by omega⟩
    · rw [Integer.value, hvalue]
      exact congrArg Int8.ofBitVec ((setWidth_ofInt (show 8 ≤ 32 by decide) _).trans BitVec.ofInt_toInt)
  | s16 =>
    have hvalue : val.toInt32.toInt = val.toInt := Int16.toInt_toInt32 val
    have hlower := val.le_toInt
    have hupper := val.toInt_lt
    refine iff_of_true (roundTrips_integer (n := .s32 val.toInt32) rfl (not_least_widened hvalue hlower) ?_ ?_) id
    · rw [Integer.value, hvalue]
      exact ⟨by omega, by omega⟩
    · rw [Integer.value, hvalue]
      exact congrArg Int16.ofBitVec ((setWidth_ofInt (show 16 ≤ 32 by decide) _).trans BitVec.ofInt_toInt)
  | u8 =>
    have hlt := val.toNat_lt
    refine iff_of_true (roundTrips_integer (n := .u32 val.toUInt32) rfl (not_least_unsigned rfl) ?_ ?_) id
    · change val.toNat < 2 ^ 32
      omega
    · exact congrArg UInt8.ofBitVec ((setWidth_ofInt (show 8 ≤ 32 by decide) _).trans (ofInt_toNat val.toBitVec))
  | u16 =>
    have hlt := val.toNat_lt
    refine iff_of_true (roundTrips_integer (n := .u32 val.toUInt32) rfl (not_least_unsigned rfl) ?_ ?_) id
    · change val.toNat < 2 ^ 32
      omega
    · exact congrArg UInt16.ofBitVec ((setWidth_ofInt (show 16 ≤ 32 by decide) _).trans (ofInt_toNat val.toBitVec))
  | u32 =>
    exact iff_of_true (roundTrips_integer (n := .u32 val) rfl (not_least_unsigned rfl) val.toNat_lt
      (congrArg UInt32.ofBitVec (ofInt_toNat val.toBitVec))) id
  | u64 =>
    exact iff_of_true (roundTrips_integer (n := .u64 val) rfl (not_least_unsigned rfl) val.toNat_lt
      (congrArg UInt64.ofBitVec (ofInt_toNat val.toBitVec))) id

/-- A truth value is written as a word, and the least value of `s32` as a text that has no digit behind its sign. -/
theorem not_roundTrips :
    ¬ RoundTrips .c8 .bool true ∧ ¬ RoundTrips .c8 .s32 Int32.minValue := by
  constructor
  · rintro ⟨src, hsrc, hread⟩
    obtain rfl := Except.ok.inj hsrc
    exact absurd (hread (0 : BitVec 32)) (by decide)
  · rintro ⟨src, hsrc, hread⟩
    obtain rfl := Except.ok.inj ((printInteger_text .c8 (.s32 Int32.minValue)).symm.trans hsrc)
    exact absurd (hread (0 : BitVec 32)) (by decide)

end RoundTrips
end LibXpf.Xpfstring
