import LibXpf.Platform
import Mathlib.Data.List.Basic

/-! # Numbers as strings

The class `xpfstring` is generic in its character type. Its constructors write a number
into a buffer of `c8` and assign the buffer to the string. `printf` uses them, and writes
hexadecimal and octal digits itself.
-/
namespace LibXpf.Xpfstring

section Characters

/-- The size of `wchar_t` in bytes. -/
inductive WcharLen where
  | two
  | four
  deriving DecidableEq

inductive CharType where
  | c8
  | u16
  | u32
  | wchar_t (len : WcharLen)
  deriving DecidableEq

def CharType.bits : CharType → ℕ
  | .c8 => 8
  | .u16 => 16
  | .u32 => 32
  | .wchar_t .two => 16
  | .wchar_t .four => 32

/-- The values of the type, by their bits. -/
abbrev CharType.ValueType (t : CharType) : Type := BitVec t.bits

/-- A `char` as a character of the type, which extends its sign. -/
def CharType.ofChar (t : CharType) (c : UInt8) : t.ValueType := c.toBitVec.signExtend t.bits

/-- An `int` as a character of the type. -/
def CharType.ofInt (t : CharType) (v : Int32) : t.ValueType := v.toBitVec.setWidth t.bits

/-- A character of the type as a `char`. -/
def CharType.narrow (t : CharType) (u : t.ValueType) : UInt8 := UInt8.ofBitVec (u.setWidth 8)

/-- The assignment of a text of `c8`, which appends to what the string holds, or replaces it. -/
def assign {α : Type} (ch : UInt8 → α) (keeps : Bool) (str : List α) (c : List UInt8) : List α :=
  if keeps then str ++ c.map ch else c.map ch

@[simp] theorem assign_nil {α : Type} (ch : UInt8 → α) (keeps : Bool) (c : List UInt8) :
    assign ch keeps [] c = c.map ch := by
  rw [assign, List.nil_append, ite_self]

/-- For `c8` the assignment is the one of the base class. Every other type takes the template, which appends. -/
def CharType.keeps (t : CharType) : Bool := t ≠ .c8

def CharType.upper (t : CharType) (ch : t.ValueType) : t.ValueType :=
  let ch8 := t.narrow ch
  if ascii 'a' ≤ ch8 ∧ ch8 ≤ ascii 'z' then t.ofChar (ch8 - 32) else ch

def CharType.make_upper (t : CharType) (str : List t.ValueType) : List t.ValueType := str.map t.upper

theorem CharType.bits_ge (t : CharType) : 8 ≤ t.bits := by
  rcases t with _ | _ | _ | (_ | _) <;> decide

@[simp] theorem CharType.narrow_ofChar (t : CharType) (c : UInt8) : t.narrow (t.ofChar c) = c := by
  have hbits := t.bits_ge
  have hvec : (c.toBitVec.signExtend t.bits).setWidth 8 = c.toBitVec := by
    refine BitVec.eq_of_getLsbD_eq fun i hi => ?_
    rw [BitVec.getLsbD_setWidth, BitVec.getLsbD_signExtend, decide_eq_true hi, decide_eq_true (by omega), if_pos hi,
      Bool.true_and, Bool.true_and]
  rw [narrow, ofChar, hvec]

theorem CharType.ofChar_injective (t : CharType) : Function.Injective t.ofChar :=
  Function.LeftInverse.injective t.narrow_ofChar

@[simp] theorem CharType.ofChar_inj {t : CharType} {c d : UInt8} : t.ofChar c = t.ofChar d ↔ c = d :=
  t.ofChar_injective.eq_iff

@[simp] theorem CharType.ofChar_zero (t : CharType) : t.ofChar 0 = 0 := by
  rcases t with _ | _ | _ | (_ | _) <;> decide

@[simp] theorem CharType.ofChar_eq_zero {t : CharType} {c : UInt8} : t.ofChar c = 0 ↔ c = 0 := by
  rw [← t.ofChar_zero, ofChar_inj]

theorem CharType.ofChar_c8 (u : CharType.c8.ValueType) : CharType.c8.ofChar (CharType.c8.narrow u) = u := by
  refine BitVec.eq_of_getLsbD_eq fun i hi => ?_
  have hi' : i < 8 := hi
  rw [ofChar, narrow, BitVec.getLsbD_signExtend, decide_eq_true hi, if_pos hi', Bool.true_and]
  exact (BitVec.getLsbD_setWidth ..).trans (by rw [decide_eq_true hi', Bool.true_and])

end Characters

/-- Why `printf` does not return. -/
inductive Trap where
  | diverges
  /-- The format is read outside of its buffer, or the pointer into it leaves the buffer. -/
  | formatBounds
  /-- An argument is missing, or not of the type it is taken for. -/
  | argument
  /-- A string argument is read outside of its buffer. -/
  | stringBounds
  /-- A number does not fit into the buffer it is written to. -/
  | bufferBounds
  /-- A string would be too long, so its class throws. -/
  | lengthError
  deriving DecidableEq

section Decimals
variable (t : CharType)

/-- The loop `while (val && idx)`, which fills `tmpbuf` from its end. -/
def fillDigits : (idx : ℕ) → (val : ℤ) → (tmpbuf : List UInt8) → ℕ × List UInt8
  | 0, _, tmpbuf => (0, tmpbuf)
  | idx + 1, val, tmpbuf =>
    if val = 0 then (idx + 1, tmpbuf)
    else fillDigits idx (val.tdiv 10) (tmpbuf.set idx (UInt8.ofInt (48 + val.tmod 10)))

/-- The text in a buffer from an index on. -/
def textAt (tmpbuf : List UInt8) (idx : ℕ) : List UInt8 := (tmpbuf.drop idx).takeWhile (· ≠ 0)

/-- The constructors for integers differ in the size of `tmpbuf`, and the signed ones note the sign and
negate the value first. -/
def ofDecimal (size : ℕ) (negative : Bool) (val : ℤ) : Except Trap (List t.ValueType) :=
  let tmpbuf := List.replicate size 0
  if val = 0 then .ok (assign t.ofChar t.keeps [] (textAt (tmpbuf.set (size - 2) (ascii '0')) (size - 2)))
  else
    let (idx, tmpbuf) := fillDigits (size - 1) val tmpbuf
    if negative then
      if idx = 0 then .error .bufferBounds
      else .ok (assign t.ofChar t.keeps [] (textAt (tmpbuf.set (idx - 1) (ascii '-')) (idx - 1)))
    else .ok (assign t.ofChar t.keeps [] (textAt tmpbuf idx))

def ofS32 (val : Int32) : Except Trap (List t.ValueType) :=
  if val < 0 then ofDecimal t 16 true (0 - val).toInt else ofDecimal t 16 false val.toInt

def ofU32 (val : UInt32) : Except Trap (List t.ValueType) := ofDecimal t 16 false val.toNat

def ofS64 (val : Int64) : Except Trap (List t.ValueType) :=
  if val < 0 then ofDecimal t 32 true (0 - val).toInt else ofDecimal t 32 false val.toInt

def ofU64 (val : UInt64) : Except Trap (List t.ValueType) := ofDecimal t 32 false val.toNat

end Decimals

section Floats

/-- A double: a finite one is `mantissa * 2 ^ exponent` with its sign. -/
inductive F64 where
  | finite (negative : Bool) (mantissa : ℕ) (exponent : ℤ)
      (range : mantissa < 2 ^ 53 ∧ -1074 ≤ exponent ∧ exponent ≤ 971)
  | infinite (negative : Bool)
  | nan (negative : Bool)

/-- The natural number that is closest to a quotient, and of two the even one. -/
def roundedDiv (n d : ℕ) : ℕ :=
  if 2 * (n % d) < d ∨ 2 * (n % d) = d ∧ n / d % 2 = 0 then n / d else n / d + 1

/-- The absolute value in millionths. -/
def millionths (mantissa : ℕ) : (exponent : ℤ) → ℕ
  | .ofNat e => mantissa * 2 ^ e * 10 ^ 6
  | .negSucc e => roundedDiv (mantissa * 10 ^ 6) (2 ^ (e + 1))

def decimalDigits (n : ℕ) : List UInt8 := (Nat.toDigits 10 n).map ascii

def signText (negative : Bool) : List UInt8 := if negative then chars "-" else []

/-- What `sprintf` prints for the format `%0.6f`. -/
def F64.sprintf : F64 → List UInt8
  | .finite negative mantissa exponent _ =>
    let n := millionths mantissa exponent
    signText negative ++ decimalDigits (n / 10 ^ 6) ++ chars "." ++ (decimalDigits (n % 10 ^ 6)).leftpad 6 (ascii '0')
  | .infinite negative => signText negative ++ chars "inf"
  | .nan negative => signText negative ++ chars "nan"

def ofF64 (t : CharType) (val : F64) : Except Trap (List t.ValueType) :=
  if val.sprintf.length < 128 then .ok (assign t.ofChar t.keeps [] val.sprintf) else .error .bufferBounds

end Floats

section Numbers
variable (t : CharType)

def hextable : List UInt8 := chars "0123456789abcdef"

/-- One round of the loops over the digits, which leave out zeros at the front. -/
def appendDigit (found : Bool × List t.ValueType) (digit : t.ValueType) : Bool × List t.ValueType :=
  if found.1 = true ∧ digit = t.ofChar (ascii '0') then found else (false, found.2 ++ [digit])

/-- The `count` digits of `bits` bits each of a value of `total` bits, which is `0` if there is no other. -/
def ofRadix (total bits count v : ℕ) : List t.ValueType :=
  let digits := (List.range count).map fun i =>
    t.ofChar (hextable.getD ((v >>> (total - bits * (i + 1))) &&& (2 ^ bits - 1)) 0)
  let valstr := (digits.foldl (appendDigit t) (true, [])).2
  if valstr = [] then [t.ofChar (ascii '0')] else valstr

/-- A number that `printf` has taken from its arguments. -/
inductive Number where
  | s32 (v : Int32)
  | u32 (v : UInt32)
  | s64 (v : Int64)
  | u64 (v : UInt64)
  | f64 (v : F64)

def isSigned (c : UInt8) : Prop := c = ascii 'd' ∨ c = ascii 'i'

def isHex (c : UInt8) : Prop := c = ascii 'x' ∨ c = ascii 'X'

def isOct (c : UInt8) : Prop := c = ascii 'o'

def isFloat (c : UInt8) : Prop := c = ascii 'f'

instance (c : UInt8) : Decidable (isSigned c) := inferInstanceAs (Decidable (_ ∨ _))

instance (c : UInt8) : Decidable (isHex c) := inferInstanceAs (Decidable (_ ∨ _))

instance (c : UInt8) : Decidable (isOct c) := inferInstanceAs (Decidable (_ = _))

instance (c : UInt8) : Decidable (isFloat c) := inferInstanceAs (Decidable (_ = _))

def hexText (total count : ℕ) (c : UInt8) (v : ℕ) : List t.ValueType :=
  if c = ascii 'X' then t.make_upper (ofRadix t total 4 count v) else ofRadix t total 4 count v

/-- The string `valstr` of a number for the specifier `c`. -/
def Number.valstr (c : UInt8) : Number → Except Trap (List t.ValueType)
  | .s32 v => ofS32 t v
  | .u32 v =>
    if isHex c then .ok (hexText t 32 8 c v.toNat)
    else if isOct c then .ok (ofRadix t 33 3 11 v.toNat)
    else ofU32 t v
  | .s64 v => ofS64 t v
  | .u64 v =>
    if isHex c then .ok (hexText t 64 16 c v.toNat)
    else if isOct c then .ok (ofRadix t 66 3 22 v.toNat)
    else ofU64 t v
  | .f64 v => ofF64 t v

end Numbers
end LibXpf.Xpfstring
