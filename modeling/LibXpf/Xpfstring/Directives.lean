import LibXpf.Xpfstring.CanonicalNumerals
import LibXpf.Xpfstring.Layouts
import LibXpf.Xpfstring.Scanning

/-! # Directives for integers

A directive without a length modifier has flags, a width, a percision and a conversion.
The scanner brings them to the layout.
-/
namespace LibXpf.Xpfstring
open Buffers StepLoops PositionalDigits

section Directives

inductive FlagChar where
  | minus
  | plus
  | space
  | hash
  | zero
  deriving DecidableEq

def FlagChar.char : FlagChar → UInt8
  | .minus => ascii '-'
  | .plus => ascii '+'
  | .space => ascii ' '
  | .hash => ascii '#'
  | .zero => ascii '0'

inductive Conversion where
  | d
  | i
  | u
  | x
  | X
  | o
  deriving DecidableEq

def Conversion.char : Conversion → UInt8
  | .d => ascii 'd'
  | .i => ascii 'i'
  | .u => ascii 'u'
  | .x => ascii 'x'
  | .X => ascii 'X'
  | .o => ascii 'o'

/-- The value of some decimal digits. -/
def digitsValue (n : ℕ) (ds : List ℕ) : ℕ := ds.foldl (fun n d => n * 10 + d) n

/-- A width has no zero at its front, which would be a flag. -/
inductive Width where
  | absent
  | literal (n : ℕ) (range : 0 < n ∧ n < 2 ^ 31)
  | star (v : Int32)

/-- A percision may have zeros at its front, or no digit at all. -/
inductive Percision where
  | absent
  | literal (ds : List ℕ) (digits : ∀ d ∈ ds, d < 10) (range : digitsValue 0 ds < 2 ^ 31)
  | star (v : Int32)

def Width.value : Width → Option ℤ
  | .absent => none
  | .literal n _ => some n
  | .star v => some v.toInt

def Percision.value : Percision → Option ℤ
  | .absent => none
  | .literal ds _ _ => some (digitsValue 0 ds)
  | .star v => some v.toInt

structure Directive where
  flags : List FlagChar
  width : Width
  percision : Percision
  conversion : Conversion

def Width.units : Width → List UInt8
  | .absent => []
  | .literal n _ => numeralText 10 n
  | .star _ => chars "*"

def Percision.units : Percision → List UInt8
  | .absent => []
  | .literal ds _ _ => ascii '.' :: digitText ds
  | .star _ => chars ".*"

/-- The characters of a directive. -/
def Directive.units (d : Directive) : List UInt8 :=
  ascii '%' :: d.flags.map FlagChar.char ++ d.width.units ++ d.percision.units ++ [d.conversion.char]

def Width.stars : Width → List Int32
  | .star v => [v]
  | _ => []

def Percision.stars : Percision → List Int32
  | .star v => [v]
  | _ => []

/-- The arguments of a directive with a value. -/
def Directive.args (t : CharType) (d : Directive) (v : Int32) : List (VaArg t) :=
  (d.width.stars ++ d.percision.stars ++ [v]).map VaArg.int

end Directives

section Marks

def FlagChar.mark (flag : Flags) : FlagChar → Flags
  | .minus => { flag with LEFTJUSTIFY := true }
  | .plus => { flag with FORCESIGN := true, BLANKSIGN := false }
  | .space => { flag with BLANKSIGN := true, FORCESIGN := false }
  | .hash => { flag with PREFIXSUFFIX := true }
  | .zero => { flag with LEFTPADZERO := true }

def Width.mark (flag : Flags) : Width → Flags
  | .absent => flag
  | .literal _ _ => { flag with WIDTH_SPECIFIED := true }
  | .star _ => { flag with WIDTH_SPECIFIED := true, WIDTH_PARAM := true }

def Percision.mark (flag : Flags) : Percision → Flags
  | .absent => flag
  | .literal _ _ _ => { flag with PERCISION_SPECIFIED := true }
  | .star _ => { flag with PERCISION_SPECIFIED := true, PERCISION_PARAM := true }

/-- The bits that the scanner sets for a directive. -/
def Directive.flag (d : Directive) : Flags :=
  d.percision.mark (d.width.mark (d.flags.foldl FlagChar.mark Flags.zero))

/-- The width as the scanner leaves it. -/
def Width.scanned : Width → Int32
  | .literal n _ => Int32.ofNat n
  | _ => 0

def Percision.scanned : Percision → Int32
  | .literal ds _ _ => Int32.ofNat (digitsValue 0 ds)
  | _ => 0

theorem mark_char (flag : Flags) (f : FlagChar) : flag.mark f.char = some (f.mark flag) := by cases f <;> rfl

theorem addDigit_eq {n d : ℕ} (hd : d < 10) (hn : n < 2 ^ 31) :
    addDigit (Int32.ofNat n) (hextable.getD d 0) = Int32.ofNat (n * 10 + d) := by
  have hdigit : ∀ d < 10, promote (hextable.getD d 0 - ascii '0') = Int32.ofNat d := by decide
  have hnonneg : ¬ Int32.ofNat n < 0 := by
    rw [Int32.lt_iff_toInt_lt, Int32.toInt_ofNat_of_lt hn, Int32.toInt_zero]
    omega
  rw [addDigit, if_neg hnonneg, hdigit d hd, Int32.ofNat_add, Int32.ofNat_mul]
  rfl

theorem le_digitsValue (n : ℕ) (ds : List ℕ) : n ≤ digitsValue n ds := by
  induction ds generalizing n with
  | nil => exact le_rfl
  | cons d ds ih =>
    have hle := ih (n * 10 + d)
    rw [digitsValue, List.foldl_cons]
    change n ≤ digitsValue (n * 10 + d) ds
    omega

/-- The digits of a number are added up without overflow. -/
theorem addDigits_eq {n : ℕ} {ds : List ℕ} (hds : ∀ d ∈ ds, d < 10) (hlt : digitsValue n ds < 2 ^ 31) :
    (digitText ds).foldl addDigit (Int32.ofNat n) = Int32.ofNat (digitsValue n ds) := by
  induction ds generalizing n with
  | nil => rfl
  | cons d ds ih =>
    rw [List.forall_mem_cons] at hds
    have hle := le_digitsValue n (d :: ds)
    rw [digitText, List.map_cons, List.foldl_cons, addDigit_eq hds.1 (hle.trans_lt hlt)]
    exact ih hds.2 hlt

theorem digitsValue_numeral (n : ℕ) : digitsValue 0 (numeral 10 n) = n := by
  by_cases h : n = 0
  · rw [h, numeral_zero]
    rfl
  · have hvalue : (Nat.digits 10 n).foldr (fun d n => n * 10 + d) 0 = Nat.ofDigits 10 (Nat.digits 10 n) := by
      rw [Nat.ofDigits_eq_foldr]
      congr 1
      funext d n
      rw [Nat.cast_id, mul_comm, add_comm]
    rw [digitsValue, numeral_pos h, List.foldl_reverse, hvalue, Nat.ofDigits_digits]

end Marks
end LibXpf.Xpfstring
