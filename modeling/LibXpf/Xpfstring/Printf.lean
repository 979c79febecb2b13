import LibXpf.Foundation.Buffers
import LibXpf.Foundation.StepLoops
import LibXpf.Xpfstring.Numerals

/-! # The function `printf`

The format is scanned by a state machine that looks at one character at a time, as a
`char`. A state that cannot use the character moves the pointer back, so that the next
state looks at it again. The arguments of a specification are taken at its end.
-/
namespace LibXpf.Xpfstring
open Buffers StepLoops

/-- The bits of `flag`. -/
structure Flags where
  LEFTJUSTIFY : Bool
  FORCESIGN : Bool
  BLANKSIGN : Bool
  PREFIXSUFFIX : Bool
  LEFTPADZERO : Bool
  WIDTH_SPECIFIED : Bool
  WIDTH_PARAM : Bool
  PERCISION_SPECIFIED : Bool
  PERCISION_PARAM : Bool
  FMT_LONG : Bool
  FMT_LONGLONG : Bool
  FMT_HALF : Bool
  FMT_HALFHALF : Bool
  deriving DecidableEq

def Flags.zero : Flags :=
  ⟨false, false, false, false, false, false, false, false, false, false, false, false, false⟩

/-- The flags that the specifier `p` sets, on a host with pointers of 64 bits. -/
def Flags.pointer (flag : Flags) : Flags :=
  { Flags.zero with
    WIDTH_SPECIFIED := flag.WIDTH_SPECIFIED
    WIDTH_PARAM := flag.WIDTH_PARAM
    PERCISION_SPECIFIED := true
    PERCISION_PARAM := flag.PERCISION_PARAM
    PREFIXSUFFIX := true
    FMT_LONGLONG := true }

/-- The bits for a flag character. -/
def Flags.mark (flag : Flags) (c : UInt8) : Option Flags :=
  if c = ascii '-' then some { flag with LEFTJUSTIFY := true }
  else if c = ascii '+' then some { flag with FORCESIGN := true, BLANKSIGN := false }
  else if c = ascii ' ' then some { flag with BLANKSIGN := true, FORCESIGN := false }
  else if c = ascii '#' then some { flag with PREFIXSUFFIX := true }
  else if c = ascii '0' then some { flag with LEFTPADZERO := true }
  else none

section Arguments

/-- An argument of `printf`. A pointer is passed like an unsigned value of 64 bits. -/
inductive VaArg (t : CharType) where
  | int (v : Int32)
  | longlong (v : Int64)
  | double (v : F64)
  /-- The characters that can be read at the address that is passed. -/
  | string (buf : List t.ValueType)

variable {t : CharType}

def takeInt : List (VaArg t) → Except Trap (Int32 × List (VaArg t))
  | .int v :: ap => .ok (v, ap)
  | _ => .error .argument

def takeLongLong : List (VaArg t) → Except Trap (Int64 × List (VaArg t))
  | .longlong v :: ap => .ok (v, ap)
  | _ => .error .argument

def takeDouble : List (VaArg t) → Except Trap (F64 × List (VaArg t))
  | .double v :: ap => .ok (v, ap)
  | _ => .error .argument

def takeString : List (VaArg t) → Except Trap (List t.ValueType × List (VaArg t))
  | .string buf :: ap => .ok (buf, ap)
  | _ => .error .argument

/-- A value shrunk to the width of the sub-specifier. -/
def shrink (flag : Flags) (v : Int32) : Int32 :=
  if flag.FMT_HALF then v &&& 0xFFFF else if flag.FMT_HALFHALF then v &&& 0xFF else v

/-- The number for the specifier `c`. -/
def takeNumber (flag : Flags) (c : UInt8) (ap : List (VaArg t)) : Except Trap (Number × List (VaArg t)) :=
  if flag.FMT_LONGLONG then do
    let (v, ap) ← takeLongLong ap
    .ok (if isSigned c then .s64 v else .u64 v.toUInt64, ap)
  else if isFloat c then do
    let (v, ap) ← takeDouble ap
    .ok (.f64 v, ap)
  else do
    let (v, ap) ← takeInt ap
    .ok (if isSigned c then .s32 (shrink flag v) else .u32 (shrink flag v).toUInt32, ap)

end Arguments

section Layout

/- The layout looks at characters only through the values `ch` of those of `c8`. Whether an assignment of
a text of `c8` keeps what a string holds depends on the type as well. -/
variable {α : Type} [DecidableEq α] (ch : UInt8 → α) (keeps : Bool)

/-- The string consists of the single character `0`. -/
def isZero (valstr : List α) : Prop := valstr.getD 0 (ch 0) = ch (ascii '0') ∧ valstr.getD 1 (ch 0) = ch 0

instance (valstr : List α) : Decidable (isZero ch valstr) := inferInstanceAs (Decidable (_ ∧ _))

/-- The case without width and percision. -/
def plainLayout (flag : Flags) (c : UInt8) (neg : Bool) (valstr : List α) : List α :=
  let sign :=
    if isSigned c ∨ isFloat c then
      (if flag.FORCESIGN ∧ ¬ neg then [ch (ascii '+')] else []) ++
        if flag.BLANKSIGN ∧ ¬ neg then [ch (ascii ' ')] else []
    else []
  let valstr' :=
    if isFloat c ∧ flag.PREFIXSUFFIX ∧ ch (ascii '.') ∉ valstr then valstr ++ [ch (ascii '.')] else valstr
  let base :=
    if (isHex c ∨ isOct c) ∧ flag.PREFIXSUFFIX ∧ ¬ isZero ch valstr then
      ch (ascii '0') :: if c ≠ ascii 'o' then [ch c] else []
    else []
  sign ++ base ++ valstr'

def prefixText (flag : Flags) (c : UInt8) (neg : Bool) : List α :=
  if isSigned c ∨ isFloat c then
    if neg then assign ch keeps [] (chars "-")
    else if flag.FORCESIGN then assign ch keeps [] (chars "+")
    else if flag.BLANKSIGN then assign ch keeps [] (chars " ")
    else []
  else if (isHex c ∨ isOct c) ∧ flag.PREFIXSUFFIX then
    assign ch keeps [] (chars "0") ++ if isHex c then [ch c] else []
  else []

def dropSign (neg : Bool) (valstr : List α) : List α := if neg then valstr.drop 1 else valstr

/-- The characters that are missing to a width, where the size is converted to an `int` and the difference is one. -/
def fillCount (width : ℤ) (size : ℕ) : ℤ := if width > s32 size then s32 (width - s32 size) else 0

/-- The first characters of a string; the count is converted to an unsigned type. -/
def substr (str : List α) (len : ℤ) : List α := if len < 0 then str else str.take len.toNat

/-- The digits of a float are cut or filled up. -/
def floatPercision (flag : Flags) (percision : ℤ) (valstr : List α) : List α :=
  let point := ch (ascii '.')
  let idx := valstr.idxOf point
  if point ∉ valstr then
    if percision > 0 ∨ flag.PREFIXSUFFIX then
      valstr ++ [point] ++ List.replicate percision.toNat (ch (ascii '0'))
    else valstr
  else
    let restcnt := s32 (s32 valstr.length - s32 idx - 1)
    if restcnt > percision then
      if percision = 0 ∧ ¬ flag.PREFIXSUFFIX then substr valstr (s32 idx)
      else substr valstr (s32 (s32 idx + percision + 1))
    else valstr ++ List.replicate (s32 (percision - restcnt)).toNat (ch (ascii '0'))

/-- The string after the block that applies the percision. -/
def percisionText (flag : Flags) (percision : ℤ) (c : UInt8) (neg : Bool) (valstr : List α) : List α :=
  let pre := prefixText ch keeps flag c neg
  if ¬ isFloat c ∧ percision = 0 ∧ isZero ch valstr then
    let valstr := assign ch keeps valstr []
    if isSigned c then
      if flag.FORCESIGN then assign ch keeps valstr (chars "+")
      else if flag.BLANKSIGN then assign ch keeps valstr (chars " ")
      else valstr
    else valstr
  else
    let valstr := dropSign neg valstr
    if isFloat c then pre ++ floatPercision ch flag percision valstr
    else pre ++ List.replicate (fillCount percision valstr.length).toNat (ch (ascii '0')) ++ valstr

/-- The text that is appended for a number. -/
def layout (flag : Flags) (width percision : ℤ) (c : UInt8) (valstr : List α) : List α :=
  let neg : Bool := valstr.getD 0 (ch 0) = ch (ascii '-')
  let blanks (n : ℤ) := List.replicate n.toNat (ch (ascii ' '))
  if ¬ flag.WIDTH_SPECIFIED ∧ ¬ flag.PERCISION_SPECIFIED then plainLayout ch flag c neg valstr
  else if flag.PERCISION_SPECIFIED then
    let valstr := percisionText ch keeps flag percision c neg valstr
    let cnt := fillCount width valstr.length
    if flag.LEFTJUSTIFY then valstr ++ blanks cnt else blanks cnt ++ valstr
  else
    let pre := prefixText ch keeps flag c neg
    let valstr := dropSign neg valstr
    let padlen := fillCount width (pre.length + valstr.length)
    if flag.LEFTJUSTIFY then pre ++ valstr ++ blanks padlen
    -- The zeros stand behind the prefix.
    else if flag.LEFTPADZERO then pre ++ List.replicate padlen.toNat (ch (ascii '0')) ++ valstr
    else blanks padlen ++ pre ++ valstr

end Layout

section Strings
variable {t : CharType}

/-- The loop that counts the characters of a string, up to the percision if there is one. -/
def countUnits (flag : Flags) (percision : ℤ) : List t.ValueType → (cnt : Int32) → Except Trap ℤ
  | [], _ => .error .stringBounds
  | u :: rest, cnt =>
    if u = 0 then .ok cnt.toInt
    else if flag.PERCISION_SPECIFIED ∧ cnt.toInt ≥ percision then .ok percision
    else countUnits flag percision rest (cnt + 1)

/-- The characters of an address that are appended; the count is converted to an unsigned type. -/
def appended (buf : List t.ValueType) (cnt : ℤ) : Except Trap (List t.ValueType) :=
  if cnt < 0 then .error .lengthError else .ok (buf.take cnt.toNat)

def stringText (flag : Flags) (width percision : ℤ) (buf : List t.ValueType) : Except Trap (List t.ValueType) :=
  if ¬ flag.WIDTH_SPECIFIED ∧ ¬ flag.PERCISION_SPECIFIED then do
    let cnt ← countUnits flag percision buf 0
    if cnt > 0 then appended buf cnt else .ok []
  else do
    let cnt ← countUnits flag percision buf 0
    let text ← appended buf cnt
    let pad := if flag.WIDTH_SPECIFIED then List.replicate (width - cnt).toNat (t.ofChar (ascii ' ')) else []
    .ok (if flag.LEFTJUSTIFY then text ++ pad else pad ++ text)

/-- The text of a character, which is never a null. -/
def charText (t : CharType) (flag : Flags) (width : ℤ) (v : Int32) : List t.ValueType :=
  let pad := List.replicate (width - 1).toNat (t.ofChar (ascii ' '))
  let text := if v ≠ 0 then [t.ofInt v] else []
  if flag.LEFTJUSTIFY then text ++ pad else pad ++ text

end Strings

section Machine
variable {t : CharType}

inductive ParseState where
  | ST_TEXT
  | ST_FLAGS
  | ST_WIDTH
  | ST_PERCISION
  | ST_SUBSPEC
  | ST_SPEC
  deriving DecidableEq

/-- The local variables, and the string itself. -/
structure Machine (t : CharType) where
  p : ℕ
  state : ParseState
  width : Int32
  percision : Int32
  flag : Flags
  ap : List (VaArg t)
  str : List t.ValueType

/-- `p--; state = ...`. -/
def Machine.back (m : Machine t) (state : ParseState) : Except Trap (Machine t) :=
  if m.p = 0 then .error .formatBounds else .ok { m with p := m.p - 1, state := state }

/-- A parameter that is taken from the arguments if it was given as a star. -/
def param (star : Bool) (n : Int32) (ap : List (VaArg t)) : Except Trap (Int32 × List (VaArg t)) :=
  if star then takeInt ap else .ok (n, ap)

/-- The macro `_READ_PARAMS`. -/
def Machine.readParams (m : Machine t) : Except Trap (Machine t) := do
  let (width, ap) ← param m.flag.WIDTH_PARAM m.width m.ap
  let (percision, ap) ← param m.flag.PERCISION_PARAM m.percision ap
  .ok { m with width := width, percision := percision, ap := ap }

/-- The end of a specification. -/
def Machine.finish (m : Machine t) (ap : List (VaArg t)) (text : List t.ValueType) : Machine t :=
  { m with state := .ST_TEXT, ap := ap, str := m.str ++ text }

/-- The specifiers of numbers, where `c` is the one that the code goes on with. -/
def Machine.number (m : Machine t) (c : UInt8) : Except Trap (Machine t) := do
  let m ← m.readParams
  let (number, ap) ← takeNumber m.flag c m.ap
  let valstr ← number.valstr t c
  .ok (m.finish ap (layout t.ofChar t.keeps m.flag m.width.toInt m.percision.toInt c valstr))

/-- The specifier `p` goes on as `x`. -/
def Machine.pointer (m : Machine t) : Machine t :=
  { m with flag := m.flag.pointer, percision := if m.percision < 16 then 16 else m.percision }

def isDigit (c : UInt8) : Prop := ascii '0' ≤ c ∧ c ≤ ascii '9'

instance (c : UInt8) : Decidable (isDigit c) := inferInstanceAs (Decidable (_ ∧ _))

/-- A digit more at the end of a number, which starts at zero again if it is negative. -/
def addDigit (n : Int32) (c : UInt8) : Int32 := (if n < 0 then 0 else n) * 10 + promote (c - ascii '0')

def Machine.flags (m : Machine t) (c : UInt8) : Except Trap (Machine t) :=
  match m.flag.mark c with
  | some flag => .ok { m with flag := flag }
  | none => m.back .ST_WIDTH

def Machine.widths (m : Machine t) (c : UInt8) : Except Trap (Machine t) :=
  if isDigit c then
    .ok { m with flag := { m.flag with WIDTH_SPECIFIED := true }, width := addDigit m.width c }
  else if c = ascii '*' then
    .ok { m with flag := { m.flag with WIDTH_SPECIFIED := true, WIDTH_PARAM := true } }
  else if c = ascii '.' then
    .ok { m with flag := { m.flag with PERCISION_SPECIFIED := true }, state := .ST_PERCISION }
  else m.back .ST_SUBSPEC

def Machine.percisions (m : Machine t) (c : UInt8) : Except Trap (Machine t) :=
  if isDigit c then .ok { m with percision := addDigit m.percision c }
  else if c = ascii '*' then .ok { m with flag := { m.flag with PERCISION_PARAM := true } }
  else m.back .ST_SUBSPEC

def Machine.subspec (format : List t.ValueType) (m : Machine t) (c : UInt8) : Except Trap (Machine t) :=
  if c = ascii 'l' then do
    let next ← read .formatBounds format (m.p + 1)
    if next = t.ofChar (ascii 'l') then .ok { m with flag := { m.flag with FMT_LONGLONG := true }, p := m.p + 1 }
    else .ok { m with flag := { m.flag with FMT_LONG := true } }
  else if c = ascii 'h' then do
    let next ← read .formatBounds format (m.p + 1)
    if next = t.ofChar (ascii 'h') then .ok { m with flag := { m.flag with FMT_HALFHALF := true }, p := m.p + 1 }
    else .ok { m with flag := { m.flag with FMT_HALF := true } }
  else if c = ascii 'j' ∨ c = ascii 'z' ∨ c = ascii 't' ∨ c = ascii 'L' then .ok m
  else m.back .ST_SPEC

def Machine.spec (m : Machine t) (c : UInt8) : Except Trap (Machine t) :=
  if c = ascii 'c' then do
    let m ← m.readParams
    let (v, ap) ← takeInt m.ap
    .ok (m.finish ap (charText t m.flag m.width.toInt v))
  else if c = ascii '%' then do
    let m ← m.readParams
    .ok (m.finish m.ap [t.ofChar (ascii '%')])
  else if c = ascii 'p' then m.pointer.number (ascii 'x')
  else if c ∈ chars "FgGeEAa" then m.number (ascii 'f')
  else if c ∈ chars "fxXodiu" then m.number c
  else if c = ascii 's' then do
    let m ← m.readParams
    let (buf, ap) ← takeString m.ap
    let text ← stringText m.flag m.width.toInt m.percision.toInt buf
    .ok (m.finish ap text)
  else .ok { m with state := .ST_TEXT }

/-- The body of the loop at a character. -/
def Machine.examine (format : List t.ValueType) (m : Machine t) (ch : t.ValueType) : Except Trap (Machine t) :=
  let c := t.narrow ch
  match m.state with
  | .ST_TEXT =>
    if c = ascii '%' then .ok { m with width := 0, percision := 0, flag := Flags.zero, state := .ST_FLAGS }
    else .ok { m with str := m.str ++ [ch] }
  | .ST_FLAGS => m.flags c
  | .ST_WIDTH => m.widths c
  | .ST_PERCISION => m.percisions c
  | .ST_SUBSPEC => m.subspec format c
  | .ST_SPEC => m.spec c

/-- One round of the loop, which is at its end at the null of the format. -/
def Machine.step (format : List t.ValueType) (m : Machine t) : Except Trap (Option (Machine t)) := do
  let ch ← read .formatBounds format m.p
  if ch = 0 then .ok none
  else do
    let m ← m.examine format ch
    .ok (some { m with p := m.p + 1 })

section Steps
variable {format : List t.ValueType} {m m' : Machine t} {ch : t.ValueType} {next : Option (Machine t)}

theorem step_null (h : read Trap.formatBounds format m.p = .ok 0) : m.step format = .ok none := by
  rw [Machine.step, h]
  change (if (0 : t.ValueType) = 0 then .ok none else m.examine format 0 >>= fun m => .ok (some { m with p := m.p + 1 })) = _
  rw [if_pos rfl]

theorem step_examine (h : read Trap.formatBounds format m.p = .ok ch) (hch : ch ≠ 0) (hexamine : m.examine format ch = .ok m') :
    m.step format = .ok (some { m' with p := m'.p + 1 }) := by
  rw [Machine.step, h]
  change (if ch = 0 then .ok none else m.examine format ch >>= fun m => .ok (some { m with p := m.p + 1 })) = _
  rw [if_neg hch, hexamine]
  rfl

theorem step_error {e : Trap} (h : read Trap.formatBounds format m.p = .ok ch) (hch : ch ≠ 0)
    (hexamine : m.examine format ch = .error e) : m.step format = .error e := by
  rw [Machine.step, h]
  change (if ch = 0 then .ok none else m.examine format ch >>= fun m => .ok (some { m with p := m.p + 1 })) = _
  rw [if_neg hch, hexamine]
  rfl

/-- A step that does not fail is at the null of the format, or the body of the loop goes through. -/
theorem step_cases (h : m.step format = .ok next) :
    (read Trap.formatBounds format m.p = .ok 0 ∧ next = none) ∨
      ∃ ch m', read Trap.formatBounds format m.p = .ok ch ∧ ch ≠ 0 ∧ m.examine format ch = .ok m' ∧
        next = some { m' with p := m'.p + 1 } := by
  obtain ⟨ch, hread, h⟩ := ok_of_bind h
  by_cases hch : ch = 0
  · rw [if_pos hch] at h
    exact .inl ⟨hch ▸ hread, (Except.ok.inj h).symm⟩
  · rw [if_neg hch] at h
    obtain ⟨m', hexamine, h⟩ := ok_of_bind h
    exact .inr ⟨ch, m', hread, hch, hexamine, (Except.ok.inj h).symm⟩

end Steps

def Machine.start (ap : List (VaArg t)) : Machine t := ⟨0, .ST_TEXT, 0, 0, Flags.zero, ap, []⟩

/-- The string that `printf` writes, and what it returns. Every character of the format is looked at by
at most five states. -/
def printf (format : List t.ValueType) (ap : List (VaArg t)) : Except Trap (List t.ValueType × ℕ) := do
  let m ← loop Trap.diverges (Machine.step format) (6 * format.length + 1) (Machine.start ap)
  .ok (m.str, LibXpf.u32 m.str.length)

end Machine
end LibXpf.Xpfstring
