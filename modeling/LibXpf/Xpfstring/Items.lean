import LibXpf.Xpfstring.Scanning

/-! # Formats as items

A format is a sequence of characters and specifications. Every part of a specification is the
longest run of its characters, and its meaning is read off the parts. The items of a format
are printed one after the other.
-/
namespace LibXpf.Xpfstring

section Grammar
variable {t : CharType}

inductive LengthLetter where
  | l
  | ll
  | h
  | hh
  | ignored
  deriving DecidableEq

/-- The parts of a specification, from its percent sign on. -/
structure Specification where
  flags : List UInt8
  width : List UInt8
  percision : Option (List UInt8)
  lengths : List LengthLetter
  conversion : UInt8
  deriving DecidableEq

inductive Item (t : CharType) where
  | text (ch : t.ValueType)
  | specification (s : Specification)
  deriving DecidableEq

/-- A width and a percision are written with digits and stars. -/
def isNumeric (c : UInt8) : Prop := isDigit c ∨ c = ascii '*'

instance (c : UInt8) : Decidable (isNumeric c) := inferInstanceAs (Decidable (_ ∨ _))

/-- The longest run of characters with a property, and what stands behind it. -/
def run (P : UInt8 → Prop) [DecidablePred P] : List t.ValueType → List UInt8 × List t.ValueType
  | [] => ([], [])
  | ch :: w =>
    if P (t.narrow ch) then
      let r := run P w
      (t.narrow ch :: r.1, r.2)
    else ([], ch :: w)

def percisionPart (w : List t.ValueType) : Option (List UInt8) × List t.ValueType :=
  if w.head?.map t.narrow = some (ascii '.') then
    let r := run isNumeric w.tail
    (some r.1, r.2)
  else (none, w)

/-- A length modifier that starts with a character, where another one may follow. -/
def lengthLetter (c : UInt8) (next : Option t.ValueType) : Option LengthLetter :=
  if c = ascii 'l' then some (if next = some (t.ofChar (ascii 'l')) then .ll else .l)
  else if c = ascii 'h' then some (if next = some (t.ofChar (ascii 'h')) then .hh else .h)
  else if c = ascii 'j' ∨ c = ascii 'z' ∨ c = ascii 't' ∨ c = ascii 'L' then some .ignored
  else none

/-- How many characters a length modifier has behind its first one. -/
def LengthLetter.more : LengthLetter → ℕ
  | .ll | .hh => 1
  | .l | .h | .ignored => 0

def lengthsPart : List t.ValueType → List LengthLetter × List t.ValueType
  | [] => ([], [])
  | ch :: w =>
    match lengthLetter (t.narrow ch) w.head? with
    | none => ([], ch :: w)
    | some k => (lengthsPart (w.drop k.more)).map (k :: ·) id
termination_by w => w.length
decreasing_by
  rw [List.length_drop, List.length_cons]
  omega

/-- The specification at the front of a text, unless the text ends within it. -/
def specification (w : List t.ValueType) : Option (Specification × List t.ValueType) :=
  let flags := run isFlag w
  let width := run isNumeric flags.2
  let percision := percisionPart width.2
  let lengths := lengthsPart percision.2
  lengths.2.head?.map fun ch => (⟨flags.1, width.1, percision.1, lengths.1, t.narrow ch⟩, lengths.2.tail)

variable {P : UInt8 → Prop} [DecidablePred P] {w rest : List t.ValueType} {s : Specification}

theorem run_suffix (w : List t.ValueType) : (run P w).2 <:+ w := by
  induction w with
  | nil => exact List.suffix_rfl
  | cons ch w ih =>
    rw [run]
    split
    · exact ih.trans (List.suffix_cons ch w)
    · exact List.suffix_rfl

theorem percisionPart_suffix (w : List t.ValueType) : (percisionPart w).2 <:+ w := by
  rw [percisionPart]
  split
  · exact (run_suffix w.tail).trans (List.tail_suffix w)
  · exact List.suffix_rfl

theorem lengthsPart_suffix (w : List t.ValueType) : (lengthsPart w).2 <:+ w := by
  fun_induction lengthsPart w with
  | case1 => exact List.suffix_rfl
  | case2 => exact List.suffix_rfl
  | case3 ch w k hletter ih => exact ih.trans ((List.drop_suffix _ w).trans (List.suffix_cons ch w))

theorem specification_suffix (h : specification w = some (s, rest)) : rest <:+ w := by
  rw [specification, Option.map_eq_some_iff] at h
  obtain ⟨ch, -, hs⟩ := h
  obtain rfl := (Prod.mk.inj hs).2
  exact (List.tail_suffix _).trans ((lengthsPart_suffix _).trans ((percisionPart_suffix _).trans
    ((run_suffix _).trans (run_suffix w))))

/-- The items of a format; a specification within which the format ends is none. -/
def items : List t.ValueType → List (Item t)
  | [] => []
  | ch :: w =>
    if t.narrow ch = ascii '%' then
      match _h : specification w with
      | none => []
      | some (s, rest) => .specification s :: items rest
    else .text ch :: items w
termination_by w => w.length
decreasing_by
  · exact Nat.lt_succ_of_le (specification_suffix _h).length_le
  · exact Nat.lt_succ_self _

end Grammar

section Meaning
variable {t : CharType}

namespace Specification

/-- The flag about the sign that stands last. -/
def lastSign (s : Specification) : Option UInt8 := (s.flags.filter fun c => c = ascii '+' ∨ c = ascii ' ').getLast?

def flag (s : Specification) : Flags where
  LEFTJUSTIFY := ascii '-' ∈ s.flags
  FORCESIGN := s.lastSign = some (ascii '+')
  BLANKSIGN := s.lastSign = some (ascii ' ')
  PREFIXSUFFIX := ascii '#' ∈ s.flags
  LEFTPADZERO := ascii '0' ∈ s.flags
  WIDTH_SPECIFIED := s.width ≠ []
  WIDTH_PARAM := ascii '*' ∈ s.width
  PERCISION_SPECIFIED := s.percision.isSome
  PERCISION_PARAM := ascii '*' ∈ s.percision.getD []
  FMT_LONG := .l ∈ s.lengths
  FMT_LONGLONG := .ll ∈ s.lengths
  FMT_HALF := .h ∈ s.lengths
  FMT_HALFHALF := .hh ∈ s.lengths

/-- The digits of a part as a number. -/
def number (part : List UInt8) : Int32 := (part.filter fun c => isDigit c).foldl addDigit 0

end Specification

/-- The width and the percision, and the arguments behind theirs. -/
def params (flag : Flags) (width percision : Int32) (ap : List (VaArg t)) : Except Trap (Int32 × Int32 × List (VaArg t)) := do
  let (width, ap) ← param flag.WIDTH_PARAM width ap
  let (percision, ap) ← param flag.PERCISION_PARAM percision ap
  .ok (width, percision, ap)

/-- What the conversion of a number prints, and the arguments that it leaves. -/
def printNumber (flag : Flags) (width percision : Int32) (c : UInt8) (ap : List (VaArg t)) :
    Except Trap (List t.ValueType × List (VaArg t)) := do
  let (width, percision, ap) ← params flag width percision ap
  let (number, ap) ← takeNumber flag c ap
  let valstr ← number.valstr t c
  .ok (layout t.ofChar t.keeps flag width.toInt percision.toInt c valstr, ap)

def printString (flag : Flags) (width percision : Int32) (ap : List (VaArg t)) :
    Except Trap (List t.ValueType × List (VaArg t)) := do
  let (width, percision, ap) ← params flag width percision ap
  let (buf, ap) ← takeString ap
  let text ← stringText flag width.toInt percision.toInt buf
  .ok (text, ap)

def printChar (flag : Flags) (width percision : Int32) (ap : List (VaArg t)) :
    Except Trap (List t.ValueType × List (VaArg t)) := do
  let (width, _, ap) ← params flag width percision ap
  let (v, ap) ← takeInt ap
  .ok (charText t flag width.toInt v, ap)

def printPercent (flag : Flags) (width percision : Int32) (ap : List (VaArg t)) :
    Except Trap (List t.ValueType × List (VaArg t)) := do
  let (_, _, ap) ← params flag width percision ap
  .ok ([t.ofChar (ascii '%')], ap)

/-- What a conversion prints. An unknown one prints nothing, and takes no argument even for a star. -/
def convert (flag : Flags) (width percision : Int32) (c : UInt8) (ap : List (VaArg t)) :
    Except Trap (List t.ValueType × List (VaArg t)) :=
  if c = ascii 'c' then printChar flag width percision ap
  else if c = ascii '%' then printPercent flag width percision ap
  else if c = ascii 'p' then printNumber flag.pointer width (if percision < 16 then 16 else percision) (ascii 'x') ap
  else if c ∈ chars "FgGeEAa" then printNumber flag width percision (ascii 'f') ap
  else if c ∈ chars "fxXodiu" then printNumber flag width percision c ap
  else if c = ascii 's' then printString flag width percision ap
  else .ok ([], ap)

def Specification.print (s : Specification) (ap : List (VaArg t)) : Except Trap (List t.ValueType × List (VaArg t)) :=
  convert s.flag (number s.width) (number (s.percision.getD [])) s.conversion ap

/-- Print the items one after the other. -/
def interpret : List (Item t) → List (VaArg t) → Except Trap (List t.ValueType × List (VaArg t))
  | [], ap => .ok ([], ap)
  | .text ch :: xs, ap => do
    let (more, ap) ← interpret xs ap
    .ok (ch :: more, ap)
  | .specification s :: xs, ap => do
    let (text, ap) ← s.print ap
    let (more, ap) ← interpret xs ap
    .ok (text ++ more, ap)

end Meaning
end LibXpf.Xpfstring
