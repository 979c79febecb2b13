import LibXpf.Xpfstring.IsoConformance
import LibXpf.Xpfstring.LengthModifiers
import LibXpf.Xpfstring.StringFields

/-! # Whole formats

Specifications that append their texts do so one after the other. A format of conforming pieces
prints the text of the standard.
-/
namespace LibXpf.Xpfstring
open Buffers StepLoops

section Composition
variable {t : CharType} {units units' : List UInt8} {args args' : List (VaArg t)} {text text' : List t.ValueType}

theorem appends_nil : Appends [] ([] : List (VaArg t)) [] :=
  fun _ _ _ _ _ _ _ str => ⟨_, .refl, rfl, rfl, rfl, (List.append_nil str).symm⟩

theorem Appends.append (h : Appends units args text) (h' : Appends units' args' text') :
    Appends (units ++ units') (args ++ args') (text ++ text') := by
  intro format i hstands width percision flag rest str
  obtain ⟨hfirst, hsecond⟩ := stands_append.mp hstands
  obtain ⟨⟨_, _, width', percision', flag', _, _⟩, hvisits, rfl, rfl, rfl, rfl⟩ := h format i hfirst width percision flag
    (args' ++ rest) str
  obtain ⟨m, hmore, hstate, hp, hap, hstr⟩ := h' format _ hsecond width' percision' flag' rest (str ++ text)
  rw [List.append_assoc]
  refine ⟨m, hvisits.trans hmore, hstate, ?_, hap, ?_⟩
  · rw [hp, List.length_append, Nat.add_assoc]
  · rw [hstr, List.append_assoc]

theorem appends_flatMap {ι : Type} {ps : List ι} {units : ι → List UInt8} {args : ι → List (VaArg t)}
    {text : ι → List t.ValueType} (h : ∀ p ∈ ps, Appends (units p) (args p) (text p)) :
    Appends (ps.flatMap units) (ps.flatMap args) (ps.flatMap text) := by
  induction ps with
  | nil => exact appends_nil
  | cons p ps ih =>
    rw [List.forall_mem_cons] at h
    exact h.1.append (ih h.2)

theorem text_appends {c : UInt8} (h0 : c ≠ 0) (hpercent : c ≠ ascii '%') : Appends [c] ([] : List (VaArg t)) [t.ofChar c] := by
  intro format i hstands width percision flag rest str
  let m : Machine t := ⟨i, .ST_TEXT, width, percision, flag, rest, str⟩
  have hexamine : m.examine format (t.ofChar c) = .ok { m with str := str ++ [t.ofChar c] } := by
    rw [Machine.examine]
    simp only [m, t.narrow_ofChar, if_neg hpercent]
  exact ⟨_, .single (leads_examine (m := m) (stands_cons.mp hstands).1 h0 hexamine), rfl, rfl, rfl, rfl⟩

/-- A conversion without flags, width and percision, whose arguments are those of the conversion itself. -/
theorem bare_appends {c : UInt8} (hc : Follows c) (hplain : c ∉ chars "lhjztL")
    (hspec : ∀ (p : ℕ) (rest : List (VaArg t)) (str : List t.ValueType),
      (⟨p, .ST_SPEC, 0, 0, Flags.zero, args ++ rest, str⟩ : Machine t).spec c =
        .ok ⟨p, .ST_TEXT, 0, 0, Flags.zero, rest, str ++ text⟩) :
    Appends [ascii '%', c] args text := by
  intro format i hstands width percision flag rest str
  obtain ⟨hget, hvisits⟩ := conversion_visits [] .absent .absent hc hplain hstands
  let m : Machine t := ⟨i + 1, .ST_SPEC, 0, 0, Flags.zero, args ++ rest, str⟩
  have hexamine : m.examine format (t.ofChar c) = .ok ⟨i + 1, .ST_TEXT, 0, 0, Flags.zero, rest, str ++ text⟩ := by
    rw [Machine.examine]
    simp only [m, t.narrow_ofChar]
    exact hspec (i + 1) rest str
  exact ⟨_, (hvisits width percision flag (args ++ rest) str).tail (leads_examine (m := m) hget hc.1 hexamine), rfl, rfl, rfl, rfl⟩

theorem percent_appends (t : CharType) : Appends (chars "%%") ([] : List (VaArg t)) [t.ofChar (ascii '%')] :=
  bare_appends (by decide) (by decide) fun _ _ _ => rfl

theorem char_appends {v : Int32} (h : v ≠ 0) : Appends (chars "%c") [VaArg.int v] [t.ofInt v] := by
  have htext : charText t Flags.zero 0 v = [t.ofInt v] := by
    rw [charText, if_pos h]
    rfl
  have happends : Appends (chars "%c") [VaArg.int v] (charText t Flags.zero 0 v) :=
    bare_appends (by decide) (by decide) fun _ _ _ => rfl
  exact htext ▸ happends

end Composition

section Pieces

/-- A piece of a format with its arguments. -/
inductive Piece (t : CharType) (long : LongLen) where
  | char (c : UInt8)
  | percent
  | character (v : Int32)
  | integer (d : Directive) (v : Int32)
  | modified (md : Modifier) (k : Conversion) (v : BitVec (md.argBits long))
  | string (d : StringDirective) (buf : List t.ValueType)

namespace Piece
variable {t : CharType} {long : LongLen}

def units : Piece t long → List UInt8
  | char c => [c]
  | percent => chars "%%"
  | character _ => chars "%c"
  | integer d _ => d.units
  | modified md k _ => modifiedUnits md k
  | string d _ => d.units

def args : Piece t long → List (VaArg t)
  | char _ => []
  | percent => []
  | character v => [.int v]
  | integer d v => d.args t v
  | modified md _ v => [md.passed t long v]
  | string d buf => d.args buf

/-- The text of the standard. -/
def iso : Piece t long → List t.ValueType
  | char c => [t.ofChar c]
  | percent => [t.ofChar (ascii '%')]
  | character v => [t.ofInt v]
  | integer d v => (d.iso v).map t.ofChar
  | modified md k v => (k.canonical (md.converted long k v)).map t.ofChar
  | string d buf => d.expected buf

/-- The pieces that are printed as the standard asks for. -/
def Conforms : Piece t long → Prop
  | char c => c ≠ 0 ∧ c ≠ ascii '%'
  | percent => True
  | character v => v ≠ 0
  | integer d v => d.Conforms t.keeps v
  | modified md k v => md.Range k (md.converted long k v)
  | string d buf => d.Readable buf ∧ d.Honoured buf

theorem appends {p : Piece t long} (h : p.Conforms) : Appends p.units p.args p.iso := by
  cases p with
  | char c => exact text_appends h.1 h.2
  | percent => exact percent_appends t
  | character v => exact char_appends h
  | integer d v =>
    have htext : d.text t.keeps v = d.iso v := (text_iso_iff t.keeps d v).mpr h
    intro format i hstands width percision flag rest str
    have hvisits := directive_appends d v hstands width percision flag rest str
    rw [htext] at hvisits
    exact ⟨_, hvisits, rfl, rfl, rfl, rfl⟩
  | modified md k v =>
    have htext := (text_integer_iff (signed_integer v)).mpr ((integer_range v).mpr h)
    have happends := modifier_appends t long md k v
    rwa [htext] at happends
  | string d buf => exact string_appends ((StringDirective.printed_iff h.1).mpr h.2)

end Piece

/-- The pieces of `n=%+5d%%%.2s`. -/
def mixedPieces : List (Piece .c8 .eight) :=
  [.char (ascii 'n'), .char (ascii '='), .integer ⟨[.plus], .literal 5 (by decide), .absent, .d⟩ 42, .percent,
    .string ⟨[], .absent, .literal [2] (by decide) (by decide)⟩ ((chars "abc").map CharType.c8.ofChar ++ [0])]

end Pieces
end LibXpf.Xpfstring
