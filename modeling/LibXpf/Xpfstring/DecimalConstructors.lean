import LibXpf.Xpfstring.CanonicalNumerals

/-! # The constructors for integers

A constructor writes the canonical numeral of its argument, unless the negation of the
argument overflows. The index into its buffer stays within the buffer for every argument.
-/
namespace LibXpf.Xpfstring
open PositionalDigits

/-- An argument of one of the constructors for integers. -/
inductive Integer where
  | s32 (v : Int32)
  | u32 (v : UInt32)
  | s64 (v : Int64)
  | u64 (v : UInt64)

namespace Integer

def value : Integer → ℤ
  | .s32 v => v.toInt
  | .u32 v => v.toNat
  | .s64 v => v.toInt
  | .u64 v => v.toNat

def construct (t : CharType) : Integer → Except Trap (List t.ValueType)
  | .s32 v => ofS32 t v
  | .u32 v => ofU32 t v
  | .s64 v => ofS64 t v
  | .u64 v => ofU64 t v

/-- The least value of a signed type. -/
def Least (n : Integer) : Prop := n = .s32 Int32.minValue ∨ n = .s64 Int64.minValue

end Integer

/-- The canonical numeral of an integer: a sign if it is negative, and the digits of the absolute value. -/
def Canonical (b : ℕ) (z : ℤ) (text : List UInt8) : Prop :=
  ∃ ds, IsNumeral b z.natAbs ds ∧ text = signText (z < 0) ++ digitText ds

section Constructors
variable {t : CharType} {n : Integer} {z : ℤ} {text : List UInt8}

theorem canonical_iff : Canonical 10 z text ↔ text = integerText z := by
  simp only [Canonical, isNumeral_iff (show 1 < 10 by decide), exists_eq_left]
  rfl

/-- The string is the canonical numeral, and the index into the buffer has not gone below zero. -/
structure Integer.Written (t : CharType) (n : Integer) : Prop where
  canonical : ∃ text, Canonical 10 n.value text ∧ n.construct t = .ok (text.map t.ofChar)
  index : n.construct t ≠ .error .bufferBounds

theorem integerText_natCast (n : ℕ) : integerText n = numeralText 10 n := by
  rw [integerText, decide_eq_false (by omega), Int.natAbs_natCast]
  rfl

theorem construct_canonical (t : CharType) (h : ¬ n.Least) : n.construct t = .ok ((integerText n.value).map t.ofChar) := by
  cases n with
  | s32 v => exact ofS32_eq t fun hv => h (.inl (congrArg Integer.s32 hv))
  | u32 v =>
    rw [Integer.value, integerText_natCast]
    exact ofU32_eq t v
  | s64 v => exact ofS64_eq t fun hv => h (.inr (congrArg Integer.s64 hv))
  | u64 v =>
    rw [Integer.value, integerText_natCast]
    exact ofU64_eq t v

theorem construct_least (t : CharType) (h : n.Least) :
    ∃ text : List UInt8, n.construct t = .ok (text.map t.ofChar) ∧ ascii '.' ∈ text := by
  rcases h with rfl | rfl
  · exact ⟨_, ofS32_minValue t, by decide⟩
  · exact ⟨_, ofS64_minValue t, by decide⟩

theorem mem_integerText {c : UInt8} (h : c ∈ integerText z) : c ∈ chars "-0123456789" := by
  have hdigit : ∀ d < 10, hextable.getD d 0 ∈ chars "-0123456789" := by decide
  have hsign : ∀ negative : Bool, ∀ c ∈ signText negative, c ∈ chars "-0123456789" := by decide +kernel
  rcases List.mem_append.mp h with hc | hc
  · exact hsign _ c hc
  · obtain ⟨d, hd, rfl⟩ := List.mem_map.mp hc
    exact hdigit d (numeral_lt (by decide) hd)

theorem point_notMem (z : ℤ) : ascii '.' ∉ integerText z := fun h => absurd (mem_integerText h) (by decide)

/-- The index stays within the buffer for the least values, too. -/
theorem construct_index (t : CharType) (n : Integer) : n.construct t ≠ .error .bufferBounds := by
  by_cases hleast : n.Least
  · obtain ⟨text, htext, -⟩ := construct_least t hleast
    rw [htext]
    rintro ⟨⟩
  · rw [construct_canonical t hleast]
    rintro ⟨⟩

/-- Every constructor returns, and all but those for the least values write the canonical numeral. -/
theorem written_iff (t : CharType) (n : Integer) : n.Written t ↔ n ≠ .s32 Int32.minValue ∧ n ≠ .s64 Int64.minValue := by
  rw [← not_or]
  constructor
  · rintro ⟨⟨text, hcanonical, htext⟩, -⟩ hleast
    obtain ⟨text', htext', hpoint⟩ := construct_least t hleast
    have hmap := Except.ok.inj (htext.symm.trans htext')
    obtain rfl := t.ofChar_injective.list_map hmap
    exact point_notMem n.value (canonical_iff.mp hcanonical ▸ hpoint)
  · intro h
    exact ⟨⟨_, canonical_iff.mpr rfl, construct_canonical t h⟩, construct_index t n⟩

theorem not_written : ¬ (Integer.s32 Int32.minValue).Written .c8 := by
  rintro ⟨⟨text, hcanonical, htext⟩, -⟩
  have hmap := Except.ok.inj (htext.symm.trans (ofS32_minValue .c8))
  obtain rfl := CharType.c8.ofChar_injective.list_map hmap
  have hpoint : ascii '.' ∈ chars "-./,),(-*,(" := by decide
  exact point_notMem _ (canonical_iff.mp hcanonical ▸ hpoint)

end Constructors
end LibXpf.Xpfstring
