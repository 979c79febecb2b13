import LibXpf.Foundation.UnitCodes
import LibXpf.Utf.Conversion

/-! # Surrogates

The reader of 16-bit units accepts a scalar value that is not null in its standard
form, and nothing else.
-/
namespace LibXpf.Utf
open UnitCodes

/-- A Unicode scalar value other than the null. -/
def Scalar (cp : UInt32) : Prop := cp ≠ 0 ∧ cp.isValidChar

theorem scalar_iff {cp : UInt32} : Scalar cp ↔ 0 < cp.toNat ∧
    (cp.toNat < 0xD800 ∨ (0xDFFF < cp.toNat ∧ cp.toNat < 0x110000)) := by
  rw [Scalar, ne_eq, ← UInt32.toNat_inj, UInt32.isValidChar, Nat.isValidChar, UInt32.toNat_zero,
    Nat.pos_iff_ne_zero]

/-- The standard form of a character in units of 16 bits. -/
def utf16EncodeChar (c : Char) : List UInt16 :=
  if c.toNat < 0x10000 then [UInt16.ofNat c.toNat]
  else [UInt16.ofNat (0xD800 + (c.toNat - 0x10000) / 0x400), UInt16.ofNat (0xDC00 + (c.toNat - 0x10000) % 0x400)]

namespace Ucs2Reader

def next : Next UInt16 UInt32
  | [] => none
  | [c] => if c = 0 ∨ leadSurrogate c ∨ trailSurrogate c then none else some (c.toUInt32, [])
  | c :: t :: l =>
    if c = 0 then none
    else if leadSurrogate c then if trailSurrogate t then some (combine c t, l) else none
    else if trailSurrogate c then none
    else some (c.toUInt32, t :: l)

theorem leadSurrogate_iff {c : UInt16} : leadSurrogate c ↔ 0xD800 ≤ c.toNat ∧ c.toNat ≤ 0xDBFF := by
  rw [leadSurrogate, ge_iff_le, UInt16.le_iff_toNat_le, UInt16.le_iff_toNat_le]
  rfl

theorem trailSurrogate_iff {c : UInt16} : trailSurrogate c ↔ 0xDC00 ≤ c.toNat ∧ c.toNat ≤ 0xDFFF := by
  rw [trailSurrogate, ge_iff_le, UInt16.le_iff_toNat_le, UInt16.le_iff_toNat_le]
  rfl

theorem combine_toNat {c t : UInt16} (hc : leadSurrogate c) (ht : trailSurrogate t) :
    (combine c t).toNat = (c.toNat - 0xD800) * 0x400 + (t.toNat - 0xDC00) + 0x10000 := by
  have hsubc : (c - 0xD800).toUInt32.toNat = c.toNat - 0xD800 := by
    rw [UInt16.toNat_toUInt32, UInt16.toNat_sub_of_le _ _ hc.1]
    rfl
  have hsubt : (t - 0xDC00).toUInt32.toNat = t.toNat - 0xDC00 := by
    rw [UInt16.toNat_toUInt32, UInt16.toNat_sub_of_le _ _ ht.1]
    rfl
  rw [leadSurrogate_iff] at hc
  rw [trailSurrogate_iff] at ht
  have hshift : ((c - 0xD800).toUInt32 <<< 10).toNat = (c.toNat - 0xD800) <<< 10 := by
    rw [UInt32.toNat_shiftLeft, hsubc]
    refine Nat.mod_eq_of_lt ?_
    have hten : (c.toNat - 0xD800) <<< (UInt32.toNat 10 % 32) = (c.toNat - 0xD800) * 2 ^ 10 := Nat.shiftLeft_eq _ _
    omega
  have hlow : t.toNat - 0xDC00 < 2 ^ 10 := by omega
  have hoffset : UInt32.toNat 0x10000 = 0x10000 := rfl
  rw [combine, UInt32.toNat_add, UInt32.toNat_or, hshift, hsubt, ← Nat.shiftLeft_add_eq_or_of_lt hlow,
    Nat.shiftLeft_eq, hoffset]
  omega

end Ucs2Reader

section Units
open Ucs2Writer

theorem units_single {cp : UInt32} (h : cp.toNat < 0x10000) : units cp = [cp.toUInt16] := by
  have hlow : ¬ cp > 0x10FFFF := by
    rw [gt_iff_lt, UInt32.lt_iff_toNat_lt]
    exact Nat.not_lt.mpr (h.le.trans (by decide))
  have hbmp : ¬ cp ≥ 0x10000 := by
    rw [ge_iff_le, UInt32.le_iff_toNat_le]
    exact Nat.not_le.mpr h
  rw [units, if_neg hlow, if_neg hbmp]

theorem units_pair (cp : UInt32) (hlo : 0x10000 ≤ cp.toNat) (hhi : cp.toNat ≤ 0x10FFFF) :
    ∃ c t, units cp = [c, t] ∧ c.toNat = 0xD800 + (cp.toNat - 0x10000) / 0x400 ∧
      t.toNat = 0xDC00 + (cp.toNat - 0x10000) % 0x400 := by
  have hlow : ¬ cp > 0x10FFFF := by
    rw [gt_iff_lt, UInt32.lt_iff_toNat_lt]
    exact Nat.not_lt.mpr hhi
  have hge : cp ≥ 0x10000 := UInt32.le_iff_toNat_le.mpr hlo
  have hsub : (cp - 0x10000).toNat = cp.toNat - 0x10000 := UInt32.toNat_sub_of_le _ _ hge
  refine ⟨_, _, by rw [units, if_neg hlow, if_pos hge], ?_, ?_⟩
  · have hhigh : (((cp - 0x10000) &&& 0xFFC00) >>> 10).toNat = (cp.toNat - 0x10000) / 0x400 := by
      have hmask : (cp.toNat - 0x10000) / 2 ^ 10 &&& 2 ^ 10 - 1 = (cp.toNat - 0x10000) / 2 ^ 10 % 2 ^ 10 :=
        Nat.and_two_pow_sub_one_eq_mod _ 10
      rw [UInt32.toNat_shiftRight, UInt32.toNat_and, hsub]
      change ((cp.toNat - 0x10000) &&& 0xFFC00) >>> 10 = _
      rw [Nat.shiftRight_and_distrib, Nat.shiftRight_eq_div_pow]
      change (cp.toNat - 0x10000) / 2 ^ 10 &&& 2 ^ 10 - 1 = _
      omega
    rw [UInt16.toNat_add, UInt32.toNat_toUInt16, hhigh]
    change ((cp.toNat - 0x10000) / 0x400 % 2 ^ 16 + 0xD800) % 2 ^ 16 = _
    omega
  · have hlast : ((cp - 0x10000) &&& 0x3FF).toNat = (cp.toNat - 0x10000) % 0x400 := by
      rw [UInt32.toNat_and, hsub]
      exact Nat.and_two_pow_sub_one_eq_mod _ 10
    rw [UInt16.toNat_add, UInt32.toNat_toUInt16, hlast]
    change ((cp.toNat - 0x10000) % 0x400 % 2 ^ 16 + 0xDC00) % 2 ^ 16 = _
    omega

end Units

namespace Ucs2Reader

/-- A unit that is not a surrogate is the standard form of a scalar value. -/
theorem single_scalar {c : UInt16} (hzero : c ≠ 0) (hlead : ¬ leadSurrogate c) (htrail : ¬ trailSurrogate c) :
    Scalar c.toUInt32 ∧ Ucs2Writer.units c.toUInt32 = [c] := by
  rw [leadSurrogate_iff] at hlead
  rw [trailSurrogate_iff] at htrail
  have hpos : c.toNat ≠ 0 := fun h => hzero (UInt16.toNat_inj.mp h)
  have hlt := c.toNat_lt
  rw [scalar_iff, UInt16.toNat_toUInt32]
  refine ⟨by omega, ?_⟩
  rw [units_single (by rw [UInt16.toNat_toUInt32]; omega), UInt16.toUInt16_toUInt32]

theorem pair_scalar {c t : UInt16} (hc : leadSurrogate c) (ht : trailSurrogate t) :
    Scalar (combine c t) ∧ Ucs2Writer.units (combine c t) = [c, t] := by
  have hval := combine_toNat hc ht
  rw [leadSurrogate_iff] at hc
  rw [trailSurrogate_iff] at ht
  obtain ⟨c', t', hunits, hc', ht'⟩ := units_pair (combine c t) (by omega) (by omega)
  have hceq : c' = c := UInt16.toNat_inj.mp (by omega)
  have hteq : t' = t := UInt16.toNat_inj.mp (by omega)
  rw [scalar_iff, hunits, hceq, hteq]
  exact ⟨by omega, rfl⟩

theorem next_single {c : UInt16} {rest : List UInt16} (hzero : c ≠ 0) (hlead : ¬ leadSurrogate c)
    (htrail : ¬ trailSurrogate c) : next (c :: rest) = some (c.toUInt32, rest) := by
  cases rest with
  | nil => rw [next, if_neg (by simp only [hzero, hlead, htrail, or_self, not_false_eq_true])]
  | cons t rest => rw [next, if_neg hzero, if_neg hlead, if_neg htrail]

/-- The writer writes a scalar value as a unit that is not a surrogate, or as a pair. -/
theorem scalar_forms {cp : UInt32} (h : Scalar cp) :
    (∃ c, Ucs2Writer.units cp = [c] ∧ c.toUInt32 = cp ∧ c ≠ 0 ∧ ¬ leadSurrogate c ∧ ¬ trailSurrogate c) ∨
      ∃ c t, Ucs2Writer.units cp = [c, t] ∧ combine c t = cp ∧ leadSurrogate c ∧ trailSurrogate t := by
  rw [scalar_iff] at h
  by_cases hbmp : cp.toNat < 0x10000
  · have hval : cp.toUInt16.toNat = cp.toNat := by
      rw [UInt32.toNat_toUInt16]
      exact Nat.mod_eq_of_lt hbmp
    have hback : cp.toUInt16.toUInt32 = cp := UInt32.toNat_inj.mp (by rw [UInt16.toNat_toUInt32, hval])
    have hzero : cp.toUInt16 ≠ 0 := by
      rw [ne_eq, ← UInt16.toNat_inj, hval]
      exact h.1.ne'
    refine .inl ⟨_, units_single hbmp, hback, hzero, ?_, ?_⟩
    · rw [leadSurrogate_iff, hval]
      omega
    · rw [trailSurrogate_iff, hval]
      omega
  · obtain ⟨c, t, hunits, hc, ht⟩ := units_pair cp (by omega) (by omega)
    have hlead : leadSurrogate c := by
      rw [leadSurrogate_iff]
      omega
    have htrail : trailSurrogate t := by
      rw [trailSurrogate_iff]
      omega
    have hval := combine_toNat hlead htrail
    exact .inr ⟨c, t, hunits, UInt32.toNat_inj.mp (by omega), hlead, htrail⟩

theorem surrogate_ne_zero {c : UInt16} (h : leadSurrogate c ∨ trailSurrogate c) : c ≠ 0 := by
  rintro rfl
  revert h
  decide

theorem next_units {cp : UInt32} (h : Scalar cp) (rest : List UInt16) :
    next (Ucs2Writer.units cp ++ rest) = some (cp, rest) := by
  rcases scalar_forms h with ⟨c, hunits, rfl, hzero, hlead, htrail⟩ | ⟨c, t, hunits, rfl, hlead, htrail⟩
  · rw [hunits, List.singleton_append, next_single hzero hlead htrail]
  · rw [hunits, List.cons_append, List.singleton_append, next, if_neg (surrogate_ne_zero (.inl hlead)),
      if_pos hlead, if_pos htrail]

/-- The reader accepts the scalar values that are not null, in their standard form. -/
theorem next_iff {l rest : List UInt16} {cp : UInt32} :
    next l = some (cp, rest) ↔ Scalar cp ∧ l = Ucs2Writer.units cp ++ rest := by
  constructor
  · intro h
    match l with
    | [] => simp [next] at h
    | [c] =>
      rw [next] at h
      split at h
      · simp at h
      next hc =>
        obtain ⟨hscalar, hunits⟩ := single_scalar (fun h => hc (.inl h)) (fun h => hc (.inr (.inl h)))
          (fun h => hc (.inr (.inr h)))
        obtain ⟨rfl, rfl⟩ : c.toUInt32 = cp ∧ [] = rest := by simpa using h
        exact ⟨hscalar, by rw [hunits, List.append_nil]⟩
    | c :: t :: l =>
      rw [next] at h
      split at h
      · simp at h
      next hzero =>
        split at h
        next hlead =>
          split at h
          next htrail =>
            obtain ⟨hscalar, hunits⟩ := pair_scalar hlead htrail
            obtain ⟨rfl, rfl⟩ : combine c t = cp ∧ l = rest := by simpa using h
            exact ⟨hscalar, by rw [hunits]; rfl⟩
          · simp at h
        next hlead =>
          split at h
          · simp at h
          next htrail =>
            obtain ⟨hscalar, hunits⟩ := single_scalar hzero hlead htrail
            obtain ⟨rfl, rfl⟩ : c.toUInt32 = cp ∧ t :: l = rest := by simpa using h
            exact ⟨hscalar, by rw [hunits]; rfl⟩
  · rintro ⟨hscalar, rfl⟩
    exact next_units hscalar rest

theorem next_snoc (l : List UInt16) : next (l ++ [0]) = (next l).map fun p => (p.1, p.2 ++ [0]) := by
  match l with
  | [] => rfl
  | [c] =>
    have htrail : ¬ trailSurrogate 0 := by decide
    rw [List.singleton_append, next, next]
    split_ifs <;> first | rfl | grind
  | c :: t :: l =>
    rw [List.cons_append, List.cons_append, next, next]
    split_ifs <;> rfl

theorem next_shrinks : Shrinks next := by
  intro l cp rest h
  obtain ⟨hscalar, rfl⟩ := next_iff.mp h
  have hne : Ucs2Writer.units cp ≠ [] := by
    rcases scalar_forms hscalar with ⟨c, hunits, -⟩ | ⟨c, t, hunits, -⟩ <;> simp [hunits]
  have hpos := List.length_pos_iff.mpr hne
  rw [List.length_append]
  omega

end Ucs2Reader

theorem utf16_units (c : Char) : Ucs2Writer.units c.val = utf16EncodeChar c := by
  have hval : c.toNat = c.val.toNat := rfl
  have hrange : c.val.toNat < 0x110000 := by
    rcases c.valid with h | h
    · exact lt_trans h (by decide)
    · exact h.2
  rw [utf16EncodeChar]
  split
  next hbmp =>
    rw [units_single (by omega), hval]
    rfl
  next hbmp =>
    obtain ⟨hi, lo, hunits, hhi, hlo⟩ := units_pair c.val (by omega) (by omega)
    rw [hunits, hval, ← hhi, ← hlo, UInt16.ofNat_toNat, UInt16.ofNat_toNat]

end LibXpf.Utf
