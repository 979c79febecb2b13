import LibXpf.Xpfstring.Numerals
import Mathlib.Data.List.Forall2
import Mathlib.Data.Set.Basic

/-! # Upper and lower case

The folds narrow a character to a `char` and look whether that is a letter. A wide
character whose low byte is a letter is replaced by a letter, too. The comparison that
ignores the case folds both strings, and compares as much of the one as the other has.
-/
namespace LibXpf.Xpfstring

section Folds
variable (t : CharType)

def CharType.lower (ch : t.ValueType) : t.ValueType :=
  let ch8 := t.narrow ch
  if ascii 'A' ≤ ch8 ∧ ch8 ≤ ascii 'Z' then t.ofChar (ch8 + 32) else ch

def CharType.make_lower (str : List t.ValueType) : List t.ValueType := str.map t.lower

/-- The result of `compare` with a part of a string is zero; `none` if the part starts behind the end. -/
def compareZero (str1 : List t.ValueType) (upos ulen : ℕ) (str2 : List t.ValueType) : Option Bool :=
  if str1.length < upos then none else some ((str1.drop upos).take ulen = str2)

def equals_ignore_case (str other : List t.ValueType) (pos len : Int32) : Option Bool :=
  if pos < 0 then some false
  else
    let ulen := if len < 0 then other.length else len.toInt.toNat
    compareZero t (t.make_lower str) pos.toInt.toNat ulen (t.make_lower other)

end Folds

section Letters

/-- The codes of the capital ASCII letters, and of the small ones. -/
def Capital (n : ℕ) : Prop := 65 ≤ n ∧ n ≤ 90

def Small (n : ℕ) : Prop := 97 ≤ n ∧ n ≤ 122

instance (n : ℕ) : Decidable (Capital n) := inferInstanceAs (Decidable (_ ∧ _))

instance (n : ℕ) : Decidable (Small n) := inferInstanceAs (Decidable (_ ∧ _))

variable {n : ℕ}

/-- A letter in the other case, and every other code unit as it is. -/
def toLower (u : BitVec n) : BitVec n := if Capital u.toNat then u + 32 else u

def toUpper (u : BitVec n) : BitVec n := if Small u.toNat then u - 32 else u

/-- A code unit beyond the range of a byte whose low byte is a letter. -/
def StrayCapital (u : BitVec n) : Prop := 256 ≤ u.toNat ∧ Capital (u.toNat % 256)

def StraySmall (u : BitVec n) : Prop := 256 ≤ u.toNat ∧ Small (u.toNat % 256)

instance (u : BitVec n) : Decidable (StrayCapital u) := inferInstanceAs (Decidable (_ ∧ _))

instance (u : BitVec n) : Decidable (StraySmall u) := inferInstanceAs (Decidable (_ ∧ _))

/-- The unit is the small letter for the capital `c`, or has `c` as its low byte. -/
def ReadAs (c : ℕ) (u : BitVec n) : Prop := u.toNat % 256 = c ∨ u.toNat = c + 32

/-- Units that are the same, or that are read as the same letter. -/
def Alike (u v : BitVec n) : Prop := u = v ∨ ∃ c, Capital c ∧ ReadAs c u ∧ ReadAs c v

/-- The second text is like a beginning of the first one, which is longer or has another unit where there is a stray. -/
structure Mistaken (a b : List (BitVec n)) : Prop where
  length_le : b.length ≤ a.length
  alike : ∀ p ∈ a.zip b, Alike p.1 p.2
  differs : b.length < a.length ∨ ∃ p ∈ a.zip b, p.1 ≠ p.2 ∧ (StrayCapital p.1 ∨ StrayCapital p.2)

end Letters

section Units
variable {t : CharType} {u v : t.ValueType}

theorem narrow_toNat (u : t.ValueType) : (t.narrow u).toNat = u.toNat % 256 := by
  rw [CharType.narrow, UInt8.toNat_ofBitVec, BitVec.toNat_setWidth]

theorem ofChar_toNat {c : UInt8} (hc : c.toNat < 128) : (t.ofChar c).toNat = c.toNat := by
  have hbits : 2 ^ 8 ≤ 2 ^ t.bits := Nat.pow_le_pow_right (by decide) t.bits_ge
  have hmsb : c.toBitVec.msb = false := by
    rw [BitVec.msb_eq_decide]
    exact decide_eq_false (by rw [UInt8.toNat_toBitVec]; omega)
  rw [CharType.ofChar, BitVec.toNat_signExtend, hmsb, BitVec.toNat_setWidth, UInt8.toNat_toBitVec]
  simp only [Bool.false_eq_true, if_false, Nat.add_zero]
  exact Nat.mod_eq_of_lt (by omega)

theorem ofNat_thirtyTwo (t : CharType) : (32 : t.ValueType).toNat = 32 := by
  rcases t with _ | _ | _ | (_ | _) <;> rfl

theorem lower_toNat (u : t.ValueType) :
    (t.lower u).toNat = if Capital (u.toNat % 256) then u.toNat % 256 + 32 else u.toNat := by
  have hguard : (ascii 'A' ≤ t.narrow u ∧ t.narrow u ≤ ascii 'Z') ↔ Capital (u.toNat % 256) := by
    rw [UInt8.le_iff_toNat_le, UInt8.le_iff_toNat_le, narrow_toNat]
    rfl
  rw [CharType.lower]
  simp only [hguard]
  split
  next h =>
    have hadd : (t.narrow u + 32).toNat = u.toNat % 256 + 32 := by
      have hle := h.2
      rw [UInt8.toNat_add, narrow_toNat]
      exact Nat.mod_eq_of_lt (show u.toNat % 256 + 32 < 256 by omega)
    rw [ofChar_toNat (by rw [hadd]; have := h.2; omega), hadd]
  next => rfl

theorem upper_toNat (u : t.ValueType) :
    (t.upper u).toNat = if Small (u.toNat % 256) then u.toNat % 256 - 32 else u.toNat := by
  have hguard : (ascii 'a' ≤ t.narrow u ∧ t.narrow u ≤ ascii 'z') ↔ Small (u.toNat % 256) := by
    rw [UInt8.le_iff_toNat_le, UInt8.le_iff_toNat_le, narrow_toNat]
    rfl
  rw [CharType.upper]
  simp only [hguard]
  split
  next h =>
    have hle : 32 ≤ t.narrow u := by
      rw [UInt8.le_iff_toNat_le, narrow_toNat]
      exact le_trans (by decide) h.1
    have hsub : (t.narrow u - 32).toNat = u.toNat % 256 - 32 := by
      rw [UInt8.toNat_sub_of_le _ _ hle, narrow_toNat]
      rfl
    rw [ofChar_toNat (by rw [hsub]; have := h.2; omega), hsub]
  next => rfl

theorem toLower_toNat (u : t.ValueType) : (toLower u).toNat = if Capital u.toNat then u.toNat + 32 else u.toNat := by
  have hbits : 2 ^ 8 ≤ 2 ^ t.bits := Nat.pow_le_pow_right (by decide) t.bits_ge
  rw [toLower]
  split
  next h =>
    rw [BitVec.toNat_add, ofNat_thirtyTwo]
    exact Nat.mod_eq_of_lt (by have := h.2; omega)
  next => rfl

theorem toUpper_toNat (u : t.ValueType) : (toUpper u).toNat = if Small u.toNat then u.toNat - 32 else u.toNat := by
  rw [toUpper]
  split
  next h =>
    have hle : (32 : t.ValueType) ≤ u := by
      rw [BitVec.le_def, ofNat_thirtyTwo]
      exact le_trans (by decide) h.1
    rw [BitVec.toNat_sub_of_le hle, ofNat_thirtyTwo]
  next => rfl

/-- The fold of the code is the one of the ASCII letters, except for the strays. -/
theorem lower_eq_iff : t.lower u = toLower u ↔ ¬ StrayCapital u := by
  rw [← BitVec.toNat_inj, lower_toNat, toLower_toNat, StrayCapital]
  grind [Capital]

theorem upper_eq_iff : t.upper u = toUpper u ↔ ¬ StraySmall u := by
  rw [← BitVec.toNat_inj, upper_toNat, toUpper_toNat, StraySmall]
  grind [Small]

theorem lower_lower (u : t.ValueType) : t.lower (t.lower u) = t.lower u := by
  rw [← BitVec.toNat_inj, lower_toNat (t.lower u), lower_toNat u]
  grind [Capital]

theorem upper_upper (u : t.ValueType) : t.upper (t.upper u) = t.upper u := by
  rw [← BitVec.toNat_inj, upper_toNat (t.upper u), upper_toNat u]
  grind [Small]

theorem lower_upper (h : ¬ StraySmall u) : t.lower (t.upper u) = t.lower u := by
  rw [← BitVec.toNat_inj, lower_toNat (t.upper u), lower_toNat u, upper_toNat u]
  rw [StraySmall] at h
  grind [Capital, Small]

end Units

section Strings
variable {t : CharType} {str : List t.ValueType}

/-- The folds are the ones of the ASCII letters. -/
structure FoldsAscii (t : CharType) (str : List t.ValueType) : Prop where
  lower_length : (t.make_lower str).length = str.length
  upper_length : (t.make_upper str).length = str.length
  lower_unit : ∀ (i : ℕ) (u : t.ValueType), str[i]? = some u → (t.make_lower str)[i]? = some (toLower u)
  upper_unit : ∀ (i : ℕ) (u : t.ValueType), str[i]? = some u → (t.make_upper str)[i]? = some (toUpper u)
  lower_again : t.make_lower (t.make_lower str) = t.make_lower str
  upper_again : t.make_upper (t.make_upper str) = t.make_upper str
  lower_of_upper : t.make_lower (t.make_upper str) = t.make_lower str
  /-- A text without ASCII characters stays as it is. -/
  keeps : (∀ u ∈ str, 128 ≤ u.toNat) → t.make_lower str = str ∧ t.make_upper str = str

theorem make_lower_get (str : List t.ValueType) (i : ℕ) : (t.make_lower str)[i]? = str[i]?.map t.lower := List.getElem?_map

theorem make_upper_get (str : List t.ValueType) (i : ℕ) : (t.make_upper str)[i]? = str[i]?.map t.upper := List.getElem?_map

/-- The folds are right exactly for the strings without strays. -/
theorem foldsAscii_iff (t : CharType) (str : List t.ValueType) :
    FoldsAscii t str ↔ ∀ u ∈ str, ¬ StrayCapital u ∧ ¬ StraySmall u := by
  constructor
  · intro h u hu
    obtain ⟨i, hi⟩ := List.mem_iff_getElem?.mp hu
    have hlower := h.lower_unit i u hi
    have hupper := h.upper_unit i u hi
    rw [make_lower_get, hi] at hlower
    rw [make_upper_get, hi] at hupper
    exact ⟨lower_eq_iff.mp (Option.some.inj hlower), upper_eq_iff.mp (Option.some.inj hupper)⟩
  · intro h
    have hlower : ∀ u ∈ str, t.lower u = toLower u := fun u hu => lower_eq_iff.mpr (h u hu).1
    have hupper : ∀ u ∈ str, t.upper u = toUpper u := fun u hu => upper_eq_iff.mpr (h u hu).2
    refine ⟨List.length_map _, List.length_map _, ?_, ?_, ?_, ?_, ?_, ?_⟩
    · intro i u hi
      rw [make_lower_get, hi, Option.map_some, hlower u (List.mem_of_getElem? hi)]
    · intro i u hi
      rw [make_upper_get, hi, Option.map_some, hupper u (List.mem_of_getElem? hi)]
    · rw [CharType.make_lower, CharType.make_lower, List.map_map]
      exact List.map_congr_left fun u _ => lower_lower u
    · rw [CharType.make_upper, CharType.make_upper, List.map_map]
      exact List.map_congr_left fun u _ => upper_upper u
    · rw [CharType.make_lower, CharType.make_lower, CharType.make_upper, List.map_map]
      exact List.map_congr_left fun u hu => lower_upper (h u hu).2
    · intro hwide
      have hcapital : ∀ u ∈ str, ¬ Capital u.toNat := fun u hu hletter => absurd (hwide u hu) (by have := hletter.2; omega)
      have hsmall : ∀ u ∈ str, ¬ Small u.toNat := fun u hu hletter => absurd (hwide u hu) (by have := hletter.2; omega)
      have hkeep : ∀ f : t.ValueType → t.ValueType, (∀ u ∈ str, f u = u) → str.map f = str := fun f hf =>
        (List.map_congr_left hf).trans str.map_id
      exact ⟨hkeep t.lower fun u hu => (hlower u hu).trans (if_neg (hcapital u hu)),
        hkeep t.upper fun u hu => (hupper u hu).trans (if_neg (hsmall u hu))⟩

/-- The fold of the character U+0141 is the letter `a`. -/
theorem not_foldsAscii : ¬ FoldsAscii .u16 [0x0141] := by
  intro h
  exact absurd (h.lower_unit 0 0x0141 rfl) (by decide)

end Strings

section Comparison
variable {t : CharType} {a b : List t.ValueType} {u v : t.ValueType}

/-- The strings have the same length, and the same characters up to the case of ASCII letters. -/
def SameUpToCase {n : ℕ} (a b : List (BitVec n)) : Prop := List.Forall₂ (fun u v => toLower u = toLower v) a b

/-- `equals_ignore_case` with its default arguments holds of the strings that are the same up to case. -/
def EqualsUpToCase (t : CharType) (a b : List t.ValueType) : Prop :=
  equals_ignore_case t a b 0 (-1) = some true ↔ SameUpToCase a b

theorem forall₂_map_eq {α β : Type} {f : α → β} {a b : List α} :
    List.Forall₂ (fun u v => f u = f v) a b ↔ a.map f = b.map f := by
  rw [← List.forall₂_eq_eq_eq, List.forall₂_map_left_iff, List.forall₂_map_right_iff]

theorem forall₂_take_iff {α : Type} {R : α → α → Prop} {a b : List α} :
    List.Forall₂ R (a.take b.length) b ↔ b.length ≤ a.length ∧ ∀ p ∈ a.zip b, R p.1 p.2 := by
  have hzip : (a.take b.length).zip b = a.zip b := by
    have htake : (a.zip b).take b.length = (a.take b.length).zip (b.take b.length) := List.take_zipWith
    rw [List.take_length] at htake
    rw [← htake]
    exact List.take_of_length_le (by rw [List.length_zip]; exact Nat.min_le_right _ _)
  have hlen : (a.take b.length).length = b.length ↔ b.length ≤ a.length := by
    rw [List.length_take, min_eq_left_iff]
  rw [List.forall₂_iff_zip, hlen, hzip]
  exact and_congr_right fun _ => ⟨fun h p hp => h hp, fun h _ _ hp => h _ hp⟩

theorem sameUpToCase_equivalence (n : ℕ) : Equivalence (SameUpToCase (n := n)) where
  refl _ := forall₂_map_eq.mpr rfl
  symm h := forall₂_map_eq.mpr (forall₂_map_eq.mp h).symm
  trans h h' := forall₂_map_eq.mpr ((forall₂_map_eq.mp h).trans (forall₂_map_eq.mp h'))

theorem lower_of_toLower (h : toLower u = toLower v) : t.lower u = t.lower v := by
  have hcode := congrArg BitVec.toNat h
  rw [toLower_toNat, toLower_toNat] at hcode
  rw [← BitVec.toNat_inj, lower_toNat, lower_toNat]
  grind [Capital]

/-- Two units with the same fold are the same letter, unless one of them is a stray. -/
theorem toLower_of_lower (h : t.lower u = t.lower v) :
    toLower u = toLower v ↔ u = v ∨ ¬ StrayCapital u ∧ ¬ StrayCapital v := by
  have hcode := congrArg BitVec.toNat h
  rw [lower_toNat, lower_toNat] at hcode
  rw [← BitVec.toNat_inj, ← BitVec.toNat_inj, toLower_toNat, toLower_toNat, StrayCapital, StrayCapital]
  grind [Capital]

theorem lower_eq_lower_iff : t.lower u = t.lower v ↔ Alike u v := by
  rw [Alike, ← BitVec.toNat_inj, ← BitVec.toNat_inj, lower_toNat, lower_toNat]
  constructor
  · intro h
    by_cases hu : Capital (u.toNat % 256) <;> by_cases hv : Capital (v.toNat % 256)
    · exact .inr ⟨_, hu, .inl rfl, .inl (by simpa [hu, hv] using h.symm)⟩
    · exact .inr ⟨_, hu, .inl rfl, .inr (by simpa [hu, hv] using h.symm)⟩
    · exact .inr ⟨_, hv, .inr (by simpa [hu, hv] using h), .inl rfl⟩
    · exact .inl (by simpa [hu, hv] using h)
  · rintro (h | ⟨c, hc, hu, hv⟩)
    · rw [h]
    · have hread : ∀ w : t.ValueType, ReadAs c w →
          (if Capital (w.toNat % 256) then w.toNat % 256 + 32 else w.toNat) = c + 32 := by
        intro w hw
        rcases hw with hw | hw
        · rw [hw, if_pos hc]
        · have hsmall : ¬ Capital (w.toNat % 256) := by
            rw [hw]
            intro hletter
            have hge := hc.1
            have hle := hc.2
            have hletter := hletter.2
            omega
          rw [if_neg hsmall, hw]
      rw [hread u hu, hread v hv]

/-- The second string is compared with as much of the first one. -/
theorem equals_ignore_case_default (a b : List t.ValueType) :
    equals_ignore_case t a b 0 (-1) = some true ↔ b.length ≤ a.length ∧ ∀ p ∈ a.zip b, Alike p.1 p.2 := by
  rw [equals_ignore_case, if_neg (by decide), if_pos (by decide), compareZero, Int32.toInt_zero, Int.toNat_zero,
    if_neg (Nat.not_lt_zero _), Option.some_inj, decide_eq_true_eq, List.drop_zero, CharType.make_lower, CharType.make_lower,
    ← List.map_take, ← forall₂_map_eq, forall₂_take_iff]
  simp only [lower_eq_lower_iff]

theorem sameUpToCase_iff {a b : List t.ValueType} :
    SameUpToCase a b ↔ a.length = b.length ∧ ∀ p ∈ a.zip b, toLower p.1 = toLower p.2 := by
  rw [SameUpToCase, List.forall₂_iff_zip]
  exact and_congr_right fun _ => ⟨fun h p hp => h hp, fun h _ _ hp => h _ hp⟩

/-- The comparison is right, unless the first string begins like the second one and goes on, or has another unit
where one of them has a stray. -/
theorem equalsUpToCase_iff (t : CharType) (a b : List t.ValueType) : EqualsUpToCase t a b ↔ ¬ Mistaken a b := by
  rw [EqualsUpToCase, equals_ignore_case_default, sameUpToCase_iff]
  constructor
  · rintro h ⟨hle, halike, hdiffers⟩
    obtain ⟨hlen, hsame⟩ := h.mp ⟨hle, halike⟩
    rcases hdiffers with hlonger | ⟨p, hp, hne, hstray⟩
    · exact hlonger.ne' hlen
    · have hplain := (toLower_of_lower (lower_of_toLower (hsame p hp))).mp (hsame p hp)
      obtain ⟨hfirst, hsecond⟩ := hplain.resolve_left hne
      exact hstray.elim hfirst hsecond
  · intro hright
    constructor
    · rintro ⟨hle, halike⟩
      have hlen : a.length = b.length := by
        by_contra hne
        exact hright ⟨hle, halike, .inl (lt_of_le_of_ne hle (Ne.symm hne))⟩
      refine ⟨hlen, fun p hp => (toLower_of_lower (lower_eq_lower_iff.mpr (halike p hp))).mpr ?_⟩
      by_contra hstray
      obtain ⟨hne, hstray⟩ := not_or.mp hstray
      exact hright ⟨hle, halike, .inr ⟨p, hp, hne, not_and_or.mp hstray |>.imp not_not.mp not_not.mp⟩⟩
    · rintro ⟨hlen, hsame⟩
      exact ⟨hlen.ge, fun p hp => lower_eq_lower_iff.mp (lower_of_toLower (hsame p hp))⟩

/-- Among strings that are compared rightly the comparison is an equivalence. -/
theorem equals_equivalence {S : Set (List t.ValueType)} (h : ∀ a ∈ S, ∀ b ∈ S, EqualsUpToCase t a b) :
    Equivalence fun a b : S => equals_ignore_case t a.1 b.1 0 (-1) = some true where
  refl a := (h a.1 a.2 a.1 a.2).mpr ((sameUpToCase_equivalence t.bits).refl a.1)
  symm {a b} hab := (h b.1 b.2 a.1 a.2).mpr ((sameUpToCase_equivalence t.bits).symm ((h a.1 a.2 b.1 b.2).mp hab))
  trans {a b c} hab hbc := (h a.1 a.2 c.1 c.2).mpr
    ((sameUpToCase_equivalence t.bits).trans ((h a.1 a.2 b.1 b.2).mp hab) ((h b.1 b.2 c.1 c.2).mp hbc))

/-- A string is taken to equal its own beginning. -/
theorem not_equalsUpToCase : ¬ EqualsUpToCase .c8 ((chars "ab").map CharType.c8.ofChar) ((chars "a").map CharType.c8.ofChar) := by
  intro h
  exact absurd (h.mp (by decide)).length_eq (by decide)

end Comparison
end LibXpf.Xpfstring
