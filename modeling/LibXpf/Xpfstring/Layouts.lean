import LibXpf.Xpfstring.Printf
import Mathlib.Data.List.GetD

/-! # The layout over two types of characters

A layout of characters that are renamed is the renamed layout. Two types differ only where
the text of a zero is replaced by an empty one.
-/
namespace LibXpf.Xpfstring

section Counts
variable {width : ℤ} {size size' : ℕ}

theorem fillCount_of_lt (hlo : -2 ^ 31 ≤ width) (hhi : width < 2 ^ 31) (h : size < 2 ^ 31) :
    (fillCount width size).toNat = (width - size).toNat := by
  have hsize : s32 size = size := s32_of_mem (by omega) (by omega)
  rw [fillCount, hsize]
  split
  · rw [s32_of_mem (by omega) (by omega)]
  · omega

/-- A size that an `int` does not hold is taken for a negative number. -/
theorem fillCount_of_ge (hlo : -2 ^ 31 ≤ width) (hhi : width < 2 ^ 31) (h : 2 ^ 31 ≤ size) (hsize : size < 2 ^ 32) :
    (fillCount width size).toNat =
      if (size : ℤ) - 2 ^ 32 < width ∧ width < size - 2 ^ 31 then (width - (size - 2 ^ 32)).toNat else 0 := by
  have hwrap : s32 size = size - 2 ^ 32 := s32_of_ge (by omega) (by omega)
  rw [fillCount, hwrap]
  split
  next hfill =>
    by_cases hshort : width < size - 2 ^ 31
    · rw [if_pos ⟨hfill, hshort⟩, s32_of_mem (by omega) (by omega)]
    · rw [if_neg fun hcase => hshort hcase.2, s32_of_ge (by omega) (by omega)]
      omega
  next hfill => rw [if_neg fun hcase => hfill hcase.1, Int.toNat_zero]

/-- A longer text is not filled up to a shorter one. -/
theorem fillCount_mono (hlo : -2 ^ 31 ≤ width) (hhi : width < 2 ^ 31) (h : size ≤ size') (hsize : size < 2 ^ 31) :
    size + (fillCount width size).toNat ≤ size' + (fillCount width size').toNat := by
  rw [fillCount_of_lt hlo hhi hsize]
  by_cases hsize' : size' < 2 ^ 31
  · rw [fillCount_of_lt hlo hhi hsize']
    omega
  · omega

end Counts

section Renaming
variable {α β : Type} {f : α → β} {ch : UInt8 → α} {keeps : Bool} {flag : Flags} {c : UInt8} {neg : Bool} {s : List α}

theorem assign_map (str : List α) (text : List UInt8) :
    assign (f ∘ ch) keeps (str.map f) text = (assign ch keeps str text).map f := by
  rw [assign, assign]
  split
  · rw [List.map_append, List.map_map]
  · rw [List.map_map]

theorem isZero_map (hf : Function.Injective f) : isZero (f ∘ ch) (s.map f) ↔ isZero ch s := by
  rw [isZero, isZero, Function.comp_apply, Function.comp_apply, List.getD_map, List.getD_map, hf.eq_iff, hf.eq_iff]

theorem prefixText_map : prefixText (f ∘ ch) keeps flag c neg = (prefixText ch keeps flag c neg).map f := by
  simp only [prefixText, assign_nil, Function.comp_apply, List.map_append, apply_ite (List.map f), List.map_cons,
    List.map_nil, List.map_map]

theorem substr_map (s : List α) (len : ℤ) : substr (s.map f) len = (substr s len).map f := by
  rw [substr, substr]
  split
  · rfl
  · rw [List.map_take]

theorem dropSign_map : dropSign neg (s.map f) = (dropSign neg s).map f := by
  rw [dropSign, dropSign]
  split
  · rw [List.map_drop]
  · rfl

variable [DecidableEq α] [DecidableEq β]

theorem plainLayout_map (hf : Function.Injective f) :
    plainLayout (f ∘ ch) flag c neg (s.map f) = (plainLayout ch flag c neg s).map f := by
  simp only [plainLayout, isZero_map hf, Function.comp_apply, List.mem_map_of_injective hf, List.map_append,
    apply_ite (List.map f), List.map_cons, List.map_nil]

theorem idxOf_map (hf : Function.Injective f) (s : List α) (a : α) : (s.map f).idxOf (f a) = s.idxOf a := by
  rw [List.idxOf, List.idxOf, List.findIdx_map]
  congr 1
  funext b
  rw [Function.comp_apply, Bool.eq_iff_iff, beq_iff_eq, beq_iff_eq, hf.eq_iff]

theorem floatPercision_map (hf : Function.Injective f) (s : List α) (percision : ℤ) :
    floatPercision (f ∘ ch) flag percision (s.map f) = (floatPercision ch flag percision s).map f := by
  simp only [floatPercision, Function.comp_apply, List.mem_map_of_injective hf, idxOf_map hf, List.length_map,
    List.map_append, apply_ite (List.map f), List.map_cons, List.map_nil, List.map_replicate, substr_map]

theorem percisionText_map (hf : Function.Injective f) (percision : ℤ) :
    percisionText (f ∘ ch) keeps flag percision c neg (s.map f) =
      (percisionText ch keeps flag percision c neg s).map f := by
  simp only [percisionText, dropSign_map, isZero_map hf, prefixText_map, floatPercision_map hf, assign_map,
    Function.comp_apply, List.map_append, apply_ite (List.map f), List.map_replicate, List.length_map]

theorem layout_map (hf : Function.Injective f) (width percision : ℤ) :
    layout (f ∘ ch) keeps flag width percision c (s.map f) = (layout ch keeps flag width percision c s).map f := by
  have hneg : (s.map f).getD 0 (f (ch 0)) = f (ch (ascii '-')) ↔ s.getD 0 (ch 0) = ch (ascii '-') := by
    rw [List.getD_map, hf.eq_iff]
  simp only [layout, dropSign_map, Function.comp_apply, hneg, plainLayout_map hf, percisionText_map hf, prefixText_map,
    List.length_map, List.map_append, apply_ite (List.map f), List.map_replicate]

/-- The layout over any type is the layout of the bytes. -/
theorem layout_text (t : CharType) (flag : Flags) (width percision : ℤ) (c : UInt8) (s : List UInt8) :
    layout t.ofChar t.keeps flag width percision c (s.map t.ofChar) =
      (layout id t.keeps flag width percision c s).map t.ofChar :=
  layout_map t.ofChar_injective width percision

end Renaming

section Keeping
variable {flag : Flags} {c : UInt8} {neg : Bool} {s : List UInt8} {width percision : ℤ}

/-- The text of a zero vanishes for the percision zero. -/
def Vanishes (flag : Flags) (percision : ℤ) (c : UInt8) (s : List UInt8) : Prop :=
  flag.PERCISION_SPECIFIED ∧ percision = 0 ∧ ¬ isFloat c ∧ isZero id s

theorem prefixText_keeps : prefixText id true flag c neg = prefixText id false flag c neg := by
  simp only [prefixText, assign_nil]

/-- Where no text vanishes, it does not matter what an assignment does. -/
theorem layout_keeps (h : ¬ Vanishes flag percision c s) :
    layout id true flag width percision c s = layout id false flag width percision c s := by
  have hpercision : flag.PERCISION_SPECIFIED →
      ∀ neg, percisionText id true flag percision c neg s = percisionText id false flag percision c neg s := by
    intro hflag neg
    have hcase : ¬ (¬ isFloat c ∧ percision = 0 ∧ isZero id s) := fun hz => h ⟨hflag, hz.2.1, hz.1, hz.2.2⟩
    simp only [percisionText, if_neg hcase, prefixText_keeps]
  simp only [layout, prefixText_keeps]
  split
  · rfl
  · split
    next hflag => rw [hpercision hflag]
    · rfl

theorem percisionText_vanishes (neg : Bool) (h : Vanishes flag percision c s) :
    percisionText id true flag percision c neg s = s ++ percisionText id false flag percision c neg s ∧
      ascii '0' ∉ percisionText id false flag percision c neg s ∧
      (percisionText id false flag percision c neg s).length ≤ 1 := by
  have hcase : ¬ isFloat c ∧ percision = 0 ∧ isZero id s := ⟨h.2.2.1, h.2.1, h.2.2.2⟩
  have hkeep : assign id true s [] = s := List.append_nil s
  have hclear : assign id false s [] = [] := rfl
  have hplus : ∀ r, assign id true s r = s ++ r := fun r => by rw [assign, if_pos rfl, List.map_id]
  have hmark : ∀ r, assign id false [] r = r := fun r => by rw [assign_nil, List.map_id]
  simp only [percisionText, if_pos hcase, hkeep, hclear, hplus, hmark]
  split_ifs
  · exact ⟨rfl, by decide, le_rfl⟩
  · exact ⟨rfl, by decide, le_rfl⟩
  · exact ⟨(List.append_nil s).symm, List.not_mem_nil, Nat.zero_le _⟩
  · exact ⟨(List.append_nil s).symm, List.not_mem_nil, Nat.zero_le _⟩

/-- Where it does, the layout of the other types is not shorter, and it is another one. -/
theorem layout_vanishes (hlo : -2 ^ 31 ≤ width) (hhi : width < 2 ^ 31) (h : Vanishes flag percision c s) :
    (layout id false flag width percision c s).length ≤ (layout id true flag width percision c s).length ∧
      layout id false flag width percision c s ≠ layout id true flag width percision c s := by
  have hcase : ¬ (¬ flag.WIDTH_SPECIFIED = true ∧ ¬ flag.PERCISION_SPECIFIED = true) := fun hn => hn.2 h.1
  have hhead : ascii '0' ∈ s := by
    have hzero := h.2.2.2.1
    cases s with
    | nil => exact absurd hzero (by decide)
    | cons d rest =>
      have hd : d = ascii '0' := hzero
      rw [hd]
      exact List.mem_cons_self
  have hblank : ∀ n, ascii '0' ∉ List.replicate n (ascii ' ') := by
    intro n hmem
    exact absurd (List.eq_of_mem_replicate hmem) (by decide)
  simp only [layout, if_neg hcase, if_pos h.1, id_eq]
  generalize decide (s.getD 0 0 = ascii '-') = neg
  obtain ⟨htrue, hfalse, hshort⟩ := percisionText_vanishes neg h
  generalize percisionText id false flag percision c neg s = x at htrue hfalse hshort
  rw [htrue]
  have hmem : ascii '0' ∈ s ++ x := List.mem_append_left x hhead
  have hlonger : x.length ≤ (s ++ x).length := (List.suffix_append s x).length_le
  have hfill := fillCount_mono hlo hhi hlonger (by omega)
  split
  · refine ⟨?_, fun heq => ?_⟩
    · simp only [List.length_append, List.length_replicate] at hfill ⊢
      omega
    · have hx : ascii '0' ∈ x ++ List.replicate (fillCount width x.length).toNat (ascii ' ') := by
        rw [heq]
        exact List.mem_append_left _ hmem
      exact (List.mem_append.mp hx).elim hfalse (hblank _)
  · refine ⟨?_, fun heq => ?_⟩
    · simp only [List.length_append, List.length_replicate] at hfill ⊢
      omega
    · have hx : ascii '0' ∈ List.replicate (fillCount width x.length).toNat (ascii ' ') ++ x := by
        rw [heq]
        exact List.mem_append_right _ hmem
      exact (List.mem_append.mp hx).elim (hblank _) hfalse

end Keeping
end LibXpf.Xpfstring
