import Mathlib.Data.List.GetD
import Mathlib.Data.Nat.Digits.Lemmas

/-! # Numerals from the most significant digit on

A numeral has no zero at its front, except that zero has one digit. It is what is left of
a fixed number of digits when the zeros at the front are dropped.
-/
namespace LibXpf.PositionalDigits

variable {b n k count : ℕ}

/-- The digits of a number, the most significant one first. -/
def numeral (b n : ℕ) : List ℕ := if n = 0 then [0] else (Nat.digits b n).reverse

theorem numeral_zero : numeral b 0 = [0] := if_pos rfl

theorem numeral_pos (h : n ≠ 0) : numeral b n = (Nat.digits b n).reverse := if_neg h

theorem numeral_lt (hb : 1 < b) {d : ℕ} (hd : d ∈ numeral b n) : d < b := by
  rw [numeral] at hd
  split at hd
  · rw [List.mem_singleton.mp hd]
    omega
  · exact Nat.digits_lt_base hb (List.mem_reverse.mp hd)

/-- A number other than zero has a numeral with another first digit. -/
theorem numeral_head (h : n ≠ 0) : ∃ d rest, numeral b n = d :: rest ∧ d ≠ 0 := by
  have hne : Nat.digits b n ≠ [] := Nat.digits_ne_nil_iff_ne_zero.mpr h
  have hlast := Nat.getLast_digit_ne_zero b h
  refine ⟨(Nat.digits b n).getLast hne, (Nat.digits b n).dropLast.reverse, ?_, hlast⟩
  conv_lhs => rw [numeral_pos h, ← List.dropLast_append_getLast hne, List.reverse_append]
  rfl

theorem numeral_ne_nil : numeral b n ≠ [] := by
  by_cases h : n = 0
  · rw [h, numeral_zero]
    exact List.cons_ne_nil 0 []
  · obtain ⟨d, rest, hnum, -⟩ := numeral_head (b := b) h
    rw [hnum]
    exact List.cons_ne_nil d rest

/-- The digits of a number in a base, with no zero at their front but for the number zero. -/
structure IsNumeral (b n : ℕ) (ds : List ℕ) : Prop where
  lt : ∀ d ∈ ds, d < b
  value : Nat.ofDigits b ds.reverse = n
  ne_nil : ds ≠ []
  head : ds.head? = some 0 → ds = [0]

theorem isNumeral_iff (hb : 1 < b) {ds : List ℕ} : IsNumeral b n ds ↔ ds = numeral b n := by
  constructor
  · intro h
    by_cases hzero : ds = [0]
    · have hn : n = 0 := by
        rw [← h.value, hzero]
        rfl
      rw [hzero, hn, numeral_zero]
    · obtain ⟨d, rest, rfl⟩ := List.exists_cons_of_ne_nil h.ne_nil
      have hd : d ≠ 0 := fun hd => hzero (h.head (congrArg some hd))
      have hdigits : Nat.digits b n = (d :: rest).reverse := by
        rw [← h.value]
        refine Nat.digits_ofDigits b hb _ (fun l hl => h.lt l (List.mem_reverse.mp hl)) fun _ => ?_
        rwa [List.getLast_reverse, List.head_cons]
      have hn : n ≠ 0 := by
        rintro rfl
        rw [Nat.digits_zero] at hdigits
        exact List.cons_ne_nil d rest (List.reverse_eq_nil_iff.mp hdigits.symm)
      rw [numeral_pos hn, hdigits, List.reverse_reverse]
  · rintro rfl
    refine ⟨fun d hd => numeral_lt hb hd, ?_, numeral_ne_nil, fun hhead => ?_⟩
    · by_cases hn : n = 0
      · rw [hn, numeral_zero]
        rfl
      · rw [numeral_pos hn, List.reverse_reverse, Nat.ofDigits_digits]
    · by_cases hn : n = 0
      · rw [hn, numeral_zero]
      · obtain ⟨d, rest, hnum, hd⟩ := numeral_head (b := b) hn
        rw [hnum] at hhead
        exact absurd (Option.some.inj hhead) hd

/-- A fixed number of digits. -/
def fixedDigits (b count n : ℕ) : List ℕ := (List.range count).map fun i => n / b ^ (count - (i + 1)) % b

theorem fixedDigits_eq (hb : 1 < b) (h : n < b ^ count) :
    fixedDigits b count n =
      List.replicate (count - (Nat.digits b n).length) 0 ++ (Nat.digits b n).reverse := by
  have hlen : (Nat.digits b n).length ≤ count := (Nat.digits_length_le_iff hb n).mpr h
  refine List.ext_getElem ?_ fun i hi hi' => ?_
  · simp only [fixedDigits, List.length_map, List.length_range, List.length_append, List.length_replicate,
      List.length_reverse]
    omega
  · have hcount : i < count := by simpa [fixedDigits] using hi
    have hdigit := Nat.getD_digits n (count - (i + 1)) hb
    simp only [fixedDigits, List.getElem_map, List.getElem_range]
    rw [← hdigit, List.getElem_append]
    split
    next hlt =>
      rw [List.length_replicate] at hlt
      rw [List.getElem_replicate, List.getD_eq_default _ _ (by omega)]
    next hge =>
      rw [List.length_replicate] at hge
      rw [List.getElem_reverse, List.getD_eq_getElem _ _ (by omega)]
      congr 1
      simp only [List.length_replicate]
      omega

/-- Dropping the zeros at the front of the fixed digits leaves the numeral. -/
theorem dropWhile_fixedDigits (hb : 1 < b) (hn : n ≠ 0) (h : n < b ^ count) :
    (fixedDigits b count n).dropWhile (· = 0) = numeral b n := by
  obtain ⟨d, rest, hnum, hd⟩ := numeral_head (b := b) hn
  rw [fixedDigits_eq hb h, ← numeral_pos hn, hnum, List.dropWhile_append_of_pos (by simp), List.dropWhile_cons_of_neg]
  simpa using hd

end LibXpf.PositionalDigits
