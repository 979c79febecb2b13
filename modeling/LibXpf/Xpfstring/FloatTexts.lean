import LibXpf.Xpfstring.Numerals
import Mathlib.Algebra.Order.Field.Basic
import Mathlib.Data.Rat.Cast.Order

/-! # Doubles as strings

The constructor for doubles writes the text of `%0.6f` into a buffer of 128 characters. The
digits in front of the point are as many as the value has, which are up to 309.
-/
namespace LibXpf.Xpfstring

/-- The value of a double that is finite. -/
def F64.value : F64 → Option ℚ
  | .finite negative mantissa exponent _ => some ((if negative then -1 else 1) * (mantissa * 2 ^ exponent))
  | .infinite _ => none
  | .nan _ => none

/-- The text and its null fit into the buffer. -/
def F64.Fits (val : F64) : Prop := val.sprintf.length + 1 ≤ 128

instance (val : F64) : Decidable val.Fits := inferInstanceAs (Decidable (_ ≤ _))

section Digits
variable {n k : ℕ}

theorem length_decimalDigits_le (hk : 0 < k) : (decimalDigits n).length ≤ k ↔ n < 10 ^ k := by
  rw [decimalDigits, List.length_map, Nat.length_toDigits_le_iff (by decide) hk]

theorem length_fraction (n : ℕ) : ((decimalDigits (n % 10 ^ 6)).leftpad 6 (ascii '0')).length = 6 := by
  have hle : (decimalDigits (n % 10 ^ 6)).length ≤ 6 :=
    (length_decimalDigits_le (by decide)).mpr (Nat.mod_lt _ (by decide))
  rw [List.length_leftpad, max_eq_left hle]

theorem length_signText (negative : Bool) : (signText negative).length = negative.toNat := by
  cases negative <;> rfl

/-- The text fits if there are no more than 126 digits with the sign. -/
theorem fits_iff_millionths {negative : Bool} {mantissa : ℕ} {exponent : ℤ}
    {range : mantissa < 2 ^ 53 ∧ -1074 ≤ exponent ∧ exponent ≤ 971} :
    (F64.finite negative mantissa exponent range).Fits ↔ millionths mantissa exponent < 10 ^ (126 - negative.toNat) := by
  have hpoint : (chars ".").length = 1 := rfl
  have hsign : negative.toNat ≤ 1 := Bool.toNat_le negative
  have hsplit : 10 ^ (126 - negative.toNat) = 10 ^ (120 - negative.toNat) * 10 ^ 6 := by
    rw [← pow_add]
    congr 1
    omega
  rw [F64.Fits, F64.sprintf, List.length_append, List.length_append, List.length_append, length_signText, length_fraction,
    hpoint, hsplit, ← Nat.div_lt_iff_lt_mul (by decide), ← length_decimalDigits_le (by omega)]
  omega

end Digits

section Magnitudes
variable {mantissa k : ℕ} {exponent : ℤ}

theorem roundedDiv_le (n d : ℕ) : roundedDiv n d ≤ n / d + 1 := by
  rw [roundedDiv]
  split <;> omega

/-- For a bound beyond the mantissas the digits of the fraction do not matter. -/
theorem millionths_lt_iff (hmantissa : mantissa < 2 ^ 53) (hk : 16 ≤ k) :
    millionths mantissa exponent < 10 ^ (k + 6) ↔ (mantissa * 2 ^ exponent : ℚ) < 10 ^ k := by
  have hsplit : 10 ^ (k + 6) = 10 ^ k * 10 ^ 6 := pow_add 10 k 6
  rw [hsplit]
  cases exponent with
  | ofNat e =>
    rw [millionths, Nat.mul_lt_mul_right (by decide), Int.ofNat_eq_natCast, zpow_natCast]
    exact_mod_cast Iff.rfl
  | negSucc e =>
    have hpow : 10 ^ 16 ≤ 10 ^ k := Nat.pow_le_pow_right (by decide) hk
    have hdiv : mantissa * 10 ^ 6 / 2 ^ (e + 1) ≤ mantissa * 10 ^ 6 := Nat.div_le_self _ _
    have hround := roundedDiv_le (mantissa * 10 ^ 6) (2 ^ (e + 1))
    refine iff_of_true ?_ ?_
    · rw [millionths]
      omega
    · have hsmall : (2 : ℚ) ^ Int.negSucc e ≤ 1 := zpow_le_one_of_nonpos₀ (by norm_num) (Int.negSucc_lt_zero e).le
      have hmantissa' : (mantissa : ℚ) < 10 ^ k := by
        have hlt : mantissa < 10 ^ k := hmantissa.trans_le (le_trans (by decide) hpow)
        exact_mod_cast hlt
      exact (mul_le_of_le_one_right (Nat.cast_nonneg mantissa) hsmall).trans_lt hmantissa'

end Magnitudes

/-- The text of a finite double fits exactly between the powers of ten that have one digit too many. -/
theorem fits_iff (t : CharType) (val : F64) :
    ∀ v ∈ val.value, (val.Fits ↔ -10 ^ 119 < v ∧ v < 10 ^ 120) ∧ (val.Fits ↔ ∃ str, ofF64 t val = .ok str) := by
  intro v hv
  constructor
  · cases val with
    | finite negative mantissa exponent range =>
      obtain rfl := Option.some.inj hv
      have hnonneg : (0 : ℚ) ≤ mantissa * 2 ^ exponent := mul_nonneg (Nat.cast_nonneg _) (zpow_nonneg (by norm_num) _)
      cases negative with
      | false =>
        rw [fits_iff_millionths, Bool.toNat_false, millionths_lt_iff range.1 (by decide)]
        simp only [Bool.false_eq_true, if_false, one_mul]
        exact (and_iff_right (lt_of_lt_of_le (by norm_num) hnonneg)).symm
      | true =>
        rw [fits_iff_millionths, Bool.toNat_true, millionths_lt_iff range.1 (by decide)]
        simp only [if_true, neg_one_mul, neg_lt_neg_iff]
        exact (and_iff_left (lt_of_le_of_lt (neg_nonpos.mpr hnonneg) (by norm_num))).symm
    | infinite negative => cases hv
    | nan negative => cases hv
  · rw [F64.Fits, ofF64, Nat.succ_le_iff]
    split
    next h => exact iff_of_true h ⟨_, rfl⟩
    next h => exact iff_of_false h (by rintro ⟨str, ⟨⟩⟩)

theorem fits_iff_half : (F64.finite true 5 (-1) (by decide)).Fits :=
  (fits_iff .c8 (.finite true 5 (-1) (by decide)) _ rfl).1.mpr ⟨by norm_num, by norm_num⟩

/-- The greatest double has 309 digits in front of the point. -/
theorem not_fits : ¬ ∀ val : F64, ∀ v ∈ val.value, val.Fits := by
  intro h
  have hgreatest := h (.finite false (2 ^ 53 - 1) 971 (by decide)) _ rfl
  rw [fits_iff_millionths] at hgreatest
  exact absurd hgreatest (by decide +kernel)

end LibXpf.Xpfstring
