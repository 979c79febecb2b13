import LibXpf.Platform
import Mathlib.Data.Nat.Size
import Mathlib.Data.Set.Function
import Mathlib.Order.Basic
import Mathlib.Tactic.IntervalCases

/-! # Thread IDs converted to a value type

A comparator over a value type, given two keys, compares what the keys become as
values of that type. An integral type keeps the low bits of a 64-bit ID, and a
floating type its leading ones, rounded to nearest with ties to even.
-/
namespace LibXpf.Tls

abbrev ThreadID := UInt64

/-- The arithmetic types a 64-bit ID converts to: how many bits an integral type
has, or how many a floating type has in its significand. -/
inductive ValueType where
  | unsigned (bits : ℕ)
  | signed (bits : ℕ)
  | floating (precision : ℕ)
  deriving DecidableEq, Repr

/-- `n` with `precision` leading bits, rounded to nearest, ties to even. -/
def roundToPrecision (precision n : ℕ) : ℕ :=
  let ulp := 2 ^ (Nat.size n - precision)
  let q := n / ulp
  let r := n % ulp
  if 2 * r > ulp ∨ 2 * r = ulp ∧ q % 2 = 1 then (q + 1) * ulp else q * ulp

namespace ValueType

/-- The value that an ID converts to. -/
def convert : ValueType → ThreadID → ℤ
  | unsigned bits, tid => tid.toNat % 2 ^ bits
  | signed bits, tid => (tid.toNat : ℤ).bmod (2 ^ bits)
  | floating precision, tid => roundToPrecision precision tid.toNat

/-- Types that tell any two IDs apart. -/
def Wide : ValueType → Prop
  | unsigned bits => 64 ≤ bits
  | signed bits => 64 ≤ bits
  | floating precision => 64 ≤ precision

end ValueType

theorem roundToPrecision_of_size {precision n : ℕ} (h : Nat.size n ≤ precision) :
    roundToPrecision precision n = n := by
  have hulp : 2 ^ (Nat.size n - precision) = 1 := by rw [Nat.sub_eq_zero_of_le h, pow_zero]
  simp only [roundToPrecision, hulp, Nat.div_one, Nat.mod_one, mul_one]
  norm_num

/-- One more than a power of two beyond the precision is a tie, and rounds down. -/
theorem roundToPrecision_tie {precision : ℕ} (h : 2 ≤ precision) :
    roundToPrecision precision (2 ^ precision + 1) = roundToPrecision precision (2 ^ precision) := by
  obtain ⟨k, rfl⟩ : ∃ k, precision = k + 2 := ⟨precision - 2, by omega⟩
  have hpow : 2 ^ (k + 2) = 2 ^ k * 4 := pow_add 2 k 2
  have hpos : 0 < 2 ^ k := Nat.two_pow_pos k
  have hsize : Nat.size (2 ^ (k + 2)) = k + 3 := Nat.size_pow
  have hsize' : Nat.size (2 ^ (k + 2) + 1) = k + 3 := by
    apply le_antisymm
    · apply Nat.size_le.mpr
      rw [show k + 3 = k + 2 + 1 by omega, pow_succ 2 (k + 2)]
      omega
    · rw [← hsize]
      exact Nat.size_le_size (Nat.le_succ _)
  have hulp : 2 ^ (k + 3 - (k + 2)) = 2 := by rw [show k + 3 - (k + 2) = 1 by omega, pow_one]
  have hdown : ¬ (2 * (2 ^ (k + 2) % 2) > 2 ∨ 2 * (2 ^ (k + 2) % 2) = 2 ∧ 2 ^ (k + 2) / 2 % 2 = 1) := by
    omega
  have hdown' : ¬ (2 * ((2 ^ (k + 2) + 1) % 2) > 2 ∨
      2 * ((2 ^ (k + 2) + 1) % 2) = 2 ∧ (2 ^ (k + 2) + 1) / 2 % 2 = 1) := by
    omega
  simp only [roundToPrecision, hsize, hsize', hulp, if_neg hdown, if_neg hdown']
  omega

theorem toNat_size_le (tid : ThreadID) : Nat.size tid.toNat ≤ 64 := Nat.size_le.mpr tid.toNat_lt

theorem convert_injective_of_wide {K : ValueType} (h : K.Wide) : Function.Injective K.convert := by
  intro s t heq
  have hs := s.toNat_lt
  have ht := t.toNat_lt
  apply UInt64.toNat_inj.mp
  cases K with
  | unsigned bits =>
    have hpow : 2 ^ 64 ≤ 2 ^ bits := Nat.pow_le_pow_right (by omega) h
    simp only [ValueType.convert] at heq
    rw [← Nat.mod_eq_of_lt (hs.trans_le hpow), ← Nat.mod_eq_of_lt (ht.trans_le hpow)]
    exact_mod_cast heq
  | signed bits =>
    have hpow : 2 ^ 64 ≤ 2 ^ bits := Nat.pow_le_pow_right (by omega) h
    simp only [ValueType.convert] at heq
    have hmod : ((s.toNat : ℤ)) % ((2 ^ bits : ℕ) : ℤ) = (t.toNat : ℤ) % ((2 ^ bits : ℕ) : ℤ) := by
      rw [← Int.bmod_emod, heq, Int.bmod_emod]
    rw [← Nat.mod_eq_of_lt (hs.trans_le hpow), ← Nat.mod_eq_of_lt (ht.trans_le hpow)]
    exact_mod_cast hmod
  | floating precision =>
    have hs' := roundToPrecision_of_size ((toNat_size_le s).trans h)
    have ht' := roundToPrecision_of_size ((toNat_size_le t).trans h)
    simp only [ValueType.convert, hs', ht'] at heq
    exact_mod_cast heq

theorem convert_collides {K : ValueType} (h : ¬ K.Wide) :
    ∃ s t : ThreadID, s ≠ 0 ∧ t ≠ 0 ∧ s ≠ t ∧ K.convert s = K.convert t := by
  have hid : ∀ n : ℕ, 0 < n → n < 2 ^ 64 → (UInt64.ofNat n).toNat = n ∧ UInt64.ofNat n ≠ 0 := by
    intro n hpos hlt
    have htoNat : (UInt64.ofNat n).toNat = n := UInt64.toNat_ofNat_of_lt hlt
    refine ⟨htoNat, ?_⟩
    intro hzero
    rw [hzero] at htoNat
    exact hpos.ne htoNat
  -- two numbers in range that a conversion takes for one
  have hpair : ∀ m n : ℕ, 0 < m → 0 < n → m ≠ n → m < 2 ^ 64 → n < 2 ^ 64 →
      (∀ s t : ThreadID, s.toNat = m → t.toNat = n → K.convert s = K.convert t) →
        ∃ s t : ThreadID, s ≠ 0 ∧ t ≠ 0 ∧ s ≠ t ∧ K.convert s = K.convert t := by
    intro m n hm hn hmn hm64 hn64 hsame
    obtain ⟨hmid, hm0⟩ := hid m hm hm64
    obtain ⟨hnid, hn0⟩ := hid n hn hn64
    refine ⟨UInt64.ofNat m, UInt64.ofNat n, hm0, hn0, ?_, hsame _ _ hmid hnid⟩
    intro heq
    exact hmn (by rw [← hmid, heq, hnid])
  cases K with
  | unsigned bits =>
    have hlt : bits < 64 := not_le.mp h
    have hpow : 2 ^ bits ≤ 2 ^ 63 := Nat.pow_le_pow_right (by omega) (by omega)
    have hpos : 0 < 2 ^ bits := Nat.two_pow_pos bits
    refine hpair 1 (1 + 2 ^ bits) (by omega) (by omega) (by omega) (by norm_num) (by omega) ?_
    intro s t hs ht
    simp only [ValueType.convert, hs, ht]
    push_cast
    rw [Int.add_emod_right]
  | signed bits =>
    have hlt : bits < 64 := not_le.mp h
    have hpow : 2 ^ bits ≤ 2 ^ 63 := Nat.pow_le_pow_right (by omega) (by omega)
    have hpos : 0 < 2 ^ bits := Nat.two_pow_pos bits
    refine hpair 1 (1 + 2 ^ bits) (by omega) (by omega) (by omega) (by norm_num) (by omega) ?_
    intro s t hs ht
    simp only [ValueType.convert, hs, ht, Nat.cast_add]
    rw [Int.add_bmod_right]
  | floating precision =>
    have hlt : precision < 64 := not_le.mp h
    rcases Nat.lt_or_ge precision 2 with hsmall | hge
    · have hsame : roundToPrecision precision (2 * precision + 1) =
          roundToPrecision precision (2 * precision + 2) := by
        interval_cases precision <;> decide
      refine hpair (2 * precision + 1) (2 * precision + 2) (by omega) (by omega) (by omega) (by omega)
        (by omega) ?_
      intro s t hs ht
      simp only [ValueType.convert, hs, ht, hsame]
    · have hpow : 2 ^ precision ≤ 2 ^ 63 := Nat.pow_le_pow_right (by omega) (by omega)
      have hpos : 0 < 2 ^ precision := Nat.two_pow_pos precision
      refine hpair (2 ^ precision + 1) (2 ^ precision) (by omega) hpos (by omega) (by omega) (by omega) ?_
      intro s t hs ht
      simp only [ValueType.convert, hs, ht, roundToPrecision_tie hge]

theorem convert_injective_iff (K : ValueType) : Function.Injective K.convert ↔ K.Wide := by
  refine ⟨?_, convert_injective_of_wide⟩
  intro hinj
  by_contra hnarrow
  obtain ⟨s, t, -, -, hne, heq⟩ := convert_collides hnarrow
  exact hne (hinj heq)

end LibXpf.Tls
