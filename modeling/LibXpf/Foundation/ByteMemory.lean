import Mathlib.Data.Nat.Basic
import Mathlib.Algebra.Order.Ring.Nat
import Mathlib.Tactic.Ring

/-! # Byte-addressed memory

Memory is a total map from addresses to bytes. Words of any width are read and
written in little-endian order. Every write states the addresses it leaves
alone, so a frame argument is a comparison of intervals.
-/
namespace LibXpf.ByteMemory

abbrev Memory := ℕ → UInt8

/-- The `w`-byte word at address `a`. -/
def load : ℕ → Memory → ℕ → ℕ
  | 0, _, _ => 0
  | w + 1, m, a => (m a).toNat + 256 * load w m (a + 1)

/-- Write the `w` low bytes of `v` at address `a`. -/
def store (w : ℕ) (m : Memory) (a v : ℕ) : Memory := fun x =>
  if a ≤ x ∧ x < a + w then UInt8.ofNat (v / 256 ^ (x - a)) else m x

/-- Set `n` bytes at `a` to `v`. -/
def fill (m : Memory) (a : ℕ) (v : UInt8) (n : ℕ) : Memory := fun x =>
  if a ≤ x ∧ x < a + n then v else m x

/-- Copy `n` bytes from `src` to `dst`. -/
def copy (m : Memory) (dst src n : ℕ) : Memory := fun x =>
  if dst ≤ x ∧ x < dst + n then m (src + (x - dst)) else m x

/-- A call of `memcpy`. -/
structure Memcpy where
  dst : ℕ
  src : ℕ
  len : ℕ

def Memcpy.run (c : Memcpy) (m : Memory) : Memory := copy m c.dst c.src c.len

variable {m m' : Memory} {a b w v n x src dst : ℕ}

/-- The two intervals `[a, a + w)` and `[b, b + n)` share no address. -/
def Apart (a w b n : ℕ) : Prop := a + w ≤ b ∨ b + n ≤ a

theorem Apart.symm (h : Apart a w b n) : Apart b n a w := h.elim Or.inr Or.inl

theorem store_outside (h : x < a ∨ a + w ≤ x) : store w m a v x = m x := by
  have hx : ¬ (a ≤ x ∧ x < a + w) := by omega
  simp only [store, hx, if_false]

theorem fill_outside {v : UInt8} (h : x < a ∨ a + n ≤ x) : fill m a v n x = m x := by
  have hx : ¬ (a ≤ x ∧ x < a + n) := by omega
  simp only [fill, hx, if_false]

theorem fill_inside {v : UInt8} {i : ℕ} (h : i < n) : fill m a v n (a + i) = v := by
  have hx : a ≤ a + i ∧ a + i < a + n := by omega
  simp only [fill, hx, and_self, if_true]

theorem copy_outside (h : x < dst ∨ dst + n ≤ x) : copy m dst src n x = m x := by
  have hx : ¬ (dst ≤ x ∧ x < dst + n) := by omega
  simp only [copy, hx, if_false]

theorem copy_inside {i : ℕ} (h : i < n) : copy m dst src n (dst + i) = m (src + i) := by
  have hx : dst ≤ dst + i ∧ dst + i < dst + n := by omega
  simp only [copy, hx, and_self, if_true, Nat.add_sub_cancel_left]

theorem load_congr (h : ∀ x, a ≤ x → x < a + w → m x = m' x) : load w m a = load w m' a := by
  induction w generalizing a with
  | zero => rfl
  | succ w ih =>
    have hhead : m a = m' a := h a le_rfl (by omega)
    have htail : load w m (a + 1) = load w m' (a + 1) :=
      ih (fun x hlo hhi => h x (by omega) (by omega))
    simp only [load, hhead, htail]

/-- Bytes that are the base-256 digits of `v` read back as `v`. -/
theorem load_digits (h : ∀ i, i < w → m (a + i) = UInt8.ofNat (v / 256 ^ i)) :
    load w m a = v % 256 ^ w := by
  induction w generalizing a v with
  | zero => simp [load, Nat.mod_one]
  | succ w ih =>
    have hhead : m a = UInt8.ofNat v := by simpa using h 0 (by omega)
    have htail : load w m (a + 1) = v / 256 % 256 ^ w := by
      apply ih
      intro i hi
      have hi' := h (i + 1) (by omega)
      rw [show a + (i + 1) = a + 1 + i by omega, pow_succ', ← Nat.div_div_eq_div_mul] at hi'
      exact hi'
    have hsplit : v % 256 ^ (w + 1) = v % 256 + 256 * (v / 256 % 256 ^ w) := by
      rw [pow_succ', Nat.mod_mul]
    simp only [load, hhead, htail, hsplit, UInt8.toNat_ofNat', Nat.reducePow]

theorem load_lt (w : ℕ) (m : Memory) (a : ℕ) : load w m a < 256 ^ w := by
  induction w generalizing a with
  | zero => simp [load]
  | succ w ih =>
    have hfirst := (m a).toNat_lt
    have hrest := ih (a + 1)
    rw [load, pow_succ]
    omega

/-- The base-256 digits of a word are its bytes. -/
theorem digit_load {i : ℕ} (h : i < w) : UInt8.ofNat (load w m a / 256 ^ i) = m (a + i) := by
  induction w generalizing a i with
  | zero => omega
  | succ w ih =>
    have hhead := (m a).toNat_lt
    cases i with
    | zero =>
      apply UInt8.toNat_inj.mp
      simp only [load, pow_zero, Nat.div_one, UInt8.toNat_ofNat', Nat.add_zero]
      omega
    | succ i =>
      have htail : load (w + 1) m a / 256 = load w m (a + 1) := by
        simp only [load]
        omega
      rw [pow_succ', ← Nat.div_div_eq_div_mul, htail, ih (Nat.lt_of_succ_lt_succ h), Nat.add_assoc, Nat.add_comm 1 i]

theorem load_store (hv : v < 256 ^ w) : load w (store w m a v) a = v := by
  rw [load_digits (v := v), Nat.mod_eq_of_lt hv]
  intro i hi
  have hx : a ≤ a + i ∧ a + i < a + w := by omega
  simp only [store, hx, and_self, if_true, Nat.add_sub_cancel_left]

theorem load_store_apart {u : ℕ} (h : Apart a w b u) : load u (store w m a v) b = load u m b :=
  load_congr (fun x hlo hhi => store_outside (by rcases h with h | h <;> omega))

theorem load_inj (h : load w m a = load w m' a) (hlo : a ≤ x) (hhi : x < a + w) : m x = m' x := by
  induction w generalizing a with
  | zero => omega
  | succ w ih =>
    simp only [load] at h
    have hfirst := (m a).toNat_lt
    have hfirst' := (m' a).toNat_lt
    rcases hlo.eq_or_lt with rfl | hlt
    · apply UInt8.toNat_inj.mp
      omega
    · have hrest : load w m (a + 1) = load w m' (a + 1) := by omega
      exact ih hrest hlt (by omega)

end LibXpf.ByteMemory
