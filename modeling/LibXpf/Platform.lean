import Mathlib.Data.Nat.Bitwise
import Mathlib.Tactic.NormNum

/-! # Platform conventions of the library

Unsigned 32-bit values are natural numbers that the arithmetic reduces with
`u32`, and signed ones are integers that it reduces with `s32`. Pointers are addresses and `NULL` is address zero. A failed runtime
assertion stops the program with its message, as `xpfAssert` does unless
`NDEBUG` is defined.
-/
namespace LibXpf

/-- Reduction to the range of the 32-bit unsigned type. -/
def u32 (n : ℕ) : ℕ := n % 2 ^ 32

theorem u32_of_lt {n : ℕ} (h : n < 2 ^ 32) : u32 n = n := Nat.mod_eq_of_lt h

/-- Subtraction of 32-bit unsigned values. -/
def u32Sub (a b : ℕ) : ℕ := u32 (a + 2 ^ 32 - b)

theorem u32Sub_of_le {a b : ℕ} (hba : b ≤ a) (ha : a < 2 ^ 32) : u32Sub a b = a - b := by
  have hsplit : a + 2 ^ 32 - b = a - b + 2 ^ 32 := by omega
  rw [u32Sub, u32, hsplit, Nat.add_mod_right, Nat.mod_eq_of_lt (by omega)]

/-- Reduction to the range of the 32-bit signed type. -/
def s32 (z : ℤ) : ℤ := z.bmod (2 ^ 32)

theorem s32_of_mem {z : ℤ} (hlo : -2 ^ 31 ≤ z) (hhi : z < 2 ^ 31) : s32 z = z :=
  Int.bmod_eq_of_le (by omega) (by omega)

theorem s32_of_ge {z : ℤ} (hlo : 2 ^ 31 ≤ z) (hhi : z < 2 ^ 32 + 2 ^ 31) : s32 z = z - 2 ^ 32 := by
  have hwrap : (z - (2 ^ 32 : ℕ)).bmod (2 ^ 32) = z.bmod (2 ^ 32) := Int.sub_bmod_right z (2 ^ 32)
  rw [s32, ← hwrap]
  exact Int.bmod_eq_of_le (by omega) (by omega)

/-- Sizes are moved up to a multiple of eight by `((size >> 3) + 1) << 3`. -/
def upgradeToMultipleOf8 (size : ℕ) : ℕ :=
  if size &&& 0x7 ≠ 0 then u32 (((size >>> 3) + 1) <<< 3) else size

theorem upgradeToMultipleOf8_eq {size : ℕ} (h : size + 7 < 2 ^ 32) :
    upgradeToMultipleOf8 size = (size + 7) / 8 * 8 := by
  have hland : size &&& 0x7 = size % 8 := Nat.and_two_pow_sub_one_eq_mod size 3
  have hshift : ((size >>> 3) + 1) <<< 3 = (size / 8 + 1) * 8 := by
    rw [Nat.shiftRight_eq_div_pow, Nat.shiftLeft_eq]
  unfold upgradeToMultipleOf8
  rw [hland, hshift]
  split
  · rw [u32_of_lt (by omega)]
    omega
  · omega

def NULL : ℕ := 0

/-- Why a call does not return. -/
inductive Fault where
  | assertion (message : String)
  /-- A loop is still running when its iteration budget is spent. -/
  | diverges
  | nullDereference
  | useAfterFree
  /-- An index outside of the buffer it is used on. -/
  | outOfBounds
  deriving DecidableEq, Repr

def xpfAssert (message : String) (condition : Prop) [Decidable condition] : Except Fault Unit :=
  if condition then .ok () else .error (.assertion message)

theorem xpfAssert_ok {message : String} {condition : Prop} [Decidable condition]
    (h : condition) : xpfAssert message condition = .ok () := if_pos h

@[simp] theorem xpfAssert_true (message : String) : xpfAssert message True = .ok () := if_pos trivial

@[simp] theorem ok_bind {α β : Type} (a : α) (f : α → Except Fault β) :
    (Except.ok a >>= f) = f a := rfl

/-- A computation that returns has returned from both of its parts. -/
theorem ok_of_bind {ε α β : Type} {x : Except ε α} {f : α → Except ε β} {b : β}
    (h : x >>= f = .ok b) : ∃ a, x = .ok a ∧ f a = .ok b := by
  cases x with
  | error e => cases h
  | ok a => exact ⟨a, rfl, h⟩

theorem bind_of_ok {ε α β : Type} {x : Except ε α} {f : α → Except ε β} {a : α} (h : x = .ok a) : x >>= f = f a := by
  rw [h]
  rfl

theorem holds_of_xpfAssert {message : String} {condition : Prop} [Decidable condition] {u : Unit}
    (h : xpfAssert message condition = .ok u) : condition := by
  by_contra hnot
  rw [xpfAssert, if_neg hnot] at h
  cases h

@[simp] theorem pure_eq_ok {α : Type} (a : α) : (pure a : Except Fault α) = .ok a := rfl

/-- The type `char` is signed: its value in an expression. -/
def promote (ch : UInt8) : Int32 := ch.toInt8.toInt32

/-- What a `char` keeps of an `int`. -/
def toChar (v : Int32) : UInt8 := v.toInt8.toUInt8

/-- The code of an ASCII character. -/
def ascii (c : Char) : UInt8 := UInt8.ofNat c.toNat

/-- The codes of a text in the source. -/
def chars (s : String) : List UInt8 := s.toList.map ascii

theorem forall_byte {P : UInt8 → Prop} (h : ∀ hi < 16, ∀ lo < 16, P (UInt8.ofNat (16 * hi + lo)))
    (c : UInt8) : P c := by
  have hlt := c.toNat_lt
  have hc := h (c.toNat / 16) (by omega) (c.toNat % 16) (by omega)
  rwa [Nat.div_add_mod, UInt8.ofNat_toNat] at hc

theorem land_0x7FFFFFFF (n : ℕ) : n &&& 0x7FFFFFFF = n % 2 ^ 31 :=
  Nat.and_two_pow_sub_one_eq_mod n 31

theorem lor_0x80000000 {n : ℕ} (h : n < 2 ^ 31) : n ||| 0x80000000 = n + 2 ^ 31 := by
  have hor := Nat.two_pow_add_eq_or_of_lt h 1
  simp only [mul_one] at hor
  rw [Nat.or_comm, Nat.add_comm]
  exact hor.symm

theorem land_0x80000000_of_lt {n : ℕ} (h : n < 2 ^ 31) : n &&& 0x80000000 = 0 := by
  have hbit : n.testBit 31 = false := Nat.testBit_lt_two_pow h
  rw [show (0x80000000 : ℕ) = 2 ^ 31 by norm_num, Nat.and_two_pow, hbit]
  simp

theorem land_0x80000000_of_flag {n : ℕ} (h : n < 2 ^ 31) : (n + 2 ^ 31) &&& 0x80000000 ≠ 0 := by
  have hbit : (n + 2 ^ 31).testBit 31 = true := by
    rw [Nat.add_comm, Nat.testBit_two_pow_add_eq, Nat.testBit_lt_two_pow h]
    rfl
  rw [show (0x80000000 : ℕ) = 2 ^ 31 by norm_num, Nat.and_two_pow, hbit]
  norm_num

end LibXpf
