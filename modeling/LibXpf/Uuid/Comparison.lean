import LibXpf.Foundation.ByteMemory
import Mathlib.Order.Basic
import Mathlib.Data.List.FinRange
import Mathlib.Tactic.Tauto

/-! # Comparing UUIDs

`operator<` returns at the first word that is smaller and goes on when a word is
larger. It holds as soon as some word is smaller, so it is an order among UUIDs
whose words compare all in the same direction, and not beyond.
-/
namespace LibXpf
open ByteMemory

section Components

variable {ι α : Type*} [LinearOrder α] {a b c : ι → α}

/-- Some component of `a` is below that of `b`. -/
def SomeBelow (a b : ι → α) : Prop := ∃ i, a i < b i

theorem someBelow_iff : SomeBelow a b ↔ ¬ b ≤ a := by
  simp only [SomeBelow, Pi.le_def, not_forall, not_le]

/-- Exactly one of three propositions holds. -/
def ExactlyOne (p q r : Prop) : Prop := (p ∧ ¬ q ∧ ¬ r) ∨ (¬ p ∧ q ∧ ¬ r) ∨ (¬ p ∧ ¬ q ∧ r)

instance (p q r : Prop) [Decidable p] [Decidable q] [Decidable r] : Decidable (ExactlyOne p q r) :=
  inferInstanceAs (Decidable (_ ∨ _))

theorem exactlyOne_iff_comparable :
    ExactlyOne (SomeBelow a b) (SomeBelow b a) (a = b) ↔ a ≤ b ∨ b ≤ a := by
  have hantisymm : a = b ↔ a ≤ b ∧ b ≤ a := le_antisymm_iff
  rw [ExactlyOne, someBelow_iff, someBelow_iff, hantisymm]
  tauto

/-- Below a comparable one, `SomeBelow` is transitive. -/
theorem SomeBelow.trans_of_comparable (hcomp : a ≤ b ∨ b ≤ a) (hab : SomeBelow a b)
    (hbc : SomeBelow b c) : SomeBelow a c := by
  have hle : a ≤ b := hcomp.resolve_right (someBelow_iff.mp hab)
  obtain ⟨i, hi⟩ := hbc
  exact ⟨i, (hle i).trans_lt hi⟩

end Components

structure Uuid where
  mOctet : Vector UInt8 16
  deriving DecidableEq

namespace Uuid

variable {a b c : Uuid}

/-- The octets as memory, from address zero. -/
def memory (u : Uuid) : Memory := fun k => u.mOctet[k]?.getD 0

/-- `*(unsigned int*)&mOctet[i * 4]`. -/
def word (u : Uuid) (i : Fin 4) : ℕ := load 4 u.memory (i * 4)

/-- `operator<`: the loop returns at the first word that is smaller. -/
def operatorLess (a b : Uuid) : Bool := (List.finRange 4).any fun i => a.word i < b.word i

/-- `operator==`: the loop returns at the first word that differs. -/
def operatorEq (a b : Uuid) : Bool := (List.finRange 4).all fun i => a.word i = b.word i

theorem operatorLess_iff : a.operatorLess b = true ↔ SomeBelow a.word b.word := by
  simp only [operatorLess, List.any_eq_true, List.mem_finRange, true_and, decide_eq_true_eq, SomeBelow]

theorem operatorEq_iff_word : a.operatorEq b = true ↔ a.word = b.word := by
  simp only [operatorEq, List.all_eq_true, List.mem_finRange, forall_const, decide_eq_true_eq,
    funext_iff]

theorem operatorEq_iff : a.operatorEq b = true ↔ a = b := by
  rw [operatorEq_iff_word]
  constructor
  · intro hword
    have hoctet : a.mOctet = b.mOctet := by
      ext k hk
      have hload : a.word ⟨k / 4, by omega⟩ = b.word ⟨k / 4, by omega⟩ := congrFun hword _
      have hbyte := load_inj hload (x := k) (by dsimp only; omega) (by dsimp only; omega)
      simpa only [memory, Vector.getElem?_eq_getElem hk, Option.getD_some,
        UInt8.toNat_inj] using congrArg UInt8.toNat hbyte
    cases a
    cases b
    exact congrArg mk hoctet
  · rintro rfl
    rfl

/-- The laws of a strict total order that agrees with `operator==`, for three values. -/
def Ordered (a b c : Uuid) : Prop :=
  a.operatorLess a = false ∧
    (a.operatorLess b = true → b.operatorLess c = true → a.operatorLess c = true) ∧
    ExactlyOne (a.operatorLess b = true) (b.operatorLess a = true) (a.operatorEq b = true)

instance (a b c : Uuid) : Decidable (Ordered a b c) := inferInstanceAs (Decidable (_ ∧ _ ∧ _))

/-- The laws hold exactly where the words of one value are all at most those of the other. -/
theorem ordered_iff (a b c : Uuid) :
    Ordered a b c ↔ (∀ i, a.word i ≤ b.word i) ∨ (∀ i, b.word i ≤ a.word i) := by
  have hcomp : ExactlyOne (a.operatorLess b = true) (b.operatorLess a = true) (a.operatorEq b = true) ↔
      a.word ≤ b.word ∨ b.word ≤ a.word := by
    rw [operatorLess_iff, operatorLess_iff, operatorEq_iff_word]
    exact exactlyOne_iff_comparable
  constructor
  · intro h
    exact hcomp.mp h.2.2
  · intro h
    refine ⟨?_, ?_, hcomp.mpr h⟩
    · rw [← Bool.not_eq_true, operatorLess_iff, someBelow_iff, not_not]
    · rw [operatorLess_iff, operatorLess_iff, operatorLess_iff]
      exact SomeBelow.trans_of_comparable h

/-- Two values that are each smaller than the other. -/
theorem not_ordered_crossing : ¬ ∀ a b c : Uuid, Ordered a b c := by
  intro h
  exact absurd (h ⟨#v[0, 0, 0, 0, 1, 0, 0, 0, 0, 0, 0, 0, 0, 0, 0, 0]⟩
    ⟨#v[1, 0, 0, 0, 0, 0, 0, 0, 0, 0, 0, 0, 0, 0, 0, 0]⟩
    ⟨#v[0, 0, 0, 0, 1, 0, 0, 0, 0, 0, 0, 0, 0, 0, 0, 0]⟩) (by decide +kernel)

end Uuid
end LibXpf
