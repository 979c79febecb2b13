import Mathlib.Data.Fintype.BigOperators
import Mathlib.Data.Set.Card

/-! # Fibers of functions on a finite type

A function takes the values of a set equally often if all of them have the same
number of arguments. Then the number of values is that of arguments divided by it.
-/
namespace LibXpf.Fibers

section Fibers
variable {α β : Type*} [Fintype α] [DecidableEq β] {f : α → β} {s : Set β} {n : ℕ}

/-- The arguments at which `f` has the value `b`. -/
def fiber (f : α → β) (b : β) : Finset α := Finset.univ.filter fun a => f a = b

@[simp] theorem mem_fiber {a : α} {b : β} : a ∈ fiber f b ↔ f a = b := by simp [fiber]

def EquallyOften (f : α → β) (s : Set β) : Prop := ∃ n, ∀ b ∈ s, (fiber f b).card = n

/-- Values that are taken `n` times, and no others, share out all arguments. -/
theorem ncard_mul_card (hmem : ∀ a, f a ∈ s) (hpos : 0 < n) (hcard : ∀ b ∈ s, (fiber f b).card = n) :
    s.ncard * n = Fintype.card α := by
  have himage : s = ↑(Finset.univ.image f) := by
    ext b
    rw [Finset.coe_image, Finset.coe_univ, Set.image_univ]
    constructor
    · intro hb
      obtain ⟨a, ha⟩ := Finset.card_pos.mp (hpos.trans_eq (hcard b hb).symm)
      exact ⟨a, mem_fiber.mp ha⟩
    · rintro ⟨a, rfl⟩
      exact hmem a
  have hsum := Finset.card_eq_sum_card_image f Finset.univ
  have hconst : ∀ b ∈ Finset.univ.image f, (fiber f b).card = n := by
    intro b hb
    apply hcard
    rwa [himage, Finset.mem_coe]
  rw [himage, Set.ncard_coe_finset, ← Finset.card_univ, hsum]
  exact (Finset.sum_const_nat hconst).symm

/-- If arguments of `b` are moved to arguments of `c` one by one, and one of these is
left over, then `c` is taken more often. -/
theorem not_equallyOften {b c : β} (hb : b ∈ s) (hc : c ∈ s) (move : α → α)
    (hmaps : ∀ a, f a = b → f (move a) = c) (hinj : Function.Injective move) (rest : α)
    (hrest : f rest = c) (hmiss : ∀ a, f a = b → move a ≠ rest) : ¬ EquallyOften f s := by
  classical
  rintro ⟨n, hn⟩
  have hsub : (fiber f b).image move ⊂ fiber f c := by
    rw [Finset.ssubset_iff_of_subset]
    · refine ⟨rest, mem_fiber.mpr hrest, ?_⟩
      rw [Finset.mem_image]
      rintro ⟨a, hab, ha⟩
      exact hmiss a (mem_fiber.mp hab) ha
    · intro a ha
      obtain ⟨a', ha', rfl⟩ := Finset.mem_image.mp ha
      exact mem_fiber.mpr (hmaps a' (mem_fiber.mp ha'))
  have hcard := Finset.card_lt_card hsub
  rw [Finset.card_image_of_injective _ hinj, hn b hb, hn c hc] at hcard
  exact lt_irrefl n hcard

end Fibers

section Products
variable {ι : Type*} [Fintype ι] [DecidableEq ι] {α β : ι → Type*} [∀ i, Fintype (α i)]
  [∀ i, DecidableEq (β i)]

/-- Conditions on the components of a tuple are met independently of each other. -/
theorem card_forall_eq (f : ∀ i, α i → β i) (v : ∀ i, β i)
    [DecidablePred fun x : ∀ i, α i => ∀ i, f i (x i) = v i] :
    (Finset.univ.filter fun x : ∀ i, α i => ∀ i, f i (x i) = v i).card = ∏ i, (fiber (f i) (v i)).card := by
  have hpi : (Finset.univ.filter fun x : ∀ i, α i => ∀ i, f i (x i) = v i) =
      Fintype.piFinset fun i => fiber (f i) (v i) := by
    ext x
    simp only [Finset.mem_filter, Finset.mem_univ, true_and, Fintype.mem_piFinset, mem_fiber]
  rw [hpi, Fintype.card_piFinset]

end Products

section Residues

/-- A residue modulo `a` is that of `b` of the numbers below `b * a`. -/
theorem card_fiber_mod {a b N v : ℕ} (hN : N = b * a) (hv : v < a) :
    (fiber (fun x : Fin N => (x : ℕ) % a) v).card = b := by
  subst hN
  have hlt : ∀ q : Fin b, a * q + v < b * a := by
    intro q
    calc a * q + v < a * (q + 1) := by rw [Nat.mul_succ]; omega
      _ ≤ a * b := Nat.mul_le_mul_left a q.isLt
      _ = b * a := Nat.mul_comm a b
  have himage : fiber (fun x : Fin (b * a) => (x : ℕ) % a) v =
      Finset.univ.image fun q : Fin b => (⟨a * q + v, hlt q⟩ : Fin (b * a)) := by
    ext x
    simp only [mem_fiber, Finset.mem_image, Finset.mem_univ, true_and]
    constructor
    · rintro rfl
      exact ⟨⟨x / a, Nat.div_lt_of_lt_mul (by simpa only [Nat.mul_comm] using x.isLt)⟩,
        Fin.ext (Nat.div_add_mod _ _)⟩
    · rintro ⟨q, rfl⟩
      exact (Nat.mul_add_mod a q v).trans (Nat.mod_eq_of_lt hv)
  rw [himage, Finset.card_image_of_injective _ ?_, Finset.card_univ, Fintype.card_fin]
  intro q q' heq
  have hmul : a * (q : ℕ) = a * q' := Nat.add_right_cancel (Fin.mk.inj heq)
  exact Fin.ext (Nat.eq_of_mul_eq_mul_left (by omega) hmul)

end Residues
end LibXpf.Fibers
