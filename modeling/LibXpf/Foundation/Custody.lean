import Mathlib.Algebra.BigOperators.Group.Finset.Piecewise
import Mathlib.Algebra.Order.BigOperators.Group.Finset
import Mathlib.Data.Fintype.Basic

/-! # Items in the hands of workers

Every worker has at most one item in hand. A step of one worker changes what one
hand holds, so a conservation law for items follows from the two counts of that hand.
-/
namespace LibXpf.Custody

variable {ω ι : Type*} [Fintype ω] [DecidableEq ι] {hand : ω → Option ι} {i : ι}

/-- How often one hand holds the item. -/
def share (held : Option ι) (i : ι) : ℕ := if held = some i then 1 else 0

/-- How many hands hold the item. -/
def holding (hand : ω → Option ι) (i : ι) : ℕ := ∑ w, share (hand w) i

@[simp] theorem share_none (i : ι) : share none i = 0 := if_neg (Option.some_ne_none i).symm

@[simp] theorem share_some (j i : ι) : share (some j) i = if j = i then 1 else 0 := by
  simp only [share, Option.some.injEq]

theorem holding_update [DecidableEq ω] (hand : ω → Option ι) (w : ω) (held : Option ι) (i : ι) :
    holding (Function.update hand w held) i + share (hand w) i = holding hand i + share held i := by
  have hrest : ∑ v ∈ Finset.univ.erase w, share (Function.update hand w held v) i =
      ∑ v ∈ Finset.univ.erase w, share (hand v) i := by
    apply Finset.sum_congr rfl
    intro v hv
    rw [Function.update_of_ne (Finset.ne_of_mem_erase hv)]
  have hsum : ∀ f : ω → Option ι, holding f i = share (f w) i + ∑ v ∈ Finset.univ.erase w, share (f v) i :=
    fun f => (Finset.add_sum_erase _ (fun v => share (f v) i) (Finset.mem_univ w)).symm
  rw [hsum (Function.update hand w held), hsum hand, hrest, Function.update_self]
  omega

theorem holding_pos {w : ω} (h : hand w = some i) : 0 < holding hand i := by
  apply Finset.sum_pos' (fun _ _ => Nat.zero_le _)
  refine ⟨w, Finset.mem_univ w, ?_⟩
  rw [h, share_some, if_pos rfl]
  exact Nat.one_pos

theorem holding_empty (h : ∀ w, hand w = none) : holding hand i = 0 := by
  apply Finset.sum_eq_zero
  intro w _
  rw [h w, share_none]

/-- An item in at most one hand has at most one holder. -/
theorem holder_unique [DecidableEq ω] (hand : ω → Option ι) (hone : holding hand i ≤ 1) {v w : ω} (hv : hand v = some i) (hw : hand w = some i) :
    v = w := by
  by_contra hne
  have hempty := holding_update hand v none i
  have hleft : 0 < holding (Function.update hand v none) i :=
    holding_pos ((Function.update_of_ne (Ne.symm hne) _ _).trans hw)
  rw [hv, share_some, if_pos rfl, share_none] at hempty
  omega

end LibXpf.Custody
