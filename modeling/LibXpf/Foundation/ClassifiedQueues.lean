import Mathlib.Data.List.Nodup
import Mathlib.Data.List.Count

/-! # Items that pass through queues by class

Items are submitted, wait in the queue of their class, and leave it from the
front for one common list. The ledger says that per class what has left and what
waits is what was submitted, in order. Then no item is lost or duplicated, and
the items of a class leave in the order of their submission.
-/
namespace LibXpf.ClassifiedQueues

variable {κ γ : Type*} [DecidableEq γ] {c : κ → γ}

def ofClass (c : κ → γ) (g : γ) (items : List κ) : List κ := items.filter (fun k => c k = g)

theorem ofClass_append (c : κ → γ) (g : γ) (l m : List κ) :
    ofClass c g (l ++ m) = ofClass c g l ++ ofClass c g m := List.filter_append l m

theorem mem_ofClass {g : γ} {l : List κ} {k : κ} : k ∈ ofClass c g l ↔ k ∈ l ∧ c k = g := by
  rw [ofClass, List.mem_filter, decide_eq_true_eq]

theorem ofClass_eq_self {g : γ} {l : List κ} (h : ∀ k ∈ l, c k = g) : ofClass c g l = l := by
  apply List.filter_eq_self.mpr
  intro k hk
  exact decide_eq_true (h k hk)

theorem ofClass_eq_nil {g : γ} {l : List κ} (h : ∀ k ∈ l, c k ≠ g) : ofClass c g l = [] := by
  apply List.filter_eq_nil_iff.mpr
  intro k hk
  rw [decide_eq_true_eq]
  exact h k hk

/-- Per class, what has left and what waits is what was submitted. -/
def Balanced (c : κ → γ) (submitted gone : List κ) (waiting : γ → List κ) : Prop :=
  ∀ g, ofClass c g gone ++ waiting g = ofClass c g submitted

namespace Balanced

variable {submitted gone moved : List κ} {waiting waiting' : γ → List κ} {k : κ} {g : γ}

theorem submit (h : Balanced c submitted gone waiting) (k : κ)
    (hqueue : ∀ g, waiting' g = if g = c k then waiting g ++ [k] else waiting g) :
    Balanced c (submitted ++ [k]) gone waiting' := by
  intro g
  rw [hqueue, ofClass_append, ← h g]
  split
  · next hg =>
    rw [ofClass_eq_self (l := [k]) (by simp [hg]), List.append_assoc]
  · next hg =>
    rw [ofClass_eq_nil (l := [k]) (by simp [Ne.symm hg]), List.append_nil]

theorem move (h : Balanced c submitted gone waiting)
    (hmove : ∀ g, ofClass c g moved ++ waiting' g = waiting g) :
    Balanced c submitted (gone ++ moved) waiting' := by
  intro g
  rw [ofClass_append, List.append_assoc, hmove g]
  exact h g

theorem waiting_mem (h : Balanced c submitted gone waiting) (hk : k ∈ waiting g) :
    k ∈ submitted ∧ c k = g := by
  apply mem_ofClass.mp
  rw [← h g]
  exact List.mem_append_right _ hk

theorem gone_mem (h : Balanced c submitted gone waiting) (hk : k ∈ gone) : k ∈ submitted := by
  have hclass : k ∈ ofClass c (c k) submitted := by
    rw [← h (c k)]
    exact List.mem_append_left _ (mem_ofClass.mpr ⟨hk, rfl⟩)
  exact (mem_ofClass.mp hclass).1

/-- The items of a class leave in the order of their submission. -/
theorem in_order (h : Balanced c submitted gone waiting) (g : γ) :
    ofClass c g gone <+: ofClass c g submitted := ⟨waiting g, h g⟩

theorem count_eq_one [BEq κ] [LawfulBEq κ] (h : Balanced c submitted gone waiting)
    (hnodup : submitted.Nodup) (hk : k ∈ submitted) :
    gone.count k + (waiting (c k)).count k = 1 := by
  have hfilter : ∀ l : List κ, (ofClass c (c k) l).count k = l.count k := by
    intro l
    exact List.count_filter (decide_eq_true rfl)
  rw [← hfilter gone, ← List.count_append, h (c k), hfilter]
  exact List.count_eq_one_of_mem hnodup hk

theorem gone_nodup [BEq κ] [LawfulBEq κ] (h : Balanced c submitted gone waiting)
    (hnodup : submitted.Nodup) : gone.Nodup := by
  apply List.nodup_iff_count_le_one.mpr
  intro k
  by_cases hk : k ∈ gone
  · have hone := h.count_eq_one hnodup (h.gone_mem hk)
    omega
  · rw [List.count_eq_zero_of_not_mem hk]
    omega

end Balanced

end LibXpf.ClassifiedQueues
