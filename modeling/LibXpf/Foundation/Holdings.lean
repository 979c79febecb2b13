import Mathlib.Data.List.Nodup
import Mathlib.Logic.Function.Basic

/-! # Resources and their holders

Every holder has at most one resource. The resources that are open are exactly the ones that are
held, and each of them is held once.
-/
namespace LibXpf.Holdings

variable {κ ρ : Type*} {held : κ → Option ρ} {opened : List ρ} {k : κ} {r : ρ}

structure Exact (held : κ → Option ρ) (opened : List ρ) : Prop where
  listed : ∀ r, r ∈ opened ↔ ∃ k, held k = some r
  single : ∀ k k' r, held k = some r → held k' = some r → k = k'
  nodup : opened.Nodup

theorem exact_none : Exact (fun _ : κ => (none : Option ρ)) [] where
  listed _ := iff_of_false List.not_mem_nil (by rintro ⟨k, ⟨⟩⟩)
  single _ _ _ h := absurd h (by rintro ⟨⟩)
  nodup := List.nodup_nil

theorem Exact.opened_of_held (h : Exact held opened) (hk : held k = some r) : r ∈ opened := (h.listed r).mpr ⟨k, hk⟩

variable [DecidableEq κ]

theorem Exact.acquire (h : Exact held opened) (hk : held k = none) (hr : r ∉ opened) :
    Exact (Function.update held k (some r)) (r :: opened) := by
  have hother : ∀ k' r', held k' = some r' → k' ≠ k := by
    rintro k' r' hk' rfl
    exact absurd (hk'.symm.trans hk) (by rintro ⟨⟩)
  refine ⟨fun r' => ?_, fun k₁ k₂ r' h₁ h₂ => ?_, List.nodup_cons.mpr ⟨hr, h.nodup⟩⟩
  · rw [List.mem_cons, h.listed]
    constructor
    · rintro (rfl | ⟨k', hk'⟩)
      · exact ⟨k, Function.update_self k _ held⟩
      · exact ⟨k', (Function.update_of_ne (hother k' r' hk') _ held).trans hk'⟩
    · rintro ⟨k', hk'⟩
      by_cases heq : k' = k
      · rw [heq, Function.update_self] at hk'
        exact .inl (Option.some.inj hk').symm
      · rw [Function.update_of_ne heq] at hk'
        exact .inr ⟨k', hk'⟩
  · have hnew : ∀ k', k' ≠ k → Function.update held k (some r) k' = some r' → r' ≠ r := by
      rintro k' hne hk' rfl
      rw [Function.update_of_ne hne] at hk'
      exact hr (h.opened_of_held hk')
    by_cases heq₁ : k₁ = k
    · by_cases heq₂ : k₂ = k
      · exact heq₁.trans heq₂.symm
      · rw [heq₁, Function.update_self] at h₁
        exact absurd (Option.some.inj h₁).symm (hnew k₂ heq₂ h₂)
    · by_cases heq₂ : k₂ = k
      · rw [heq₂, Function.update_self] at h₂
        exact absurd (Option.some.inj h₂).symm (hnew k₁ heq₁ h₁)
      · rw [Function.update_of_ne heq₁] at h₁
        rw [Function.update_of_ne heq₂] at h₂
        exact h.single k₁ k₂ r' h₁ h₂

theorem Exact.drop [DecidableEq ρ] (h : Exact held opened) (hk : held k = some r) :
    Exact (Function.update held k none) (opened.erase r) := by
  have hkept : ∀ k' r', Function.update held k none k' = some r' ↔ held k' = some r' ∧ r' ≠ r := by
    intro k' r'
    by_cases heq : k' = k
    · rw [heq, Function.update_self, hk, Option.some_inj]
      exact iff_of_false (by rintro ⟨⟩) (fun h => h.2 h.1.symm)
    · rw [Function.update_of_ne heq]
      refine ⟨fun hk' => ⟨hk', ?_⟩, And.left⟩
      rintro rfl
      exact heq (h.single k' k r' hk' hk)
  refine ⟨fun r' => ?_, fun k₁ k₂ r' h₁ h₂ => ?_, h.nodup.erase r⟩
  · rw [h.nodup.mem_erase_iff, h.listed]
    simp only [hkept, exists_and_right]
    exact and_comm
  · exact h.single k₁ k₂ r' ((hkept k₁ r').mp h₁).1 ((hkept k₂ r').mp h₂).1

end LibXpf.Holdings
