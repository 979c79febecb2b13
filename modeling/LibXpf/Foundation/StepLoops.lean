import Mathlib.Data.Nat.Notation
import Mathlib.Logic.Relation

/-! # Loops by steps

A loop takes a step as long as there is one. A step may also fail. The states that a
loop visits are the ones that its steps lead to, and a loop with a measure that every
step decreases comes to an end.
-/
namespace LibXpf.StepLoops
open Relation

variable {σ ε : Type*} (diverges : ε) (step : σ → Except ε (Option σ))

def loop : (fuel : ℕ) → σ → Except ε σ
  | 0, _ => .error diverges
  | fuel + 1, s =>
    match step s with
    | .error e => .error e
    | .ok none => .ok s
    | .ok (some t) => loop fuel t

/-- One step leads from a state to another one. -/
def Leads (s t : σ) : Prop := step s = .ok (some t)

/-- The steps from a state come to another one. -/
abbrev Visits : σ → σ → Prop := ReflTransGen (Leads step)

variable {diverges step} {fuel : ℕ} {s t u : σ}

theorem loop_ok (h : loop diverges step fuel s = .ok t) : Visits step s t ∧ step t = .ok none := by
  induction fuel generalizing s with
  | zero => exact absurd h (by simp [loop])
  | succ fuel ih =>
    rw [loop] at h
    cases hstep : step s with
    | error e =>
      rw [hstep] at h
      exact absurd h (by simp)
    | ok next =>
      rw [hstep] at h
      cases next with
      | none =>
        obtain rfl : s = t := Except.ok.inj h
        exact ⟨.refl, hstep⟩
      | some u =>
        obtain ⟨hvisits, hend⟩ := ih h
        exact ⟨.head hstep hvisits, hend⟩

/-- A loop that comes to an end does so from every state that it visits. -/
theorem loop_of_visits (h : loop diverges step fuel s = .ok t) (hvisits : Visits step s u) :
    ∃ k, loop diverges step k u = .ok t := by
  induction hvisits with
  | refl => exact ⟨fuel, h⟩
  | tail _ hlead ih =>
    obtain ⟨k, hloop⟩ := ih
    cases k with
    | zero => exact absurd hloop (by simp [loop])
    | succ k =>
      rw [loop, show step _ = _ from hlead] at hloop
      exact ⟨k, hloop⟩

theorem visits_end (h : loop diverges step fuel s = .ok t) (hvisits : Visits step s u) : Visits step u t := by
  obtain ⟨k, hloop⟩ := loop_of_visits h hvisits
  exact (loop_ok hloop).1

theorem visits_steps (h : loop diverges step fuel s = .ok t) (hvisits : Visits step s u) :
    step u = .ok none ∨ ∃ v, Leads step u v := by
  rcases (visits_end h hvisits).cases_head with rfl | ⟨v, hlead, -⟩
  · exact .inl (loop_ok h).2
  · exact .inr ⟨v, hlead⟩

/-- A loop comes to the end that its steps lead to, if a measure bounds their number. -/
theorem loop_of_end {size : σ → ℕ} (hsize : ∀ s t, Leads step s t → size t < size s) (hvisits : Visits step s t)
    (hend : step t = .ok none) (hfuel : size s < fuel) : loop diverges step fuel s = .ok t := by
  induction hvisits using ReflTransGen.head_induction_on generalizing fuel with
  | refl =>
    obtain ⟨k, rfl⟩ : ∃ k, fuel = k + 1 := ⟨fuel - 1, by omega⟩
    rw [loop, hend]
  | @head s u hlead _ ih =>
    obtain ⟨k, rfl⟩ : ∃ k, fuel = k + 1 := ⟨fuel - 1, by omega⟩
    have hlt := hsize s u hlead
    rw [loop, show step s = .ok (some u) from hlead]
    exact ih (by omega)

section Outcomes
variable {r : Except ε σ} {size : σ → ℕ}

/-- How the steps from a state end: where there is no further one, or where one fails. -/
def Ends (step : σ → Except ε (Option σ)) (s : σ) : Except ε σ → Prop
  | .ok t => Visits step s t ∧ step t = .ok none
  | .error e => ∃ t, Visits step s t ∧ step t = .error e

theorem Ends.of_visits (h : Visits step s t) (hends : Ends step t r) : Ends step s r := by
  cases r with
  | ok u => exact ⟨h.trans hends.1, hends.2⟩
  | error e =>
    obtain ⟨u, hvisits, hfails⟩ := hends
    exact ⟨u, h.trans hvisits, hfails⟩

theorem loop_of_fails {e : ε} (hsize : ∀ s t, Leads step s t → size t < size s) (hvisits : Visits step s t)
    (hfails : step t = .error e) (hfuel : size s < fuel) : loop diverges step fuel s = .error e := by
  induction hvisits using ReflTransGen.head_induction_on generalizing fuel with
  | refl =>
    obtain ⟨k, rfl⟩ : ∃ k, fuel = k + 1 := ⟨fuel - 1, by omega⟩
    rw [loop, hfails]
  | @head s u hlead _ ih =>
    obtain ⟨k, rfl⟩ : ∃ k, fuel = k + 1 := ⟨fuel - 1, by omega⟩
    have hlt := hsize s u hlead
    rw [loop, show step s = .ok (some u) from hlead]
    exact ih (by omega)

/-- Under a measure that every step decreases, a loop ends as its steps do. -/
theorem loop_of_ends (hsize : ∀ s t, Leads step s t → size t < size s) (h : Ends step s r) (hfuel : size s < fuel) :
    loop diverges step fuel s = r := by
  cases r with
  | ok t => exact loop_of_end hsize h.1 h.2 hfuel
  | error e =>
    obtain ⟨t, hvisits, hfails⟩ := h
    exact loop_of_fails hsize hvisits hfails hfuel

end Outcomes

section Failures
universe v
variable {α β : Type v} {P : ε → Prop} {x y : Except ε α} {e : ε}

/-- A computation fails in no other ways than some. -/
def FailsIn (P : ε → Prop) (x : Except ε α) : Prop := ∀ e, x = .error e → P e

theorem FailsIn.ok (a : α) : FailsIn P (.ok a) := nofun

theorem FailsIn.error (h : P e) : FailsIn P (.error e : Except ε α) := by
  rintro e' ⟨⟩
  exact h

theorem FailsIn.bind {f : α → Except ε β} (hx : FailsIn P x) (hf : ∀ a, FailsIn P (f a)) : FailsIn P (x >>= f) := by
  cases x with
  | error e => exact FailsIn.error (hx e rfl)
  | ok a => exact hf a

theorem FailsIn.ite {p : Prop} [Decidable p] (hx : p → FailsIn P x) (hy : ¬ p → FailsIn P y) :
    FailsIn P (if p then x else y) := by
  split
  next h => exact hx h
  next h => exact hy h

variable {Inv : σ → Prop} {size : σ → ℕ}

theorem visits_keeps (hkeep : ∀ s t, Inv s → Leads step s t → Inv t) (hs : Inv s) (h : Visits step s t) : Inv t := by
  induction h with
  | refl => exact hs
  | tail _ hlead ih => exact hkeep _ _ ih hlead

/-- Under a measure that every step decreases no loop goes on forever. -/
theorem no_endless_run (hsize : ∀ s t, Leads step s t → size t < size s) (run : ℕ → σ)
    (hrun : ∀ i, Leads step (run i) (run (i + 1))) : False := by
  have hbound : ∀ i, size (run i) + i ≤ size (run 0) := by
    intro i
    induction i with
    | zero => exact Nat.le_refl _
    | succ i ih =>
      have hlt := hsize _ _ (hrun i)
      omega
  have hpast := hbound (size (run 0) + 1)
  omega

/-- A loop that a measure bounds fails in no other ways than its steps. -/
theorem loop_failsIn (hkeep : ∀ s t, Inv s → Leads step s t → Inv t) (hfails : ∀ s, Inv s → FailsIn P (step s))
    (hsize : ∀ s t, Leads step s t → size t < size s) (hs : Inv s) (hfuel : size s < fuel) :
    FailsIn P (loop diverges step fuel s) := by
  induction fuel generalizing s with
  | zero => omega
  | succ fuel ih =>
    rw [loop]
    cases hstep : step s with
    | error e => exact FailsIn.error (hfails s hs e hstep)
    | ok next =>
      cases next with
      | none => exact FailsIn.ok s
      | some t =>
        have hlt := hsize s t hstep
        exact ih (hkeep s t hs hstep) (by omega)

end Failures

section Lockstep
variable {τ : Type*} {step' : τ → Except ε (Option τ)} {R : σ → τ → Prop} {Same : σ → τ → Prop} {Good : σ → Prop}

/-- Every step that a loop can take from a state is a good one. -/
def AllGood (step : σ → Except ε (Option σ)) (Good : σ → Prop) (s : σ) : Prop :=
  ∀ t u, Visits step s t → Leads step t u → Good t

theorem allGood_end (h : step s = .ok none) : AllGood step Good s := by
  intro t u hvisits hlead
  rcases hvisits.cases_head with rfl | ⟨v, hfirst, -⟩
  · exact absurd (hlead.symm.trans h) (by simp)
  · exact absurd (hfirst.symm.trans h) (by simp)

theorem allGood_step (h : Leads step s t) : AllGood step Good s ↔ Good s ∧ AllGood step Good t := by
  constructor
  · intro hall
    exact ⟨hall s t .refl h, fun u v hvisits hlead => hall u v (.head h hvisits) hlead⟩
  · rintro ⟨hgood, hall⟩ u v hvisits hlead
    rcases hvisits.cases_head with rfl | ⟨t', hfirst, hrest⟩
    · exact hgood
    · obtain rfl : t = t' := Option.some.inj (Except.ok.inj (h.symm.trans hfirst))
      exact hall u v hrest hlead

/-- Two loops in lockstep: they agree at the end if and only if they did so at the start and every step
of the first one is good. -/
theorem loop_lockstep (hend : ∀ s u, R s u → step s = .ok none → step' u = .ok none)
    (hstep : ∀ s t u, R s u → Leads step s t → ∃ v, Leads step' u v ∧ R t v ∧ (Same t v ↔ Same s u ∧ Good s))
    {u : τ} (hR : R s u) (h : loop diverges step fuel s = .ok t) :
    ∃ v, loop diverges step' fuel u = .ok v ∧ R t v ∧ (Same t v ↔ Same s u ∧ AllGood step Good s) := by
  induction fuel generalizing s u with
  | zero => exact absurd h (by simp [loop])
  | succ fuel ih =>
    rw [loop] at h
    cases hs : step s with
    | error e =>
      rw [hs] at h
      exact absurd h (by simp)
    | ok next =>
      rw [hs] at h
      cases next with
      | none =>
        obtain rfl : s = t := Except.ok.inj h
        refine ⟨u, ?_, hR, ?_⟩
        · rw [loop, hend s u hR hs]
        · rw [and_iff_left (allGood_end hs)]
      | some s' =>
        obtain ⟨u', hlead, hR', hsame⟩ := hstep s s' u hR hs
        obtain ⟨v, hloop, hRv, hsamev⟩ := ih hR' h
        refine ⟨v, ?_, hRv, ?_⟩
        · rw [loop, show step' u = .ok (some u') from hlead]
          exact hloop
        · rw [hsamev, hsame, allGood_step hs, and_assoc]

end Lockstep
end LibXpf.StepLoops
