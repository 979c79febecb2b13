import Mathlib.Data.List.Basic

/-! # Finite runs of a fallible labelled step

A step takes a state and a label to the next state or to a fault. `Along` says
that a condition holds of every step a list of labels takes, `Throughout` that
a predicate holds in every state the list visits and that no step faults, where
`UntilFault` leaves open whether one does. A condition on the steps can be exactly
what keeps a predicate true: two theorems relate them. A run can carry a record of
what is observed of its steps.
-/
namespace LibXpf.GuardedRuns

variable {σ ι ε : Type*} (step : σ → ι → Except ε σ)

/-- Every step of the run satisfies `C` in the state it starts from. A fault
ends the run. -/
def Along (C : σ → ι → Prop) : σ → List ι → Prop
  | _, [] => True
  | s, a :: rest => C s a ∧ match step s a with
    | .ok t => Along C t rest
    | .error _ => True

/-- No step faults, and every visited state satisfies `P`. -/
def Throughout (P : σ → Prop) : σ → List ι → Prop
  | s, [] => P s
  | s, a :: rest => P s ∧ match step s a with
    | .ok t => Throughout P t rest
    | .error _ => False

/-- Every state visited before a fault satisfies `P`. -/
def UntilFault (P : σ → Prop) : σ → List ι → Prop
  | s, [] => P s
  | s, a :: rest => P s ∧ match step s a with
    | .ok t => UntilFault P t rest
    | .error _ => True

/-- The state a run ends in. -/
def final : σ → List ι → Except ε σ
  | s, [] => .ok s
  | s, a :: rest => match step s a with
    | .ok t => final t rest
    | .error e => .error e

/-- The result is a value, and it satisfies `P`. -/
def Returns {α : Type*} (x : Except ε α) (P : α → Prop) : Prop := ∃ a, x = .ok a ∧ P a

instance {α : Type*} (x : Except ε α) (P : α → Prop) [∀ a, Decidable (P a)] : Decidable (Returns x P) :=
  match x with
  | .ok a => decidable_of_iff (P a) ⟨fun h => ⟨a, rfl, h⟩, by rintro ⟨b, hb, h⟩; cases hb; exact h⟩
  | .error _ => isFalse (by rintro ⟨_, h, _⟩; cases h)

/-- If the result is a value, it satisfies `P`. -/
def IfReturns {α : Type*} (x : Except ε α) (P : α → Prop) : Prop := ∀ a, x = .ok a → P a

instance {α : Type*} (x : Except ε α) (P : α → Prop) [∀ a, Decidable (P a)] : Decidable (IfReturns x P) :=
  match x with
  | .ok a => decidable_of_iff (P a) ⟨by rintro h _ ⟨⟩; exact h, fun h => h a rfl⟩
  | .error _ => isTrue (by rintro _ ⟨⟩)

section IfReturns
universe u
variable {α β : Type u} {P : α → Prop}

theorem ifReturns_ok {a : α} : IfReturns (.ok a : Except ε α) P ↔ P a :=
  ⟨fun h => h a rfl, by rintro h _ ⟨⟩; exact h⟩

theorem ifReturns_error {e : ε} : IfReturns (.error e) P := by
  rintro _ ⟨⟩

theorem IfReturns.bind {x : Except ε β} {f : β → Except ε α}
    (h : IfReturns x fun b => IfReturns (f b) P) : IfReturns (x >>= f) P := by
  cases x with
  | ok b => exact h b rfl
  | error e => exact ifReturns_error

end IfReturns

/-- The result is this fault. -/
def Fails {α : Type*} (x : Except ε α) (e : ε) : Prop :=
  match x with
  | .ok _ => False
  | .error e' => e' = e

instance {α : Type*} [DecidableEq ε] (x : Except ε α) (e : ε) : Decidable (Fails x e) :=
  match x with
  | .ok _ => isFalse id
  | .error e' => inferInstanceAs (Decidable (e' = e))

instance decidableAlong (C : σ → ι → Prop) [∀ s a, Decidable (C s a)] :
    ∀ (s : σ) (as : List ι), Decidable (Along step C s as)
  | _, [] => isTrue trivial
  | s, a :: rest =>
    match h : step s a with
    | .ok t =>
      have := decidableAlong C t rest
      decidable_of_iff (C s a ∧ Along step C t rest) (by simp only [Along, h])
    | .error _ => decidable_of_iff (C s a) (by simp only [Along, h, and_true])

instance decidableThroughout (P : σ → Prop) [∀ s, Decidable (P s)] :
    ∀ (s : σ) (as : List ι), Decidable (Throughout step P s as)
  | s, [] => inferInstanceAs (Decidable (P s))
  | s, a :: rest =>
    match h : step s a with
    | .ok t =>
      have := decidableThroughout P t rest
      decidable_of_iff (P s ∧ Throughout step P t rest) (by simp only [Throughout, h])
    | .error _ => isFalse (by simp only [Throughout, h, and_false, not_false_eq_true])

variable {step}

theorem along_cons {C : σ → ι → Prop} {s t : σ} {a : ι} {rest : List ι} (h : step s a = .ok t) :
    Along step C s (a :: rest) ↔ C s a ∧ Along step C t rest := by
  simp only [Along, h]

theorem throughout_cons {P : σ → Prop} {s t : σ} {a : ι} {rest : List ι} (h : step s a = .ok t) :
    Throughout step P s (a :: rest) ↔ P s ∧ Throughout step P t rest := by
  simp only [Throughout, h]

theorem untilFault_cons {P : σ → Prop} {s t : σ} {a : ι} {rest : List ι} (h : step s a = .ok t) :
    UntilFault step P s (a :: rest) ↔ P s ∧ UntilFault step P t rest := by
  simp only [UntilFault, h]

theorem final_cons {s t : σ} {a : ι} {rest : List ι} (h : step s a = .ok t) :
    final step s (a :: rest) = final step t rest := by
  simp only [final, h]

theorem final_append {s t : σ} {as : List ι} (h : final step s as = .ok t) (bs : List ι) :
    final step s (as ++ bs) = final step t bs := by
  induction as generalizing s with
  | nil =>
    obtain rfl := Except.ok.inj h
    rfl
  | cons a rest ih =>
    cases hstep : step s a with
    | ok u =>
      rw [final_cons hstep] at h
      rw [List.cons_append, final_cons hstep, ih h]
    | error e =>
      simp only [final, hstep] at h
      cases h

theorem Throughout.head {P : σ → Prop} {s : σ} {as : List ι} (h : Throughout step P s as) : P s := by
  cases as with
  | nil => exact h
  | cons a rest => exact h.1

/-- A step that does not fault starts every fault-free run that takes it. -/
theorem Throughout.uncons {P : σ → Prop} {s : σ} {a : ι} {rest : List ι}
    (h : Throughout step P s (a :: rest)) : ∃ t, step s a = .ok t ∧ Throughout step P t rest := by
  obtain ⟨_, hrest⟩ := h
  cases hstep : step s a with
  | ok t => exact ⟨t, rfl, by simpa only [hstep] using hrest⟩
  | error e => simp only [hstep] at hrest

theorem Throughout.mono {P Q : σ → Prop} (hPQ : ∀ s, P s → Q s) {s : σ} {as : List ι}
    (h : Throughout step P s as) : Throughout step Q s as := by
  induction as generalizing s with
  | nil => exact hPQ s h
  | cons a rest ih =>
    obtain ⟨t, ht, hrest⟩ := h.uncons
    exact (throughout_cons ht).mpr ⟨hPQ s h.head, ih hrest⟩

theorem Throughout.and {P Q : σ → Prop} {s : σ} {as : List ι} (hP : Throughout step P s as)
    (hQ : Throughout step Q s as) : Throughout step (fun s => P s ∧ Q s) s as := by
  induction as generalizing s with
  | nil => exact ⟨hP, hQ⟩
  | cons a rest ih =>
    obtain ⟨t, ht, hPrest⟩ := hP.uncons
    exact (throughout_cons ht).mpr ⟨⟨hP.head, hQ.head⟩, ih hPrest ((throughout_cons ht).mp hQ).2⟩

/-- The final state of a fault-free run satisfies what holds throughout it. -/
theorem Throughout.final {P : σ → Prop} {s : σ} {as : List ι} (h : Throughout step P s as) :
    ∃ t, final step s as = .ok t ∧ P t := by
  induction as generalizing s with
  | nil => exact ⟨s, rfl, h⟩
  | cons a rest ih =>
    obtain ⟨t, ht, hrest⟩ := h.uncons
    obtain ⟨u, hu, hP⟩ := ih hrest
    exact ⟨u, (final_cons ht).trans hu, hP⟩

theorem UntilFault.head {P : σ → Prop} {s : σ} {as : List ι} (h : UntilFault step P s as) : P s := by
  cases as with
  | nil => exact h
  | cons a rest => exact h.1

theorem UntilFault.final {P : σ → Prop} {s t : σ} {as : List ι} (h : UntilFault step P s as)
    (ht : final step s as = .ok t) : P t := by
  induction as generalizing s with
  | nil =>
    obtain rfl := Except.ok.inj ht
    exact h
  | cons a rest ih =>
    cases hstep : step s a with
    | ok u =>
      rw [final_cons hstep] at ht
      exact ih ((untilFault_cons hstep).mp h).2 ht
    | error e =>
      simp only [GuardedRuns.final, hstep] at ht
      cases ht

/-- A run with a fault keeps nothing throughout. -/
theorem Throughout.not_fails {P : σ → Prop} {s : σ} {as : List ι} (h : Throughout step P s as) (e : ε) :
    ¬ Fails (GuardedRuns.final step s as) e := by
  obtain ⟨t, ht, _⟩ := h.final
  rw [ht]
  exact id

theorem Along.mono {C D : σ → ι → Prop} (hCD : ∀ s a, C s a → D s a) {s : σ} {as : List ι} (h : Along step C s as) :
    Along step D s as := by
  induction as generalizing s with
  | nil => trivial
  | cons a rest ih =>
    cases hstep : step s a with
    | ok t =>
      obtain ⟨hc, hrest⟩ := (along_cons hstep).mp h
      exact (along_cons hstep).mpr ⟨hCD s a hc, ih hrest⟩
    | error e =>
      simp only [Along] at h
      exact ⟨hCD s a h.1, by simp only [hstep]⟩

theorem Along.and {C D : σ → ι → Prop} {s : σ} {as : List ι} (hC : Along step C s as) (hD : Along step D s as) :
    Along step (fun s a => C s a ∧ D s a) s as := by
  induction as generalizing s with
  | nil => trivial
  | cons a rest ih =>
    cases hstep : step s a with
    | ok t =>
      obtain ⟨hc, hCrest⟩ := (along_cons hstep).mp hC
      obtain ⟨hd, hDrest⟩ := (along_cons hstep).mp hD
      exact (along_cons hstep).mpr ⟨⟨hc, hd⟩, ih hCrest hDrest⟩
    | error e =>
      simp only [Along] at hC hD
      simp only [Along, hstep, and_true]
      exact ⟨hC.1, hD.1⟩

theorem along_of_forall {C : ι → Prop} {s : σ} {as : List ι} (h : ∀ a ∈ as, C a) :
    Along step (fun _ a => C a) s as := by
  induction as generalizing s with
  | nil => trivial
  | cons a rest ih =>
    have ha : C a := h a List.mem_cons_self
    cases hstep : step s a with
    | ok t => exact (along_cons hstep).mpr ⟨ha, ih (fun c hc => h c (List.mem_cons_of_mem a hc))⟩
    | error e => exact ⟨ha, by simp only [hstep]⟩

/-- What an invariant gives for each admitted step holds along the run. -/
theorem along_of_invariant {admits C : σ → ι → Prop} {Inv : σ → Prop}
    (hstep : ∀ s a, Inv s → admits s a → ∃ t, step s a = .ok t ∧ Inv t)
    (hC : ∀ s a, Inv s → admits s a → C s a)
    {s : σ} (hs : Inv s) {as : List ι} (h : Along step admits s as) : Along step C s as := by
  induction as generalizing s with
  | nil => trivial
  | cons a rest ih =>
    have ha : admits s a := by simp only [Along] at h; exact h.1
    obtain ⟨t, ht, hInv⟩ := hstep s a hs ha
    exact (along_cons ht).mpr ⟨hC s a hs ha, ih hInv ((along_cons ht).mp h).2⟩

/-- The invariant rule: what each admitted step keeps, a run of admitted steps
keeps in every state it visits. -/
theorem throughout_of_invariant {admits : σ → ι → Prop} {Inv : σ → Prop}
    (hstep : ∀ s a, Inv s → admits s a → ∃ t, step s a = .ok t ∧ Inv t)
    {s : σ} (hs : Inv s) {as : List ι} (h : Along step admits s as) : Throughout step Inv s as := by
  induction as generalizing s with
  | nil => exact hs
  | cons a rest ih =>
    obtain ⟨t, ht, hInv⟩ := hstep s a hs (by simp only [Along] at h; exact h.1)
    exact (throughout_cons ht).mpr ⟨hs, ih hInv ((along_cons ht).mp h).2⟩

/-- What admitted steps keep when they do not fault holds where a run ends. -/
theorem final_of_preserved {admits : σ → ι → Prop} {Inv : σ → Prop}
    (hstep : ∀ s a t, Inv s → admits s a → step s a = .ok t → Inv t)
    {s t : σ} (hs : Inv s) {as : List ι} (h : Along step admits s as)
    (hfinal : GuardedRuns.final step s as = .ok t) : Inv t := by
  induction as generalizing s with
  | nil =>
    obtain rfl := Except.ok.inj hfinal
    exact hs
  | cons a rest ih =>
    have ha : admits s a := by simp only [Along] at h; exact h.1
    cases hrun : step s a with
    | ok u =>
      rw [final_cons hrun] at hfinal
      exact ih (hstep s a u hs ha hrun) ((along_cons hrun).mp h).2 hfinal
    | error e =>
      simp only [GuardedRuns.final, hrun] at hfinal
      cases hfinal

/-- Where the guard `C` keeps the invariant and any step outside it breaks `P`
at once, the guard is exactly what keeps `P` throughout an admitted run. -/
theorem throughout_iff_along {admits C : σ → ι → Prop} {Inv P : σ → Prop}
    (hP : ∀ s, Inv s → P s)
    (hgood : ∀ s a, Inv s → admits s a → C s a → ∃ t, step s a = .ok t ∧ Inv t)
    (hbad : ∀ s a t, Inv s → admits s a → ¬ C s a → step s a = .ok t → ¬ P t)
    {s : σ} (hs : Inv s) {as : List ι} (h : Along step admits s as) :
    Throughout step P s as ↔ Along step C s as := by
  induction as generalizing s with
  | nil => exact ⟨fun _ => trivial, fun _ => hP s hs⟩
  | cons a rest ih =>
    have ha : admits s a := by simp only [Along] at h; exact h.1
    constructor
    · intro hthrough
      obtain ⟨t, ht, hrest⟩ := hthrough.uncons
      have hC : C s a := by
        by_contra hC
        exact hbad s a t hs ha hC ht hrest.head
      obtain ⟨u, hu, hInv⟩ := hgood s a hs ha hC
      obtain rfl : t = u := Except.ok.inj (ht.symm.trans hu)
      exact (along_cons ht).mpr ⟨hC, (ih hInv ((along_cons ht).mp h).2).mp hrest⟩
    · intro halong
      have hC : C s a := by simp only [Along] at halong; exact halong.1
      obtain ⟨t, ht, hInv⟩ := hgood s a hs ha hC
      exact (throughout_cons ht).mpr
        ⟨hP s hs, (ih hInv ((along_cons ht).mp h).2).mpr ((along_cons ht).mp halong).2⟩

/-- The same where a step may fault, which ends the run. -/
theorem untilFault_iff_along_of_invariant {C : σ → ι → Prop} {Inv P : σ → Prop}
    (hinv : ∀ s a t, Inv s → step s a = .ok t → Inv t)
    (hgood : ∀ s a t, Inv s → P s → C s a → step s a = .ok t → P t)
    (hbad : ∀ s a, Inv s → P s → ¬ C s a → ∃ t, step s a = .ok t ∧ ¬ P t)
    {s : σ} (hs : Inv s) (hP : P s) {as : List ι} : UntilFault step P s as ↔ Along step C s as := by
  induction as generalizing s with
  | nil => exact ⟨fun _ => trivial, fun _ => hP⟩
  | cons a rest ih =>
    cases hstep : step s a with
    | ok t =>
      rw [untilFault_cons hstep, along_cons hstep]
      constructor
      · rintro ⟨_, hrest⟩
        have hC : C s a := by
          by_contra hC
          obtain ⟨u, hu, hnot⟩ := hbad s a hs hP hC
          obtain rfl : t = u := Except.ok.inj (hstep.symm.trans hu)
          exact hnot hrest.head
        exact ⟨hC, (ih (hinv s a t hs hstep) (hgood s a t hs hP hC hstep)).mp hrest⟩
      · rintro ⟨hC, hrest⟩
        exact ⟨hP, (ih (hinv s a t hs hstep) (hgood s a t hs hP hC hstep)).mpr hrest⟩
    | error e =>
      simp only [UntilFault, Along, hstep, and_true]
      refine ⟨fun _ => ?_, fun _ => hP⟩
      by_contra hC
      obtain ⟨u, hu, _⟩ := hbad s a hs hP hC
      cases hstep.symm.trans hu

theorem untilFault_iff_along {C : σ → ι → Prop} {P : σ → Prop}
    (hgood : ∀ s a t, P s → C s a → step s a = .ok t → P t)
    (hbad : ∀ s a, P s → ¬ C s a → ∃ t, step s a = .ok t ∧ ¬ P t)
    {s : σ} (hs : P s) {as : List ι} : UntilFault step P s as ↔ Along step C s as := by
  have hinv : ∀ s a t, True → step s a = .ok t → True := fun _ _ _ _ _ => trivial
  exact untilFault_iff_along_of_invariant hinv (fun s a t _ => hgood s a t) (fun s a _ => hbad s a) trivial hs

/-- What every step keeps holds up to a fault. -/
theorem untilFault_of_invariant {Inv : σ → Prop} (hinv : ∀ s a t, Inv s → step s a = .ok t → Inv t)
    {s : σ} (hs : Inv s) (as : List ι) : UntilFault step Inv s as := by
  induction as generalizing s with
  | nil => exact hs
  | cons a rest ih =>
    cases hstep : step s a with
    | ok t => exact (untilFault_cons hstep).mpr ⟨hs, ih (hinv s a t hs hstep)⟩
    | error e => exact ⟨hs, by simp only [hstep]⟩

/-- What admitted steps keep when they do not fault holds up to a fault. -/
theorem untilFault_of_preserved {admits : σ → ι → Prop} {Inv : σ → Prop}
    (hinv : ∀ s a t, Inv s → admits s a → step s a = .ok t → Inv t) {s : σ} (hs : Inv s) {as : List ι}
    (h : Along step admits s as) : UntilFault step Inv s as := by
  induction as generalizing s with
  | nil => exact hs
  | cons a rest ih =>
    have ha : admits s a := by simp only [Along] at h; exact h.1
    cases hstep : step s a with
    | ok t => exact (untilFault_cons hstep).mpr ⟨hs, ih (hinv s a t hs ha hstep) ((along_cons hstep).mp h).2⟩
    | error e => exact ⟨hs, by simp only [hstep]⟩

/-- What the kept states give for each admitted step holds along the run. -/
theorem along_of_preserved {admits C : σ → ι → Prop} {Inv : σ → Prop}
    (hinv : ∀ s a t, Inv s → admits s a → step s a = .ok t → Inv t) (hC : ∀ s a, Inv s → admits s a → C s a)
    {s : σ} (hs : Inv s) {as : List ι} (h : Along step admits s as) : Along step C s as := by
  induction as generalizing s with
  | nil => trivial
  | cons a rest ih =>
    have ha : admits s a := by simp only [Along] at h; exact h.1
    cases hstep : step s a with
    | ok t => exact (along_cons hstep).mpr ⟨hC s a hs ha, ih (hinv s a t hs ha hstep) ((along_cons hstep).mp h).2⟩
    | error e => exact ⟨hC s a hs ha, by simp only [hstep]⟩

/-- A run of admitted steps faults in no other ways than these. -/
theorem final_error {admits : σ → ι → Prop} {Inv : σ → Prop} {E : ε → Prop}
    (hinv : ∀ s a t, Inv s → admits s a → step s a = .ok t → Inv t)
    (herror : ∀ s a e, Inv s → admits s a → step s a = .error e → E e)
    {s : σ} (hs : Inv s) {as : List ι} (h : Along step admits s as) {e : ε}
    (hfinal : GuardedRuns.final step s as = .error e) : E e := by
  induction as generalizing s with
  | nil => cases hfinal
  | cons a rest ih =>
    have ha : admits s a := by simp only [Along] at h; exact h.1
    cases hstep : step s a with
    | ok t =>
      rw [final_cons hstep] at hfinal
      exact ih (hinv s a t hs ha hstep) ((along_cons hstep).mp h).2 hfinal
    | error e' =>
      simp only [GuardedRuns.final, hstep] at hfinal
      exact Except.error.inj hfinal ▸ herror s a e' hs ha hstep

theorem UntilFault.mono {P Q : σ → Prop} (hPQ : ∀ s, P s → Q s) {s : σ} {as : List ι}
    (h : UntilFault step P s as) : UntilFault step Q s as := by
  induction as generalizing s with
  | nil => exact hPQ s h
  | cons a rest ih =>
    cases hstep : step s a with
    | ok t => exact (untilFault_cons hstep).mpr ⟨hPQ s h.head, ih ((untilFault_cons hstep).mp h).2⟩
    | error e => exact ⟨hPQ s h.head, by simp only [hstep]⟩

/-- Where the guard says which steps fault, it says which runs come to their end, and these
simulate the runs of another machine. -/
theorem final_iff_along {τ : Type*} {C : σ → ι → Prop} {R : σ → τ → Prop} {next : τ → ι → τ}
    (hgood : ∀ s t a, R s t → C s a → ∃ s', step s a = .ok s' ∧ R s' (next t a))
    (hbad : ∀ s t a, R s t → ¬ C s a → ∃ e, step s a = .error e) {s : σ} {t : τ} (hs : R s t) {as : List ι} :
    (∃ s', GuardedRuns.final step s as = .ok s' ∧ R s' (as.foldl next t)) ↔ Along step C s as := by
  induction as generalizing s t with
  | nil => exact ⟨fun _ => trivial, fun _ => ⟨s, rfl, hs⟩⟩
  | cons a rest ih =>
    by_cases hC : C s a
    · obtain ⟨u, hu, hR⟩ := hgood s t a hs hC
      rw [final_cons hu, List.foldl_cons, ih hR, along_cons hu, and_iff_right hC]
    · obtain ⟨e, he⟩ := hbad s t a hs hC
      simp only [GuardedRuns.final, Along, he, hC, false_and, reduceCtorEq, exists_false]

section Simulations

variable {τ : Type*}

/-- The runs of a step that may have several outcomes. -/
inductive Path (next : τ → ι → τ → Prop) : τ → List ι → τ → Prop
  | nil {t : τ} : Path next t [] t
  | cons {t u v : τ} {a : ι} {as : List ι} (head : next t a u) (tail : Path next u as v) : Path next t (a :: as) v

/-- What each admitted step simulates, a run of admitted steps simulates, and none faults. -/
theorem final_simulates {admits : σ → ι → Prop} {R : σ → τ → Prop} {next : τ → ι → τ → Prop}
    (hstep : ∀ s t a, R s t → admits s a → ∃ s' t', step s a = .ok s' ∧ next t a t' ∧ R s' t')
    {s : σ} {t : τ} (hs : R s t) {as : List ι} (h : Along step admits s as) :
    ∃ s' t', GuardedRuns.final step s as = .ok s' ∧ Path next t as t' ∧ R s' t' := by
  induction as generalizing s t with
  | nil => exact ⟨s, t, rfl, .nil, hs⟩
  | cons a rest ih =>
    obtain ⟨u, v, hu, hnext, hR⟩ := hstep s t a hs (by simp only [Along] at h; exact h.1)
    obtain ⟨s', t', hfinal, hpath, hR'⟩ := ih hR ((along_cons hu).mp h).2
    exact ⟨s', t', (final_cons hu).trans hfinal, .cons hnext hpath, hR'⟩

end Simulations

section Records

variable {τ : Type*} {observe : σ → ι → List τ} {s : σ × List τ} {a : ι}

/-- The step, with a record of what is observed. -/
def recorded (step : σ → ι → Except ε σ) (observe : σ → ι → List τ) (s : σ × List τ) (a : ι) :
    Except ε (σ × List τ) :=
  match step s.1 a with
  | .ok t => .ok (t, s.2 ++ observe s.1 a)
  | .error e => .error e

theorem recorded_of_ok {t : σ} (h : step s.1 a = .ok t) :
    recorded step observe s a = .ok (t, s.2 ++ observe s.1 a) := by
  simp only [recorded, h]

theorem recorded_cases {u : σ × List τ} (h : recorded step observe s a = .ok u) :
    ∃ t, step s.1 a = .ok t ∧ u = (t, s.2 ++ observe s.1 a) := by
  cases hstep : step s.1 a with
  | ok t =>
    rw [recorded_of_ok hstep] at h
    exact ⟨t, rfl, (Except.ok.inj h).symm⟩
  | error e =>
    simp only [recorded, hstep] at h
    cases h

/-- A record does not change the run. -/
theorem along_recorded {C : σ → ι → Prop} {as : List ι} :
    Along (recorded step observe) (fun s a => C s.1 a) s as ↔ Along step C s.1 as := by
  induction as generalizing s with
  | nil => exact Iff.rfl
  | cons a rest ih =>
    cases hstep : step s.1 a with
    | ok t => rw [along_cons (recorded_of_ok hstep), along_cons hstep, ih]
    | error e => simp only [Along, recorded, hstep]

end Records

end LibXpf.GuardedRuns
