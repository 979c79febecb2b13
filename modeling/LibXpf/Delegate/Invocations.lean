import LibXpf.Delegate.Refinement

/-! # What a call of a delegate calls

A call holds on to the nodes behind the newest one, and looks the newest one up when the
others have returned. As long as nobody takes functors away from a delegate that is being
called, each call calls the functors it found from the oldest on, and last the
functor that is the newest by then: one that was added meanwhile, if there is one.
-/
namespace LibXpf.Delegate
open GuardedRuns LinkedCells

variable {F : Type} {same : F → F → Bool} {s s' : State F} {t : Spec F} {chains : Option ℕ → List (ℕ × F)}
  {l l' : List (ℕ × F)} {c : Call F} {added : ℕ → F → Prop} {d : ℕ}

section Calls

/-- The delegate that an operation adds a functor to, and the functor. -/
def Operation.adds : Operation F → Option (ℕ × F)
  | add d f => some (d, f)
  | _ => none

/-- The operations of functors leave the delegates that are being called their functors, and
whatever they add to them is in `added`. -/
def Spares (added : ℕ → F → Prop) (s : State F) : Label F → Prop
  | .operate op _ => ∀ call ∈ s.calls, op.disturbs ≠ some call.delegate ∧
      ∀ x ∈ op.adds, x.1 = call.delegate → added x.1 x.2
  | _ => True

instance (added : ℕ → F → Prop) [∀ d f, Decidable (added d f)] (s : State F) :
    (l : Label F) → Decidable (Spares added s l)
  | .operate _ _ => inferInstanceAs (Decidable (∀ call ∈ s.calls, _ ∧ ∀ x ∈ _, _ → _))
  | .call _ _ => isTrue trivial
  | .returned => isTrue trivial
  | .thrown => isTrue trivial

/-- A call that has come to its end called every functor that it found but the newest one, from
the oldest on, and then one more: the newest one, or one that was added meanwhile. -/
def Call.Complete (added : ℕ → F → Prop) (call : Call F) : Prop :=
  ∃ g, call.invoked = call.functors.tail.reverse ++ [g] ∧
    (call.functors.head? = some g ∨ added call.delegate g)

/-- Where nothing is added, these are the functors it found. -/
theorem Call.Complete.invoked_eq (h : c.Complete added) (hnone : ∀ g, ¬ added c.delegate g) :
    c.invoked = c.functors.reverse := by
  obtain ⟨g, hinvoked, hg⟩ := h
  have hhead := hg.resolve_right (hnone g)
  rw [hinvoked, ← List.reverse_cons, List.cons_head?_tail hhead]

/-- How far a call has come, where the delegate has the nodes `l` now. -/
def Call.Progresses (added : ℕ → F → Prop) (call : Call F) (l : List (ℕ × F)) : Prop :=
  ∃ newer first rest, l = newer ++ first :: rest ∧ call.functors = first.2 :: values rest ∧
    (∀ y ∈ newer, added call.delegate y.2) ∧
    if call.atLast then
      call.pending = [] ∧ ∃ g, call.invoked = (values rest).reverse ++ [g] ∧ (g = first.2 ∨ added call.delegate g)
    else ∃ called todo, rest.reverse = called ++ todo ∧ call.pending = addresses todo ∧ call.invoked = values called

namespace Call.Progresses

theorem keeps (h : c.Progresses added l) {op : Operation F} (hkeeps : op.Keeps c.delegate l l')
    (hspares : ∀ x ∈ op.adds, x.1 = c.delegate → added x.1 x.2) : c.Progresses added l' := by
  rcases hkeeps with rfl | ⟨a, f, rfl, rfl⟩
  · exact h
  · obtain ⟨newer, first, rest, rfl, hfunctors, hnewer, hplace⟩ := h
    refine ⟨(a, f) :: newer, first, rest, rfl, hfunctors, fun y hy => ?_, hplace⟩
    rcases List.mem_cons.mp hy with rfl | hy
    · exact hspares (c.delegate, f) rfl rfl
    · exact hnewer y hy

theorem ne_nil (h : c.Progresses added l) : l ≠ [] := by
  obtain ⟨newer, first, rest, rfl, _⟩ := h
  exact List.append_ne_nil_of_right_ne_nil newer (List.cons_ne_nil _ _)

/-- The newest functor is the one the call found, or was added meanwhile. -/
theorem newest (h : c.Progresses added l) {y : ℕ × F} {rest' : List (ℕ × F)} (hl : l = y :: rest') :
    c.functors.head? = some y.2 ∨ added c.delegate y.2 := by
  obtain ⟨newer, first, rest, rfl, hfunctors, hnewer, _⟩ := h
  cases newer with
  | nil =>
    rw [hfunctors, ← (List.cons.inj hl).1]
    exact .inl rfl
  | cons x newer =>
    rw [List.cons_append] at hl
    rw [← (List.cons.inj hl).1]
    exact .inr (hnewer x List.mem_cons_self)

theorem complete (h : c.Progresses added l) (hlast : c.atLast = true) : c.Complete added := by
  obtain ⟨newer, first, rest, _, hfunctors, _, hplace⟩ := h
  rw [if_pos hlast] at hplace
  obtain ⟨_, g, hinvoked, hg⟩ := hplace
  rw [Call.Complete, hfunctors]
  exact ⟨g, hinvoked, hg.imp_left (fun heq => congrArg some heq.symm)⟩

end Call.Progresses

/-- The history of a call starts with the functors that the delegate has. -/
theorem functors_spec {p : Option ℕ} {fuel : ℕ} (hnodes : s.heap.Nodes p l) (hfuel : l.length ≤ fuel) :
    s.functors fuel p = values l := by
  induction l generalizing p fuel with
  | nil =>
    obtain rfl : p = none := hnodes
    cases fuel <;> rfl
  | cons y rest ih =>
    obtain ⟨k, rfl⟩ : ∃ k, fuel = k + 1 := ⟨fuel - 1, by simp only [List.length_cons] at hfuel; omega⟩
    obtain ⟨rfl, impl, himpl, hfunctor, hrest⟩ := hnodes
    rw [State.functors, himpl]
    dsimp only
    rw [ih hrest (Nat.le_of_succ_le_succ hfuel), hfunctor]
    rfl

/-- The invariant. -/
structure Attends (added : ℕ → F → Prop) (s : State F) (t : Spec F) (chains : Option ℕ → List (ℕ × F)) : Prop where
  represents : Represents s t chains
  progresses : ∀ call ∈ s.calls, call.Progresses added (chains (some call.delegate))
  complete : ∀ call ∈ s.finished, call.Complete added

namespace Attends

/-- The innermost call goes on. -/
theorem resume (h : Attends added s t chains) : ∃ s', s.resume = .ok s' ∧ Attends added s' t chains := by
  unfold State.resume
  cases hcalls : s.calls with
  | nil => exact ⟨s, rfl, h⟩
  | cons call rest =>
    have hprogress := h.progresses call (hcalls ▸ List.mem_cons_self)
    have hrest : ∀ c ∈ rest, c.Progresses added (chains (some c.delegate)) :=
      fun c hc => h.progresses c (hcalls ▸ List.mem_cons_of_mem _ hc)
    have hchain := h.represents.owns.shared.chain (some call.delegate)
    dsimp only
    -- A call that goes on has its place among the others.
    have hgoes : ∀ c : Call F, c.Progresses added (chains (some c.delegate)) →
        Attends added { s with calls := c :: rest } t chains := by
      intro c hc
      refine ⟨h.represents.of_same rfl rfl rfl rfl, fun c' hc' => ?_, h.complete⟩
      rcases List.mem_cons.mp hc' with rfl | hc'
      · exact hc
      · exact hrest c' hc'
    split
    · next a pending hpending =>
      obtain ⟨newer, first, older, hl, hfunctors, hnewer, hplace⟩ := hprogress
      split at hplace
      · rw [hpending] at hplace
        cases hplace.1
      · next hlast =>
        obtain ⟨called, todo, hreverse, haddresses, hinvoked⟩ := hplace
        rw [hpending] at haddresses
        cases todo with
        | nil => cases haddresses
        | cons y todo =>
          obtain ⟨rfl, rfl⟩ := List.cons.inj haddresses
          have hmem : y ∈ chains (some call.delegate) := by
            rw [hl]
            apply List.mem_append_right
            apply List.mem_cons_of_mem
            rw [← List.mem_reverse, hreverse]
            exact List.mem_append_right _ List.mem_cons_self
          obtain ⟨impl, himpl, hfunctor⟩ := hchain.value_eq hmem
          rw [read_ok himpl, ok_bind]
          refine ⟨_, rfl, hgoes _ ⟨newer, first, older, hl, hfunctors, hnewer, ?_⟩⟩
          rw [if_neg hlast]
          refine ⟨called ++ [y], todo, ?_, rfl, ?_⟩
          · rw [hreverse, List.append_assoc]
            rfl
          · rw [values_append, ← hinvoked, hfunctor]
            rfl
    · next hpending =>
      split
      · next hlast =>
        refine ⟨_, rfl, h.represents.of_same rfl rfl rfl rfl, hrest, fun c hc => ?_⟩
        rcases List.mem_append.mp hc with hc | hc
        · exact h.complete c hc
        · rw [List.mem_singleton.mp hc]
          exact hprogress.complete hlast
      · next hlast =>
        have hne := hprogress.ne_nil
        have ⟨newer, first, older, hl, hfunctors, hnewer, hplace⟩ := hprogress
        rw [if_neg hlast] at hplace
        obtain ⟨called, todo, hreverse, haddresses, hinvoked⟩ := hplace
        rw [hpending] at haddresses
        obtain rfl : todo = [] := List.map_eq_nil_iff.mp haddresses.symm
        rw [List.append_nil] at hreverse
        split
        · next hnone => exact absurd (h.represents.dead hnone) hne
        · next hnone =>
          rw [State.heads, State.pointer, hnone] at hchain
          exact absurd (chain_none.mp hchain) hne
        · next a ha =>
          obtain ⟨impl, rest', himpl, hnodes, _⟩ :=
            h.represents.node_of_pointer (d := call.delegate) (congrArg Option.join ha)
          rw [read_ok himpl, ok_bind]
          refine ⟨_, rfl, hgoes _ ⟨newer, first, older, hl, hfunctors, hnewer, ?_⟩⟩
          rw [if_pos rfl]
          refine ⟨hpending, impl.functor, ?_, ?_⟩
          · rw [hinvoked, ← hreverse, values, List.map_reverse]
            rfl
          · refine (hprogress.newest hnodes).imp_left (fun hhead => ?_)
            rw [hfunctors] at hhead
            exact (Option.some.inj hhead).symm

theorem call (h : Attends added s t chains) (d : ℕ) (isVoid : Bool) :
    ∃ s', s.call d isVoid = .ok s' ∧ ∃ t', Attends added s' t' chains := by
  cases hlast : s.last d with
  | none =>
    rw [State.call, hlast]
    exact ⟨s, rfl, t, h⟩
  | some p =>
    cases p with
    | none =>
      obtain ⟨s', hs', hrep⟩ := h.represents.call (fun _ _ => true) d isVoid
      rw [State.call, hlast] at hs' ⊢
      obtain rfl := Except.ok.inj hs'
      exact ⟨_, rfl, _, hrep, h.progresses, h.complete⟩
    | some a =>
      obtain ⟨x, rest, hnodes, hcall⟩ := h.represents.call_eq isVoid hlast
      have hchain : s.heap.Nodes (some a) (chains (some d)) := by
        have howned := h.represents.owns.shared.chain (some d)
        rwa [State.heads, State.pointer, hlast] at howned
      have hfunctors : s.functors s.heap.nextNode (some a) = x :: values rest := by
        rw [functors_spec hchain (h.represents.owns.length_le _), hnodes]
        rfl
      rw [hcall, hfunctors]
      have hpushed : Attends added { s with
          calls := ⟨d, (addresses rest).reverse, false, x :: values rest, []⟩ :: s.calls } t chains := by
        refine ⟨h.represents.of_same rfl rfl rfl rfl, fun c hc => ?_, h.complete⟩
        rcases List.mem_cons.mp hc with rfl | hc
        · refine ⟨[], (a, x), rest, hnodes, rfl, fun _ hy => absurd hy List.not_mem_nil, ?_⟩
          rw [if_neg Bool.false_ne_true]
          exact ⟨[], rest.reverse, rfl, (List.map_reverse ..).symm, rfl⟩
        · exact h.progresses c hc
      obtain ⟨s', hs', hattends⟩ := hpushed.resume
      exact ⟨s', hs', t, hattends⟩

theorem step (h : Attends added s t chains) {label : Label F} (hl : Spares added s label) :
    ∃ s', step same s label = .ok s' ∧ ∃ t' chains', Attends added s' t' chains' := by
  cases label with
  | operate op copies =>
    obtain ⟨s', chains', hs', hrep, ⟨hcalls, hfinished⟩, hkeeps⟩ := h.represents.operate_step same op copies
    refine ⟨s', hs', _, chains', hrep, fun c hc => ?_, fun c hc => h.complete c (hfinished ▸ hc)⟩
    rw [hcalls] at hc
    have hprogress := h.progresses c hc
    have hlast : (s.last c.delegate).isSome = true := by
      rw [Option.isSome_iff_ne_none]
      exact fun hnone => hprogress.ne_nil (h.represents.dead hnone)
    exact hprogress.keeps (hkeeps c.delegate hlast (hl c hc).1) (hl c hc).2
  | call d isVoid =>
    obtain ⟨s', hs', t', hattends⟩ := h.call d isVoid
    exact ⟨s', hs', t', chains, hattends⟩
  | returned =>
    obtain ⟨s', hs', hattends⟩ := h.resume
    exact ⟨s', hs', t, chains, hattends⟩
  | thrown =>
    refine ⟨_, rfl, t, chains, h.represents.of_same rfl rfl rfl rfl, fun c hc => ?_, h.complete⟩
    exact h.progresses c (List.mem_of_mem_tail hc)

end Attends
end Calls

/-- As long as the functors that are called leave the delegates in use their functors, no call
faults, and each calls what it found, in the order in which it was added; only the newest one
may give way to one of those that were added meanwhile. -/
theorem calls_complete (added : ℕ → F → Prop) (labels : List (Label F))
    (h : Along (step same) (Spares added) State.initial labels) :
    Throughout (step same)
      (fun s => ∀ call ∈ s.finished, call.Complete added ∧
        ((∀ g, ¬ added call.delegate g) → call.invoked = call.functors.reverse)) State.initial labels := by
  have hattends : Throughout (step same) (fun s => ∃ t chains, Attends added s t chains) State.initial labels := by
    refine throughout_of_invariant ?_ ⟨Spec.initial, fun _ => [], .initial, ?_, ?_⟩ h
    · rintro s l ⟨t, chains, hs⟩ hl
      exact hs.step hl
    · exact fun _ hc => absurd hc List.not_mem_nil
    · exact fun _ hc => absurd hc List.not_mem_nil
  refine hattends.mono ?_
  rintro s ⟨t, chains, hs⟩ call hcall
  exact ⟨hs.complete call hcall, (hs.complete call hcall).invoked_eq⟩

/-- While the older of two functors runs, another one is added, and a copy of the delegate fails.
The call ends with the functor that was added. -/
def growingRun : List (Label ℕ) :=
  [.operate .construct none, .operate (.add 0 7) none, .operate (.add 0 8) none, .call 0 true,
    .operate (.add 0 9) (some 1), .operate (.minus 0 7) (some 1), .returned, .returned]

theorem calls_complete_growingRun :
    Throughout (step (· == ·))
      (fun s => ∀ call ∈ s.finished, call.Complete (fun d f => d = 0 ∧ f = 9) ∧
        ((∀ g, ¬ (call.delegate = 0 ∧ g = 9)) → call.invoked = call.functors.reverse)) State.initial growingRun :=
  calls_complete (fun d f => d = 0 ∧ f = 9) growingRun (by decide)

example : Returns (final (step (· == ·)) State.initial growingRun)
    (fun s => s.finished.map (·.invoked) = [[7, 9]] ∧ s.outcomes = [.done, .done, .done, .done, .threw]) := by decide

end LibXpf.Delegate
