import LibXpf.NetIoMux.ReadyList

/-! # What `depart` leaves behind

`depart` removes the endpoint from the kernel first, and deletes the context
later, with no look at the workers. A worker that was given an event for the
endpoint, or waits for the lock of its context, goes on to use a context that is
gone. Nothing goes wrong if nothing refers to the endpoint any more when its
context is deleted, but for the one ticket that `depart` takes back.
-/
namespace LibXpf.NetIoMux
open GuardedRuns

variable {n : ℕ} {b : Backend} {s t : State n}

/-- The worker will lock the context of `ep`. -/
def Pc.Uses (ep : ℕ) : Pc → Prop
  | .fetched e _ => e = ep
  | .handling evts => ∃ evt ∈ evts, evt.ep = ep
  | .holding _ evt rest => ∃ o ∈ evt :: rest, o.ep = ep
  | _ => False

instance (ep : ℕ) (pc : Pc) : Decidable (pc.Uses ep) := by
  cases pc <;> simp only [Pc.Uses] <;> infer_instance

instance (d : Descriptor) : Decidable d.Armed := inferInstanceAs (Decidable (_ ∨ _))

/-- When a context is deleted, no worker is about to lock it, the kernel will not
report its endpoint, and the ready list has the endpoint as often as its flag says. -/
def DepartsUnused (s : State n) : Label n → Prop
  | .departContext ep =>
    match s.context ep with
    | some ctx => (∀ w, ¬ (s.worker w).Uses ep) ∧ ¬ (s.descriptor ep).Armed ∧
      s.mReadyList.count ep ≤ if ctx.ready then 1 else 0
    | none => True
  | _ => True

instance (s : State n) : (l : Label n) → Decidable (DepartsUnused s l)
  | .departContext ep => by
    dsimp only [DepartsUnused]
    exact match s.context ep with
      | some _ => inferInstanceAs (Decidable (_ ∧ _ ∧ _))
      | none => isTrue trivial
  | .join _ | .async _ _ | .popCompletion _ | .popReady _ | .getContext _ | .processReady _ _ | .wait _ _ |
    .getEventContext _ | .processEvent _ | .settle _ _ | .departKernel _ => isTrue trivial

/-- An endpoint without a context is not in the ready list. -/
def DepartedUnlisted (s : State n) : Prop := ∀ ep, s.context ep = none → ep ∉ s.mReadyList

theorem Pc.Tracked.of_unused {ep : ℕ} {pc : Pc} (h : pc.Tracked s) (hunused : ¬ pc.Uses ep)
    (hctx : ∀ e, e ≠ ep → t.context e = s.context e) : pc.Tracked t := by
  cases pc with
  | fetched e cnt =>
    have hkeep := hctx e hunused
    simp only [Pc.Tracked] at h ⊢
    rwa [hkeep]
  | handling evts =>
    intro evt hevt
    rw [hctx evt.ep (fun hep => hunused ⟨evt, hevt, hep⟩)]
    exact h evt hevt
  | holding null evt rest =>
    refine ⟨h.1, ?_⟩
    intro o ho
    rw [hctx o.ep (fun hep => hunused ⟨o, ho, hep⟩)]
    exact h.2 o ho
  | _ => trivial

namespace Tracked

theorem departKernel (h : Tracked s) (ep : ℕ) : Tracked (s.departKernel b ep) := by
  unfold State.departKernel
  split
  · next hguard =>
    cases b with
    | epoll =>
      refine (h.disarm (d := { s.descriptor ep with registered := false, armedIn := false, armedOut := false })
        hguard.1 ?_).relist rfl rfl rfl (fun e he => .inl he)
      rintro (harmed | harmed) <;> cases harmed
    | kqueue =>
      refine (h.disarm
        (d := { s.descriptor ep with
          armedIn := false
          armedOut := if (s.descriptor ep).armedIn then false else (s.descriptor ep).armedOut })
        hguard.1 ?_).relist rfl rfl rfl (fun e he => .inl he)
      rintro (harmed | harmed)
      · cases harmed
      · dsimp only at harmed
        split at harmed
        · cases harmed
        · exact .inr harmed
  · exact h

/-- A context that nothing refers to any more can go. -/
theorem deleteContext (h : Tracked s) {ep : ℕ} {ctx : AsyncContext} (hctx : s.context ep = some ctx)
    (hworkers : ∀ w, ¬ (s.worker w).Uses ep) (harmed : ¬ (s.descriptor ep).Armed)
    (hcount : s.mReadyList.count ep ≤ if ctx.ready then 1 else 0) :
    Tracked { s.setContext ep none with
      mReadyList := if ctx.ready then s.mReadyList.erase ep else s.mReadyList } := by
  have hlt : ep < s.nextEp := h.lt_nextEp (by rw [hctx]; exact Option.some_ne_none ctx)
  have hkeep : ∀ e, e ≠ ep → (s.setContext ep none).context e = s.context e := by
    intro e he
    rw [setContext_context, if_neg he]
  refine ⟨?_, ?_, ?_, ?_⟩
  · intro e he
    have hne : e ≠ ep := (lt_of_lt_of_le hlt he).ne'
    exact (setContext_socket s ep e none).trans ((if_neg hne).trans (h.unused e he))
  · intro e he
    have hkernel : (s.descriptor e).Armed := by rwa [← setContext_descriptor s ep e none]
    have hne : e ≠ ep := by
      rintro rfl
      exact harmed hkernel
    exact (hkeep e hne).trans_ne (h.armed e hkernel)
  · exact fun w => (h.workers w).of_unused (hworkers w) hkeep
  · intro e he
    have hlisted : e ∈ s.mReadyList := by
      dsimp only at he
      split at he
      · exact List.mem_of_mem_erase he
      · exact he
    have hne : e ≠ ep := by
      rintro rfl
      have hpos := List.count_pos_iff.mpr he
      dsimp only at hpos
      split at hpos
      · next hready =>
        rw [if_pos hready] at hcount
        rw [List.count_erase_self] at hpos
        omega
      · next hready =>
        rw [if_neg hready] at hcount
        omega
    exact (hkeep e hne).trans_ne (h.listed e hlisted)

/-- With its departures every move keeps the contexts in use, if they leave none unused. -/
theorem move_departing (h : Tracked s) {l : Label n} (hunused : DepartsUnused s l) (hmove : Move b s l t) :
    Tracked t := by
  have hsame := hmove
  cases hmove with
  | stutter => exact h
  | turn l w pc hturn => exact h.setWorker w pc (hturn.tracked (h.workers w))
  | departKernel ep => exact h.departKernel ep
  | departNull ep hctx => exact h.relist rfl rfl rfl (fun e he => .inl he)
  | departContext ep removed ctx hdeparting hctx =>
    simp only [DepartsUnused, hctx] at hunused
    obtain ⟨hworkers, harmed, hcount⟩ := hunused
    exact (h.deleteContext hctx hworkers harmed hcount).relist rfl rfl rfl (fun e he => .inl he)
  | _ => exact h.move id hsame

end Tracked

/-- The endpoint of `servedRun` departs once its input has been read. -/
def servedDepartRun : List (Label 1) := servedRun ++ [.departKernel 0, .departContext 0]

/-- The kernel has returned the event for a `recv` when the endpoint departs. -/
def staleEventRun : List (Label 1) :=
  [.join .connected, .async 0 (.recv 100 8 7), .popCompletion w₀, .popReady w₀, .getContext w₀,
    .processReady w₀ (fun _ => .wouldBlock), .wait w₀ (some [⟨0, true, false, false⟩]),
    .departKernel 0, .departContext 0, .getEventContext w₀, .processEvent w₀]

theorem staleEventRun_fails :
    Fails (final (step .epoll) (State.initial 1) staleEventRun) .nullDereference := by
  decide +kernel

end LibXpf.NetIoMux
