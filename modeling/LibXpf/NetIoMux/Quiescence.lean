import LibXpf.NetIoMux.KqueueWakeups

/-! # A multiplexer at rest has delivered everything

A state is quiet when no worker has anything in its hands, both lists are empty
and the kernel is armed for no socket: nothing the multiplexer does by itself
would ever call a callback again. Conservation leaves an operation that was not
delivered in a queue, and a queue with operations is covered, so there is none.
-/
namespace LibXpf.NetIoMux
open GuardedRuns ClassifiedQueues

variable {n : ℕ} {b : Backend} {s : State n}

/-- Neither a worker nor the kernel has anything left to do. -/
structure Quiet (s : State n) : Prop where
  completed : s.mCompletionList = []
  listed : s.mReadyList = []
  workers : ∀ w, (s.worker w).serving = none ∧ (s.worker w).events = []
  disarmed : ∀ e, ¬ (s.descriptor e).Armed

/-- The callback of every submitted operation was called once, and on each side of an
endpoint in the order of submission. -/
structure AllDelivered (s : State n) : Prop where
  once : ∀ o ∈ s.submitted, o.occurrences s.popped = 1
  in_order : ∀ ep mode,
    (s.popped.filter (fun o => o.sep = ep ∧ o.iotype.side = mode)).map Overlapped.id =
      (s.submitted.filter (fun o => o.sep = ep ∧ o.iotype.side = mode)).map Overlapped.id

namespace Quiet

theorem not_ticketed (h : Quiet s) (e : ℕ) : ¬ s.Ticketed e := by
  rintro (hlist | ⟨w, hw⟩)
  · rw [h.listed] at hlist
    cases hlist
  · cases (h.workers w).1.symm.trans hw

theorem not_armedFor (h : Quiet s) (e : ℕ) (mode : Mode) : (s.descriptor e).armedFor mode ≠ true := by
  intro harmed
  apply h.disarmed e
  cases mode with
  | read => exact .inl harmed
  | write => exact .inr harmed

theorem no_event (h : Quiet s) {w : Fin n} {evt : Event} : evt ∉ (s.worker w).events := by
  rw [(h.workers w).2]
  exact List.not_mem_nil

theorem queue_eq_nil (h : Quiet s) (hcovered : NoLostWakeup s) (e : ℕ) (mode : Mode) :
    s.queue e mode = [] := by
  cases hctx : s.context e with
  | none => rw [State.queue, hctx]
  | some ctx =>
    rw [queue_of_context hctx]
    by_contra hqueue
    rcases hcovered e ctx mode hctx hqueue with hcase | ⟨w, evt, hevt, _⟩ | hcase
    · exact h.not_ticketed e hcase
    · exact h.no_event hevt
    · exact h.not_armedFor e mode hcase

theorem allDelivered (h : Quiet s) (hcovered : NoLostWakeup s) (haccounted : Accounted s) :
    AllDelivered s := by
  have hempty := h.queue_eq_nil hcovered
  constructor
  · intro o ho
    have hone := haccounted.delivered.once o ho
    rw [hempty, hempty, h.completed] at hone
    simpa only [Overlapped.occurrences, List.map_nil, List.count_nil, zero_add] using hone
  · intro ep mode
    have hline := haccounted.balanced (ep, mode)
    rw [State.waiting, hempty, List.map_nil, List.append_nil, h.completed, List.append_nil] at hline
    rw [← ofClass_keys, ← ofClass_keys, hline]

end Quiet

/-- With either backend, a run that comes to rest has called every callback. -/
theorem quiet_allDelivered (b : Backend) (n : ℕ) (labels : List (Label n)) (h : ∀ l ∈ labels, ¬ l.departs) :
    Throughout (step b) (fun s => Quiet s → AllDelivered s) (State.initial n) labels := by
  have hcovered : Throughout (step b) NoLostWakeup (State.initial n) labels := by
    cases b with
    | epoll => exact noLostWakeup_throughout n labels h
    | kqueue => exact (noLostFilter_throughout n labels h).mono (fun _ => NoLostFilter.noLostWakeup)
  apply ((Accounted.throughout b n labels h).and hcovered).mono
  exact fun s hs hquiet => hquiet.allDelivered hs.2 hs.1

theorem quiet_allDelivered_strayEventRun :
    Throughout (step .kqueue) (fun s => Quiet s → AllDelivered s) (State.initial 1) strayEventRun :=
  quiet_allDelivered .kqueue 1 strayEventRun (by decide)

end LibXpf.NetIoMux
