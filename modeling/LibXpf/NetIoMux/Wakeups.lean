import LibXpf.NetIoMux.ReadyList

/-! # No lost wakeup with epoll

A queue that is not empty is covered: its endpoint has a ticket, or an event for
it waits at a worker, or the kernel is armed for it. A delivery disarms the
kernel and puts an event in its place, the event turns into a ticket or empties
the queues, and the ticket ends in a ready section that arms the kernel again.
-/
namespace LibXpf.NetIoMux
open GuardedRuns

variable {n : ℕ} {b : Backend} {s t : State n}

def AsyncContext.queue (ctx : AsyncContext) : Mode → List Overlapped
  | .read => ctx.rdqueue
  | .write => ctx.wrqueue

def Descriptor.armedFor (d : Descriptor) : Mode → Bool
  | .read => d.armedIn
  | .write => d.armedOut

section Coverage

/-- A worker was given an event for `ep` that it has not processed. -/
def State.Reported (s : State n) (ep : ℕ) : Prop := ∃ w, ∃ evt ∈ (s.worker w).events, evt.ep = ep

def State.Covered (s : State n) (ep : ℕ) (mode : Mode) : Prop :=
  s.Ticketed ep ∨ s.Reported ep ∨ (s.descriptor ep).armedFor mode = true

/-- A queue with operations in it is covered. -/
def NoLostWakeup (s : State n) : Prop :=
  ∀ ep ctx mode, s.context ep = some ctx → ctx.queue mode ≠ [] → s.Covered ep mode

theorem ticketed_setWorker {w : Fin n} {pc : Pc} {e : ℕ}
    (hkeep : (s.worker w).serving = some e → pc.serving = some e) (h : s.Ticketed e) :
    (s.setWorker w pc).Ticketed e := by
  rcases h with h | ⟨v, hv⟩
  · exact .inl h
  · refine .inr ⟨v, ?_⟩
    rw [setWorker_worker]
    split
    · next hvw =>
      subst hvw
      exact hkeep hv
    · exact hv

theorem reported_setWorker {w : Fin n} {pc : Pc} {e : ℕ}
    (hkeep : ∀ evt ∈ (s.worker w).events, evt.ep = e → evt ∈ pc.events) (h : s.Reported e) :
    (s.setWorker w pc).Reported e := by
  obtain ⟨v, evt, hevt, hep⟩ := h
  refine ⟨v, evt, ?_, hep⟩
  rw [setWorker_worker]
  split
  · next hvw =>
    subst hvw
    exact hkeep evt hevt hep
  · exact hevt

end Coverage

/-- What the invariant says of one endpoint. -/
structure AwakeAt (s : State n) (e : ℕ) : Prop where
  flagged : ∀ ctx, s.context e = some ctx → ctx.ready = true → s.Ticketed e
  covered : ∀ ctx mode, s.context e = some ctx → ctx.queue mode ≠ [] → s.Covered e mode

namespace AwakeAt

/-- Nothing that covers the endpoint is lost. -/
theorem keep {e : ℕ} (h : AwakeAt s e) (hsame : t.context e = s.context e)
    (harmed : ∀ mode, (t.descriptor e).armedFor mode = (s.descriptor e).armedFor mode)
    (hticketed : s.Ticketed e → t.Ticketed e) (hreported : s.Reported e → t.Reported e) :
    AwakeAt t e where
  flagged ctx hctx hready := hticketed (h.flagged ctx (hsame ▸ hctx) hready)
  covered ctx mode hctx hqueue := by
    rw [State.Covered, harmed mode]
    exact (h.covered ctx mode (hsame ▸ hctx) hqueue).imp hticketed (Or.imp_left hreported)

theorem of_socket {e : ℕ} (h : AwakeAt s e) (hsocket : t.socket e = s.socket e)
    (hticketed : s.Ticketed e → t.Ticketed e) (hreported : s.Reported e → t.Reported e) :
    AwakeAt t e := by
  apply h.keep ?_ ?_ hticketed hreported
  · rw [State.context, State.endpoint, hsocket]
  · intro mode
    rw [State.descriptor, hsocket]

theorem of_ticketed {e : ℕ} (h : t.Ticketed e) : AwakeAt t e where
  flagged _ _ _ := h
  covered _ _ _ _ := .inl h

theorem of_empty {e : ℕ} (h : t.context e = some AsyncContext.empty ∨ t.context e = none) :
    AwakeAt t e where
  flagged ctx hctx hready := by
    rcases h with h | h
    · cases h.symm.trans hctx
      cases hready
    · cases h.symm.trans hctx
  covered ctx mode hctx hqueue := by
    rcases h with h | h
    · cases h.symm.trans hctx
      cases mode <;> exact absurd rfl hqueue
    · cases h.symm.trans hctx

end AwakeAt

def Event.Tells (evt : Event) : Prop :=
  evt.readable = true ∨ evt.writable = true ∨ evt.error = true

/-- The invariant. An event that waits at a worker says something. -/
structure Awake (s : State n) : Prop where
  tracked : Tracked s
  telling : ∀ w, ∀ evt ∈ (s.worker w).events, evt.Tells
  awakeAt : ∀ e, AwakeAt s e

theorem afterEvents_events (evts : List Event) : (State.afterEvents evts).events = evts := by
  cases evts <;> rfl

theorem harvest_tells {evts : List Event} {before after : ℕ → Socket}
    (h : harvest .epoll before evts = some after) : ∀ evt ∈ evts, evt.Tells := by
  induction evts generalizing before with
  | nil => exact fun evt hevt => absurd hevt List.not_mem_nil
  | cons evt rest ih =>
    rw [harvest] at h
    split at h
    · next hdeliver =>
      intro e he
      rcases List.mem_cons.mp he with rfl | he
      · exact hdeliver.2.2.2
      · exact ih h e he
    · cases h

theorem telling_setWorker (h : ∀ v, ∀ evt ∈ (s.worker v).events, evt.Tells) {w : Fin n} {pc : Pc}
    (hpc : ∀ evt ∈ pc.events, evt.Tells) :
    ∀ v, ∀ evt ∈ ((s.setWorker w pc).worker v).events, evt.Tells := by
  intro v evt hevt
  rw [setWorker_worker] at hevt
  split at hevt
  · exact hpc evt hevt
  · exact h v evt hevt

/-- A submission leaves its endpoint with a ticket. -/
theorem submit_ticketed {ep : ℕ} {ctx : AsyncContext} {call : AsyncCall}
    (hctx : s.context ep = some ctx) (h : AwakeAt s ep) : (s.submit ep ctx call).Ticketed ep := by
  cases hready : ctx.ready with
  | true =>
    refine (h.flagged ctx hctx hready).imp ?_ id
    intro hlist
    simp only [State.submit, hready, if_true]
    exact hlist
  | false =>
    refine .inl ?_
    simp only [State.submit, hready, Bool.false_eq_true, if_false]
    exact List.mem_append_right _ (List.mem_singleton.mpr rfl)

theorem Turn.serving {pc pc' : Pc} {e : ℕ} (h : Turn s pc pc') (he : s.context e ≠ none)
    (hserving : pc.serving = some e) : pc'.serving = some e := by
  cases h with
  | contextNull hctx =>
    cases hserving
    exact absurd hctx he
  | contextRead hctx => exact hserving
  | _ => cases hserving

theorem Turn.events {pc pc' : Pc} (h : Turn s pc pc') : pc'.events = pc.events := by
  cases h <;> rfl

/-- The ready section covers what it leaves in a queue by arming the kernel. -/
theorem ready_awakeAt (s : State n) (ep : ℕ) (ctx : AsyncContext) (results : ℕ → IoResult)
    (w : Fin n) (cnt : ℕ) : AwakeAt ((s.ready .epoll ep ctx results).setWorker w (.waiting cnt)) ep := by
  have hself : ((s.ready .epoll ep ctx results).setWorker w (.waiting cnt)).context ep = _ :=
    ready_context
  have harmed : ((s.ready .epoll ep ctx results).setWorker w (.waiting cnt)).descriptor ep = _ :=
    ready_descriptor
  constructor
  · intro c hc hready
    cases hself.symm.trans hc
    cases hready
  · intro c mode hc hqueue
    cases hself.symm.trans hc
    refine .inr (.inr ?_)
    rw [harmed]
    cases mode with
    | read =>
      have hrd : (s.performQueues ep ctx results).rdqueue.isEmpty = false :=
        List.isEmpty_eq_false_iff.mpr hqueue
      simp only [Descriptor.arm, hrd, Bool.not_false, Bool.true_or, if_true, Descriptor.armedFor]
    | write =>
      have hwr : (s.performQueues ep ctx results).wrqueue.isEmpty = false :=
        List.isEmpty_eq_false_iff.mpr hqueue
      simp only [Descriptor.arm, hwr, Bool.not_false, Bool.or_true, if_true, Descriptor.armedFor]

theorem handle_ticketed {evt : Event} {ctx : AsyncContext} {e : ℕ} (h : s.Ticketed e) :
    (s.handle b evt ctx).Ticketed e := by
  refine h.imp ?_ id
  intro hlist
  simp only [State.handle]
  split
  · exact List.mem_append_left _ hlist
  · exact hlist

/-- An event empties the queues, or becomes a ticket. -/
theorem handle_awakeAt (s : State n) {evt : Event} (ctx : AsyncContext) (w : Fin n) (rest : List Event)
    (htells : evt.Tells) :
    AwakeAt ((s.handle .epoll evt ctx).setWorker w (State.afterEvents rest)) evt.ep := by
  cases herror : evt.error with
  | true =>
    refine .of_empty (.inl ?_)
    have hself : ((s.handle .epoll evt ctx).setWorker w (State.afterEvents rest)).context evt.ep =
        some (ctx.handle .epoll evt).ctx := handle_context .epoll s evt ctx
    rw [hself, AsyncContext.handle, herror, if_pos rfl]
  | false =>
    have hdata : (evt.readable || evt.writable) = true := by
      rw [Bool.or_eq_true]
      rcases htells with h | h | h
      · exact .inl h
      · exact .inr h
      · cases herror.symm.trans h
    have hlisted : (ctx.handle .epoll evt).listed = true := by
      simp only [AsyncContext.handle, herror, hdata, Bool.false_eq_true, if_false, if_true]
    refine .of_ticketed (.inl ?_)
    simp only [State.setWorker, State.handle, hlisted, if_true]
    exact List.mem_append_right _ (List.mem_singleton.mpr rfl)

namespace AwakeAt

variable {e : ℕ}

theorem setWorker (h : AwakeAt s e) (w : Fin n) (pc : Pc)
    (hserving : s.context e ≠ none → (s.worker w).serving = some e → pc.serving = some e)
    (hevents : ∀ evt ∈ (s.worker w).events, evt.ep = e → evt ∈ pc.events) :
    AwakeAt (s.setWorker w pc) e := by
  cases hctx : s.context e with
  | none => exact .of_empty (.inr hctx)
  | some ctx =>
    have hctx' : s.context e ≠ none := by
      rw [hctx]
      exact Option.some_ne_none ctx
    exact h.of_socket rfl (ticketed_setWorker (hserving hctx')) (reported_setWorker hevents)

/-- A delivery disarms the kernel, and its event covers the endpoint instead. -/
theorem wait (h : AwakeAt s e) {w : Fin n} {evts : List Event} {cnt : ℕ} {socket : ℕ → Socket}
    (hpc : s.worker w = .waiting cnt) (hharvest : harvest b s.socket evts = some socket) :
    AwakeAt { s.setWorker w (State.afterEvents evts) with socket := socket } e := by
  have hticketed : s.Ticketed e → (s.setWorker w (State.afterEvents evts)).Ticketed e := by
    refine ticketed_setWorker ?_
    rw [hpc]
    intro hserving
    cases hserving
  have hreported : s.Reported e → (s.setWorker w (State.afterEvents evts)).Reported e := by
    refine reported_setWorker ?_
    rw [hpc]
    exact fun evt hevt _ => absurd hevt List.not_mem_nil
  obtain ⟨hendpoint, _⟩ := harvest_socket hharvest e
  constructor
  · intro ctx hctx hready
    exact hticketed (h.flagged ctx ((congrArg NetEndpoint.asyncContext hendpoint).symm.trans hctx) hready)
  · intro ctx mode hctx hqueue
    rcases h.covered ctx mode ((congrArg NetEndpoint.asyncContext hendpoint).symm.trans hctx) hqueue with
      hcase | hcase | hcase
    · exact .inl (hticketed hcase)
    · exact .inr (.inl (hreported hcase))
    · by_cases hevt : ∃ evt ∈ evts, evt.ep = e
      · obtain ⟨evt, hmem, hep⟩ := hevt
        refine .inr (.inl ⟨w, evt, ?_, hep⟩)
        dsimp only
        rwa [setWorker_worker, if_pos rfl, afterEvents_events]
      · refine .inr (.inr ?_)
        have hsame := harvest_untouched hharvest (e := e) (fun evt hmem hep => hevt ⟨evt, hmem, hep⟩)
        simp only [State.descriptor, hsame]
        exact hcase

/-- A new endpoint has an empty context, or none. -/
theorem join (h : AwakeAt s e) (status : EStatus) : AwakeAt (s.openSocket status) e := by
  by_cases he : e = s.nextEp
  · refine .of_empty (.inl ?_)
    rw [State.context, State.endpoint, openSocket_socket, if_pos he]
    rfl
  · refine h.of_socket ?_ id id
    rw [openSocket_socket, if_neg he]

/-- An operation that is submitted leaves its endpoint with a ticket. -/
theorem submit (h : AwakeAt s e) {ep : ℕ} {ctx : AsyncContext} (hctx : s.context ep = some ctx) (call : AsyncCall) :
    AwakeAt (s.submit ep ctx call) e := by
  by_cases he : e = ep
  · subst he
    exact .of_ticketed (submit_ticketed hctx h)
  · refine h.of_socket ?_ ?_ id
    · rw [State.submit, setContext_socket, if_neg he]
    · refine Or.imp_left ?_
      intro hlist
      simp only [State.submit]
      split
      · exact hlist
      · exact List.mem_append_left _ hlist

/-- The worker that takes an endpoint from the ready list serves it instead. -/
theorem popReady (h : AwakeAt s e) {w : Fin n} {ep : ℕ} {rest : List ℕ} (hpc : s.worker w = .polled)
    (hlist : s.mReadyList = ep :: rest) :
    AwakeAt { s.setWorker w (.popped ep rest.length) with mReadyList := rest } e := by
  refine h.of_socket rfl ?_ ?_
  · rintro (he | ⟨v, hv⟩)
    · rw [hlist] at he
      rcases List.mem_cons.mp he with rfl | he
      · refine .inr ⟨w, ?_⟩
        dsimp only
        rw [setWorker_worker, if_pos rfl]
        rfl
      · exact .inl he
    · refine .inr ⟨v, ?_⟩
      dsimp only
      rw [setWorker_worker, if_neg]
      · exact hv
      · rintro rfl
        rw [hpc] at hv
        cases hv
  · exact reported_setWorker (by rw [hpc]; exact fun evt hevt _ => hevt)

/-- Serving one endpoint leaves the others awake, also those that join. -/
theorem ready (h : AwakeAt s e) {w : Fin n} {ep cnt : ℕ} (ctx : AsyncContext) (results : ℕ → IoResult)
    (hpc : s.worker w = .fetched ep cnt) :
    AwakeAt ((s.ready .epoll ep ctx results).setWorker w (.waiting cnt)) e := by
  by_cases he : e = ep
  · rw [he]
    exact ready_awakeAt s ep ctx results w cnt
  · rcases ready_socket_of_ne .epoll s ctx results he with heq | ⟨_, _, a, _, hjoined⟩
    · refine h.of_socket heq ?_ ?_
      · refine ticketed_setWorker ?_
        rw [hpc]
        intro hserving
        exact absurd (Option.some.inj hserving).symm he
      · refine reported_setWorker ?_
        rw [hpc]
        exact fun evt hevt _ => hevt
    · refine .of_empty (.inl ?_)
      exact congrArg (fun k : Socket => k.endpoint.asyncContext) hjoined

/-- An event that is handled no longer covers its endpoint, and only that one. -/
theorem handle (h : AwakeAt s e) {w : Fin n} {evt : Event} {rest : List Event} (ctx : AsyncContext)
    (hpc : s.worker w = .holding false evt rest) (htells : evt.Tells) :
    AwakeAt ((s.handle .epoll evt ctx).setWorker w (State.afterEvents rest)) e := by
  have hworker : (s.handle .epoll evt ctx).worker w = .holding false evt rest := hpc
  by_cases he : e = evt.ep
  · rw [he]
    exact handle_awakeAt s ctx w rest htells
  · refine h.of_socket ?_ ?_ ?_
    · exact (setContext_socket ..).trans (if_neg he)
    · intro hticketed
      refine ticketed_setWorker (s := s.handle .epoll evt ctx) ?_ (handle_ticketed hticketed)
      rw [hworker]
      intro hserving
      cases hserving
    · refine reported_setWorker (s := s.handle .epoll evt ctx) ?_
      rw [hworker, afterEvents_events]
      intro o ho hep
      rcases List.mem_cons.mp ho with rfl | ho
      · exact absurd hep.symm he
      · exact ho

/-- The end of a connect attempt arms nothing and disarms nothing. -/
theorem settle (h : AwakeAt s e) (ep : ℕ) (c : Connection) :
    AwakeAt (s.setDescriptor ep { s.descriptor ep with connection := c }) e := by
  refine h.keep ?_ ?_ id id
  · rw [State.context, setDescriptor_endpoint]
  · intro mode
    rw [State.descriptor, setDescriptor_socket]
    split
    · next he =>
      rw [he]
      cases mode <;> rfl
    · rfl

end AwakeAt

namespace Awake

theorem initial (n : ℕ) : Awake (State.initial n) where
  tracked := .initial n
  telling _ _ hevt := absurd hevt List.not_mem_nil
  awakeAt _ := .of_empty (.inr rfl)

theorem noLostWakeup (h : Awake s) : NoLostWakeup s :=
  fun ep ctx mode hctx hqueue => (h.awakeAt ep).covered ctx mode hctx hqueue

theorem move (h : Awake s) {l : Label n} (hl : ¬ l.departs) (hmove : Move .epoll s l t) : Awake t := by
  have htracked := h.tracked.move hl hmove
  cases hmove with
  | stutter => exact h
  | nullContext ep call => exact ⟨htracked, h.telling, fun e => (h.awakeAt e).of_socket rfl id id⟩
  | turn l w pc hturn =>
    refine ⟨htracked, telling_setWorker h.telling ?_, ?_⟩
    · rw [hturn.events]
      exact h.telling w
    · intro e
      refine (h.awakeAt e).setWorker w pc hturn.serving ?_
      intro evt hevt _
      rwa [hturn.events]
  | waitFails w cnt hpc =>
    refine ⟨htracked, telling_setWorker h.telling (fun _ hevt => absurd hevt List.not_mem_nil), ?_⟩
    intro e
    have hw := (h.awakeAt e).setWorker w .idle (by rw [hpc]; exact fun _ he => he)
      (by rw [hpc]; exact fun evt hevt _ => hevt)
    exact hw.of_socket rfl id id
  | join status => exact ⟨htracked, h.telling, fun e => (h.awakeAt e).join status⟩
  | async ep call ctx hctx => exact ⟨htracked, h.telling, fun e => (h.awakeAt e).submit hctx call⟩
  | popCompletion w co rest hpc hlist =>
    refine ⟨htracked, telling_setWorker h.telling (fun _ hevt => absurd hevt List.not_mem_nil), ?_⟩
    intro e
    have hw := (h.awakeAt e).setWorker w .polled (by rw [hpc]; exact fun _ he => he)
      (by rw [hpc]; exact fun evt hevt _ => hevt)
    exact hw.of_socket rfl id id
  | popReady w ep rest hpc hlist =>
    refine ⟨htracked, telling_setWorker h.telling (fun _ hevt => absurd hevt List.not_mem_nil), ?_⟩
    exact fun e => (h.awakeAt e).popReady hpc hlist
  | ready w results ep cnt ctx hpc hctx =>
    refine ⟨htracked, ?_, fun e => (h.awakeAt e).ready ctx results hpc⟩
    exact telling_setWorker (s := s.ready .epoll ep ctx results)
      h.telling (fun _ hevt => absurd hevt List.not_mem_nil)
  | wait w evts cnt socket hpc hharvest =>
    refine ⟨htracked, ?_, fun e => (h.awakeAt e).wait hpc hharvest⟩
    refine telling_setWorker h.telling ?_
    rw [afterEvents_events]
    exact harvest_tells hharvest
  | handle w evt rest ctx hpc hctx =>
    have hevents : ∀ e ∈ evt :: rest, e.Tells := by
      have hw := h.telling w
      rw [hpc] at hw
      exact hw
    refine ⟨htracked, ?_, fun e => (h.awakeAt e).handle ctx hpc (hevents evt List.mem_cons_self)⟩
    refine telling_setWorker (s := s.handle .epoll evt ctx) h.telling ?_
    rw [afterEvents_events]
    exact fun e he => hevents e (List.mem_cons_of_mem evt he)
  | settle ep success => exact ⟨htracked, h.telling, fun e => (h.awakeAt e).settle ep _⟩
  | departKernel => exact absurd trivial hl
  | departNull => exact absurd trivial hl
  | departContext => exact absurd trivial hl

end Awake

/-- In every state of a run, whatever the order of its steps and whether or not an
assertion failed, no queue waits without a wakeup. -/
theorem noLostWakeup_throughout (n : ℕ) (labels : List (Label n)) (h : ∀ l ∈ labels, ¬ l.departs) :
    Throughout (step .epoll) NoLostWakeup (State.initial n) labels := by
  have hthrough : Throughout (step .epoll) Awake (State.initial n) labels := by
    refine throughout_of_invariant ?_ (Awake.initial n) (along_of_forall h)
    intro s l hs hl
    obtain ⟨t, ht⟩ := hs.tracked.step_ok .epoll l
    exact ⟨t, ht, hs.move hl (step_move ht)⟩
  exact hthrough.mono (fun s => Awake.noLostWakeup)

theorem noLostWakeup_throughout_strayEventRun :
    Throughout (step .epoll) NoLostWakeup (State.initial 1) strayEventRun :=
  noLostWakeup_throughout 1 strayEventRun (by decide)

end LibXpf.NetIoMux
