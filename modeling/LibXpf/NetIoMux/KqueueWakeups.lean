import LibXpf.NetIoMux.Deliveries

/-! # No lost wakeup with kqueue

An event of kqueue is of one filter, and the two filters of a socket are armed and
disarmed one by one. What covers a queue is then a matter of its own filter: an
end of file on one side aborts the queue of that side and has to leave alone
whatever covers the other one.
-/
namespace LibXpf.NetIoMux
open GuardedRuns

variable {n : ℕ} {b : Backend} {s t : State n}

/-- The event is of the filter of this side. -/
def Event.isFor (evt : Event) : Mode → Bool
  | .read => evt.readable
  | .write => evt.writable

section Coverage

/-- A worker was given an event of this filter that it has not processed. -/
def State.ReportedFor (s : State n) (ep : ℕ) (mode : Mode) : Prop :=
  ∃ w, ∃ evt ∈ (s.worker w).events, evt.ep = ep ∧ evt.isFor mode = true

def State.CoveredFor (s : State n) (ep : ℕ) (mode : Mode) : Prop :=
  s.Ticketed ep ∨ s.ReportedFor ep mode ∨ (s.descriptor ep).armedFor mode = true

/-- A queue with operations in it is covered on its own side. -/
def NoLostFilter (s : State n) : Prop :=
  ∀ ep ctx mode, s.context ep = some ctx → ctx.queue mode ≠ [] → s.CoveredFor ep mode

theorem NoLostFilter.noLostWakeup (h : NoLostFilter s) : NoLostWakeup s := by
  intro ep ctx mode hctx hqueue
  refine (h ep ctx mode hctx hqueue).imp_right (Or.imp_left ?_)
  rintro ⟨w, evt, hevt, hep, _⟩
  exact ⟨w, evt, hevt, hep⟩

theorem reportedFor_setWorker {w : Fin n} {pc : Pc} {e : ℕ} {mode : Mode}
    (hkeep : ∀ evt ∈ (s.worker w).events, evt.ep = e → evt.isFor mode = true → evt ∈ pc.events)
    (h : s.ReportedFor e mode) : (s.setWorker w pc).ReportedFor e mode := by
  obtain ⟨v, evt, hevt, hep, hfor⟩ := h
  refine ⟨v, evt, ?_, hep, hfor⟩
  rw [setWorker_worker]
  split
  · next hvw =>
    subst hvw
    exact hkeep evt hevt hep hfor
  · exact hevt

/-- A filter that a harvest disarms has an event among those it returns. -/
theorem harvest_disarms {evts : List Event} {before after : ℕ → Socket}
    (h : harvest .kqueue before evts = some after) {e : ℕ} {mode : Mode}
    (harmed : (before e).descriptor.armedFor mode = true) :
    (after e).descriptor.armedFor mode = true ∨ ∃ evt ∈ evts, evt.ep = e ∧ evt.isFor mode = true := by
  induction evts generalizing before with
  | nil =>
    obtain rfl := Option.some.inj h
    exact .inl harmed
  | cons evt rest ih =>
    rw [harvest] at h
    split at h
    · by_cases hevt : evt.ep = e ∧ evt.isFor mode = true
      · exact .inr ⟨evt, List.mem_cons_self, hevt⟩
      · refine (ih h ?_).imp_right ?_
        · rw [Function.update_apply]
          split
          · next he =>
            subst he
            have hother : evt.isFor mode = false := Bool.eq_false_iff.mpr (fun hfor => hevt ⟨rfl, hfor⟩)
            cases mode with
            | read =>
              change ((before evt.ep).descriptor.armedIn && !evt.readable) = true
              rw [show evt.readable = false from hother, Bool.not_false, Bool.and_true]
              exact harmed
            | write =>
              change ((before evt.ep).descriptor.armedOut && !evt.writable) = true
              rw [show evt.writable = false from hother, Bool.not_false, Bool.and_true]
              exact harmed
          · exact harmed
        · rintro ⟨o, ho, hfor⟩
          exact ⟨o, List.mem_cons_of_mem evt ho, hfor⟩
    · cases h

theorem harvest_oneFilter {evts : List Event} {before after : ℕ → Socket}
    (h : harvest .kqueue before evts = some after) : ∀ evt ∈ evts, evt.readable ≠ evt.writable := by
  induction evts generalizing before with
  | nil => exact fun evt hevt => absurd hevt List.not_mem_nil
  | cons evt rest ih =>
    rw [harvest] at h
    split at h
    · next hdeliver =>
      intro e he
      rcases List.mem_cons.mp he with rfl | he
      · exact hdeliver.1
      · exact ih h e he
    · cases h

theorem oneFilter_setWorker (h : ∀ v, ∀ evt ∈ (s.worker v).events, evt.readable ≠ evt.writable)
    {w : Fin n} {pc : Pc} (hpc : ∀ evt ∈ pc.events, evt.readable ≠ evt.writable) :
    ∀ v, ∀ evt ∈ ((s.setWorker w pc).worker v).events, evt.readable ≠ evt.writable := by
  intro v evt hevt
  rw [setWorker_worker] at hevt
  split at hevt
  · exact hpc evt hevt
  · exact h v evt hevt

end Coverage

/-- What the invariant says of one endpoint. -/
structure FilterAwakeAt (s : State n) (e : ℕ) : Prop where
  flagged : ∀ ctx, s.context e = some ctx → ctx.ready = true → s.Ticketed e
  covered : ∀ ctx mode, s.context e = some ctx → ctx.queue mode ≠ [] → s.CoveredFor e mode

namespace FilterAwakeAt

variable {e : ℕ}

theorem keep (h : FilterAwakeAt s e) (hsame : t.context e = s.context e)
    (harmed : ∀ mode, (t.descriptor e).armedFor mode = (s.descriptor e).armedFor mode)
    (hticketed : s.Ticketed e → t.Ticketed e)
    (hreported : ∀ mode, s.ReportedFor e mode → t.ReportedFor e mode) : FilterAwakeAt t e where
  flagged ctx hctx hready := hticketed (h.flagged ctx (hsame ▸ hctx) hready)
  covered ctx mode hctx hqueue := by
    rw [State.CoveredFor, harmed mode]
    exact (h.covered ctx mode (hsame ▸ hctx) hqueue).imp hticketed (Or.imp_left (hreported mode))

theorem of_socket (h : FilterAwakeAt s e) (hsocket : t.socket e = s.socket e)
    (hticketed : s.Ticketed e → t.Ticketed e)
    (hreported : ∀ mode, s.ReportedFor e mode → t.ReportedFor e mode) : FilterAwakeAt t e := by
  apply h.keep ?_ ?_ hticketed hreported
  · rw [State.context, State.endpoint, hsocket]
  · intro mode
    rw [State.descriptor, hsocket]

theorem of_ticketed (h : t.Ticketed e) : FilterAwakeAt t e where
  flagged _ _ _ := h
  covered _ _ _ _ := .inl h

theorem of_empty (h : t.context e = some AsyncContext.empty ∨ t.context e = none) :
    FilterAwakeAt t e where
  flagged ctx hctx hready := by
    rcases h with h | h
    · cases h.symm.trans hctx
      cases hready
    · cases h.symm.trans hctx
  covered ctx mode hctx hqueue := by
    rcases h with h | h
    · cases h.symm.trans hctx
      cases mode <;> exact absurd rfl hqueue
    · cases h.symm.trans hctx

theorem setWorker (h : FilterAwakeAt s e) (w : Fin n) (pc : Pc)
    (hserving : s.context e ≠ none → (s.worker w).serving = some e → pc.serving = some e)
    (hevents : ∀ evt ∈ (s.worker w).events, evt.ep = e → evt ∈ pc.events) :
    FilterAwakeAt (s.setWorker w pc) e := by
  cases hctx : s.context e with
  | none => exact .of_empty (.inr hctx)
  | some ctx =>
    have hctx' : s.context e ≠ none := by
      rw [hctx]
      exact Option.some_ne_none ctx
    refine h.of_socket rfl (ticketed_setWorker (hserving hctx')) ?_
    exact fun mode => reportedFor_setWorker (fun evt hevt hep _ => hevents evt hevt hep)

/-- A delivery disarms one filter, and its event covers the queue of that filter instead. -/
theorem wait (h : FilterAwakeAt s e) {w : Fin n} {evts : List Event} {cnt : ℕ} {socket : ℕ → Socket}
    (hpc : s.worker w = .waiting cnt) (hharvest : harvest .kqueue s.socket evts = some socket) :
    FilterAwakeAt { s.setWorker w (State.afterEvents evts) with socket := socket } e := by
  have hticketed : s.Ticketed e → (s.setWorker w (State.afterEvents evts)).Ticketed e := by
    refine ticketed_setWorker ?_
    rw [hpc]
    intro hserving
    cases hserving
  have hreported : ∀ mode, s.ReportedFor e mode →
      (s.setWorker w (State.afterEvents evts)).ReportedFor e mode := by
    intro mode
    refine reportedFor_setWorker ?_
    rw [hpc]
    exact fun evt hevt _ _ => absurd hevt List.not_mem_nil
  have hctx : ∀ ctx, (socket e).endpoint.asyncContext = some ctx → s.context e = some ctx := by
    intro ctx hctx
    rwa [(harvest_socket hharvest e).1] at hctx
  constructor
  · exact fun ctx h' hready => hticketed (h.flagged ctx (hctx ctx h') hready)
  · intro ctx mode h' hqueue
    rcases h.covered ctx mode (hctx ctx h') hqueue with hcase | hcase | hcase
    · exact .inl (hticketed hcase)
    · exact .inr (.inl (hreported mode hcase))
    · rcases harvest_disarms hharvest hcase with harmed | ⟨evt, hmem, hep, hfor⟩
      · exact .inr (.inr harmed)
      · refine .inr (.inl ⟨w, evt, ?_, hep, hfor⟩)
        dsimp only
        rwa [setWorker_worker, if_pos rfl, afterEvents_events]

theorem join (h : FilterAwakeAt s e) (status : EStatus) : FilterAwakeAt (s.openSocket status) e := by
  by_cases he : e = s.nextEp
  · refine .of_empty (.inl ?_)
    rw [State.context, State.endpoint, openSocket_socket, if_pos he]
    rfl
  · refine h.of_socket ?_ id (fun _ => id)
    rw [openSocket_socket, if_neg he]

theorem submit (h : FilterAwakeAt s e) {ep : ℕ} {ctx : AsyncContext} (hctx : s.context ep = some ctx)
    (call : AsyncCall) : FilterAwakeAt (s.submit ep ctx call) e := by
  have hkeep : s.Ticketed e → (s.submit ep ctx call).Ticketed e := by
    refine Or.imp_left ?_
    intro hlist
    simp only [State.submit]
    split
    · exact hlist
    · exact List.mem_append_left _ hlist
  by_cases he : e = ep
  · subst he
    apply of_ticketed
    cases hready : ctx.ready with
    | true => exact hkeep (h.flagged ctx hctx hready)
    | false =>
      refine .inl ?_
      simp only [State.submit, hready, Bool.false_eq_true, if_false]
      exact List.mem_append_right _ (List.mem_singleton.mpr rfl)
  · refine h.of_socket ?_ hkeep (fun _ => id)
    rw [State.submit, setContext_socket, if_neg he]

theorem popReady (h : FilterAwakeAt s e) {w : Fin n} {ep : ℕ} {rest : List ℕ} (hpc : s.worker w = .polled)
    (hlist : s.mReadyList = ep :: rest) :
    FilterAwakeAt { s.setWorker w (.popped ep rest.length) with mReadyList := rest } e := by
  refine h.of_socket rfl ?_ ?_
  · rintro (he | ⟨v, hv⟩)
    · rw [hlist] at he
      rcases List.mem_cons.mp he with rfl | he
      · refine .inr ⟨w, ?_⟩
        dsimp only
        rw [setWorker_worker, if_pos rfl]
        rfl
      · exact .inl he
    · refine .inr ⟨v, ?_⟩
      dsimp only
      rw [setWorker_worker, if_neg]
      · exact hv
      · rintro rfl
        rw [hpc] at hv
        cases hv
  · exact fun mode => reportedFor_setWorker (by rw [hpc]; exact fun evt hevt _ _ => hevt)

/-- The ready section arms a filter for each queue that it leaves with operations, and
never disarms the other one. -/
theorem ready_self (s : State n) (ep : ℕ) (ctx : AsyncContext) (results : ℕ → IoResult)
    (w : Fin n) (cnt : ℕ) :
    FilterAwakeAt ((s.ready .kqueue ep ctx results).setWorker w (.waiting cnt)) ep := by
  have hself : ((s.ready .kqueue ep ctx results).setWorker w (.waiting cnt)).context ep = _ :=
    ready_context
  have harmed : ((s.ready .kqueue ep ctx results).setWorker w (.waiting cnt)).descriptor ep = _ :=
    ready_descriptor
  constructor
  · intro c hc hready
    cases hself.symm.trans hc
    cases hready
  · intro c mode hc hqueue
    cases hself.symm.trans hc
    refine .inr (.inr ?_)
    rw [harmed]
    cases mode with
    | read =>
      have hrd : (s.performQueues ep ctx results).rdqueue.isEmpty = false :=
        List.isEmpty_eq_false_iff.mpr hqueue
      simp only [Descriptor.arm, hrd, Bool.not_false, Bool.or_true, Descriptor.armedFor]
    | write =>
      have hwr : (s.performQueues ep ctx results).wrqueue.isEmpty = false :=
        List.isEmpty_eq_false_iff.mpr hqueue
      simp only [Descriptor.arm, hwr, Bool.not_false, Bool.or_true, Descriptor.armedFor]

theorem ready (h : FilterAwakeAt s e) {w : Fin n} {ep cnt : ℕ} (ctx : AsyncContext)
    (results : ℕ → IoResult) (hpc : s.worker w = .fetched ep cnt) :
    FilterAwakeAt ((s.ready .kqueue ep ctx results).setWorker w (.waiting cnt)) e := by
  by_cases he : e = ep
  · rw [he]
    exact ready_self s ep ctx results w cnt
  · rcases ready_socket_of_ne .kqueue s ctx results he with heq | ⟨_, _, a, _, hjoined⟩
    · refine h.of_socket heq ?_ ?_
      · refine ticketed_setWorker ?_
        rw [hpc]
        intro hserving
        exact absurd (Option.some.inj hserving).symm he
      · intro mode
        refine reportedFor_setWorker ?_
        rw [hpc]
        exact fun evt hevt _ _ => hevt
    · exact .of_empty (.inl (congrArg (fun k : Socket => k.endpoint.asyncContext) hjoined))

/-- An event without end of file becomes a ticket. One with it empties the queue of its
filter, and takes no cover from the other queue. -/
theorem handle_self (h : FilterAwakeAt s e) {w : Fin n} {evt : Event} {rest : List Event}
    {ctx : AsyncContext} (hep : evt.ep = e) (hctx : s.context e = some ctx)
    (hpc : s.worker w = .holding false evt rest) (hone : evt.readable ≠ evt.writable) :
    FilterAwakeAt ((s.handle .kqueue evt ctx).setWorker w (State.afterEvents rest)) e := by
  subst hep
  have hself : ((s.handle .kqueue evt ctx).setWorker w (State.afterEvents rest)).context evt.ep =
      some (ctx.handle .kqueue evt).ctx := handle_context .kqueue s evt ctx
  cases herror : evt.error with
  | false =>
    have hlisted : (ctx.handle .kqueue evt).listed = true := by
      simp only [AsyncContext.handle, herror, Bool.false_eq_true, if_false]
    refine .of_ticketed (.inl ?_)
    simp only [State.setWorker, State.handle, hlisted, if_true]
    exact List.mem_append_right _ (List.mem_singleton.mpr rfl)
  | true =>
    -- The queue of the other side is as it was, and so is whatever covers it.
    have hother : ∀ mode, evt.isFor mode = false → ctx.queue mode ≠ [] →
        ((s.handle .kqueue evt ctx).setWorker w (State.afterEvents rest)).CoveredFor evt.ep mode := by
      intro mode hfor hqueue
      have hworker : (s.handle .kqueue evt ctx).worker w = .holding false evt rest := hpc
      rcases h.covered ctx mode hctx hqueue with hcase | hcase | hcase
      · refine .inl (ticketed_setWorker (s := s.handle .kqueue evt ctx) ?_ (handle_ticketed hcase))
        rw [hworker]
        intro hserving
        cases hserving
      · refine .inr (.inl (reportedFor_setWorker (s := s.handle .kqueue evt ctx) ?_ hcase))
        rw [hworker, afterEvents_events]
        intro o ho _ hofor
        rcases List.mem_cons.mp ho with rfl | ho
        · cases hfor.symm.trans hofor
        · exact ho
      · refine .inr (.inr ?_)
        have hdescriptor : (s.handle .kqueue evt ctx).descriptor evt.ep = s.descriptor evt.ep :=
          setContext_descriptor ..
        change ((s.handle .kqueue evt ctx).descriptor evt.ep).armedFor mode = true
        rw [hdescriptor]
        exact hcase
    cases hread : evt.readable with
    | true =>
      have hwrite : evt.writable = false := by
        rw [hread] at hone
        exact Bool.eq_false_iff.mpr hone.symm
      rw [AsyncContext.handle, herror, if_pos rfl, hread, if_pos rfl] at hself
      constructor
      · intro c hc hready
        cases hself.symm.trans hc
        cases hready
      · intro c mode hc hqueue
        cases hself.symm.trans hc
        cases mode with
        | read => exact absurd rfl hqueue
        | write => exact hother .write hwrite hqueue
    | false =>
      rw [AsyncContext.handle, herror, if_pos rfl, hread, if_neg Bool.false_ne_true] at hself
      constructor
      · intro c hc hready
        cases hself.symm.trans hc
        cases hready
      · intro c mode hc hqueue
        cases hself.symm.trans hc
        cases mode with
        | read => exact hother .read hread hqueue
        | write => exact absurd rfl hqueue

theorem handle (h : FilterAwakeAt s e) {w : Fin n} {evt : Event} {rest : List Event} {ctx : AsyncContext}
    (hctx : s.context evt.ep = some ctx) (hpc : s.worker w = .holding false evt rest)
    (hone : evt.readable ≠ evt.writable) :
    FilterAwakeAt ((s.handle .kqueue evt ctx).setWorker w (State.afterEvents rest)) e := by
  have hworker : (s.handle .kqueue evt ctx).worker w = .holding false evt rest := hpc
  by_cases he : evt.ep = e
  · exact h.handle_self he (he ▸ hctx) hpc hone
  · refine h.of_socket ?_ ?_ ?_
    · exact (setContext_socket ..).trans (if_neg (Ne.symm he))
    · intro hticketed
      refine ticketed_setWorker (s := s.handle .kqueue evt ctx) ?_ (handle_ticketed hticketed)
      rw [hworker]
      intro hserving
      cases hserving
    · intro mode
      refine reportedFor_setWorker (s := s.handle .kqueue evt ctx) ?_
      rw [hworker, afterEvents_events]
      intro o ho hep _
      rcases List.mem_cons.mp ho with rfl | ho
      · exact absurd hep he
      · exact ho

theorem settle (h : FilterAwakeAt s e) (ep : ℕ) (c : Connection) :
    FilterAwakeAt (s.setDescriptor ep { s.descriptor ep with connection := c }) e := by
  refine h.keep ?_ ?_ id (fun _ => id)
  · rw [State.context, setDescriptor_endpoint]
  · intro mode
    rw [State.descriptor, setDescriptor_socket]
    split
    · next he =>
      rw [he]
      cases mode <;> rfl
    · rfl

end FilterAwakeAt

/-- The invariant. An event that waits at a worker is of one filter. -/
structure FilterAwake (s : State n) : Prop where
  tracked : Tracked s
  oneFilter : ∀ w, ∀ evt ∈ (s.worker w).events, evt.readable ≠ evt.writable
  awakeAt : ∀ e, FilterAwakeAt s e

namespace FilterAwake

theorem initial (n : ℕ) : FilterAwake (State.initial n) where
  tracked := .initial n
  oneFilter _ _ hevt := absurd hevt List.not_mem_nil
  awakeAt _ := .of_empty (.inr rfl)

theorem noLostFilter (h : FilterAwake s) : NoLostFilter s :=
  fun ep ctx mode hctx hqueue => (h.awakeAt ep).covered ctx mode hctx hqueue

theorem move (h : FilterAwake s) {l : Label n} (hl : ¬ l.departs) (hmove : Move .kqueue s l t) :
    FilterAwake t := by
  have htracked := h.tracked.move hl hmove
  cases hmove with
  | stutter => exact h
  | nullContext ep call =>
    exact ⟨htracked, h.oneFilter, fun e => (h.awakeAt e).of_socket rfl id (fun _ => id)⟩
  | turn l w pc hturn =>
    refine ⟨htracked, oneFilter_setWorker h.oneFilter ?_, ?_⟩
    · rw [hturn.events]
      exact h.oneFilter w
    · intro e
      apply (h.awakeAt e).setWorker w pc hturn.serving
      intro evt hevt _
      rwa [hturn.events]
  | waitFails w cnt hpc =>
    refine ⟨htracked, oneFilter_setWorker h.oneFilter (fun _ hevt => absurd hevt List.not_mem_nil), ?_⟩
    intro e
    have hw := (h.awakeAt e).setWorker w .idle (by rw [hpc]; exact fun _ he => he)
      (by rw [hpc]; exact fun evt hevt _ => hevt)
    exact hw.of_socket rfl id (fun _ => id)
  | join status => exact ⟨htracked, h.oneFilter, fun e => (h.awakeAt e).join status⟩
  | async ep call ctx hctx => exact ⟨htracked, h.oneFilter, fun e => (h.awakeAt e).submit hctx call⟩
  | popCompletion w co rest hpc hlist =>
    refine ⟨htracked, oneFilter_setWorker h.oneFilter (fun _ hevt => absurd hevt List.not_mem_nil), ?_⟩
    intro e
    have hw := (h.awakeAt e).setWorker w .polled (by rw [hpc]; exact fun _ he => he)
      (by rw [hpc]; exact fun evt hevt _ => hevt)
    exact hw.of_socket rfl id (fun _ => id)
  | popReady w ep rest hpc hlist =>
    refine ⟨htracked, oneFilter_setWorker h.oneFilter (fun _ hevt => absurd hevt List.not_mem_nil), ?_⟩
    exact fun e => (h.awakeAt e).popReady hpc hlist
  | ready w results ep cnt ctx hpc hctx =>
    refine ⟨htracked, ?_, fun e => (h.awakeAt e).ready ctx results hpc⟩
    exact oneFilter_setWorker (s := s.ready .kqueue ep ctx results)
      h.oneFilter (fun _ hevt => absurd hevt List.not_mem_nil)
  | wait w evts cnt socket hpc hharvest =>
    refine ⟨htracked, ?_, fun e => (h.awakeAt e).wait hpc hharvest⟩
    apply oneFilter_setWorker h.oneFilter
    rw [afterEvents_events]
    exact harvest_oneFilter hharvest
  | handle w evt rest ctx hpc hctx =>
    have hevents : ∀ e ∈ evt :: rest, e.readable ≠ e.writable := by
      have hw := h.oneFilter w
      rw [hpc] at hw
      exact hw
    refine ⟨htracked, ?_, fun e => (h.awakeAt e).handle hctx hpc (hevents evt List.mem_cons_self)⟩
    apply oneFilter_setWorker (s := s.handle .kqueue evt ctx) h.oneFilter
    rw [afterEvents_events]
    exact fun e he => hevents e (List.mem_cons_of_mem evt he)
  | settle ep success => exact ⟨htracked, h.oneFilter, fun e => (h.awakeAt e).settle ep _⟩
  | departKernel => exact absurd trivial hl
  | departNull => exact absurd trivial hl
  | departContext => exact absurd trivial hl

theorem throughout (n : ℕ) (labels : List (Label n)) (h : ∀ l ∈ labels, ¬ l.departs) :
    Throughout (step .kqueue) FilterAwake (State.initial n) labels := by
  refine throughout_of_invariant ?_ (FilterAwake.initial n) (along_of_forall h)
  intro s l hs hl
  obtain ⟨t, ht⟩ := hs.tracked.step_ok .kqueue l
  exact ⟨t, ht, hs.move hl (step_move ht)⟩

end FilterAwake

/-- With kqueue no queue waits without a ticket, or an event or an armed filter of its
own side, whatever the order of the steps. -/
theorem noLostFilter_throughout (n : ℕ) (labels : List (Label n)) (h : ∀ l ∈ labels, ¬ l.departs) :
    Throughout (step .kqueue) NoLostFilter (State.initial n) labels :=
  (FilterAwake.throughout n labels h).mono (fun _ => FilterAwake.noLostFilter)

theorem noLostFilter_throughout_strayEventRun :
    Throughout (step .kqueue) NoLostFilter (State.initial 1) strayEventRun :=
  noLostFilter_throughout 1 strayEventRun (by decide)

end LibXpf.NetIoMux
