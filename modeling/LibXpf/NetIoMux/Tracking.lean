import LibXpf.NetIoMux.Moves

/-! # Contexts that are in use

Whatever refers to an endpoint from the ready list, from the kernel or from the
place of a worker refers to one that still has its context. While no endpoint
departs this keeps every step from a fault.
-/
namespace LibXpf.NetIoMux
open GuardedRuns

variable {n : ℕ} {b : Backend} {s t : State n}

section Sockets

theorem setWorker_worker (s : State n) (w v : Fin n) (pc : Pc) :
    (s.setWorker w pc).worker v = if v = w then pc else s.worker v := Function.update_apply ..

theorem setContext_socket (s : State n) (ep e : ℕ) (ctx : Option AsyncContext) :
    (s.setContext ep ctx).socket e =
      if e = ep then { s.socket ep with endpoint := { s.endpoint ep with asyncContext := ctx } }
      else s.socket e := Function.update_apply ..

@[simp] theorem setContext_context (s : State n) (ep e : ℕ) (ctx : Option AsyncContext) :
    (s.setContext ep ctx).context e = if e = ep then ctx else s.context e := by
  rw [State.context, State.endpoint, setContext_socket]
  split <;> rfl

theorem submit_context (s : State n) (ep : ℕ) (ctx : AsyncContext) (call : AsyncCall) :
    (s.submit ep ctx call).context ep = some (ctx.append call.mode (call.overlapped s.nextOp ep)) :=
  (setContext_context ..).trans (if_pos rfl)

theorem handle_context (b : Backend) (s : State n) (evt : Event) (ctx : AsyncContext) :
    (s.handle b evt ctx).context evt.ep = some (ctx.handle b evt).ctx :=
  (setContext_context ..).trans (if_pos rfl)

@[simp] theorem setContext_descriptor (s : State n) (ep e : ℕ) (ctx : Option AsyncContext) :
    (s.setContext ep ctx).descriptor e = s.descriptor e := by
  rw [State.descriptor, setContext_socket]
  split
  · next he => rw [he]
  · rfl

theorem setDescriptor_socket (s : State n) (ep e : ℕ) (d : Descriptor) :
    (s.setDescriptor ep d).socket e =
      if e = ep then { s.socket ep with descriptor := d } else s.socket e := Function.update_apply ..

theorem openSocket_socket (s : State n) (status : EStatus) (e : ℕ) :
    (s.openSocket status).socket e =
      if e = s.nextEp then
        Socket.joined { status := status, lastPlatformErrno := 0, asyncContext := none }
      else s.socket e := Function.update_apply ..

@[simp] theorem setDescriptor_endpoint (s : State n) (ep e : ℕ) (d : Descriptor) :
    (s.setDescriptor ep d).endpoint e = s.endpoint e := by
  rw [State.endpoint, setDescriptor_socket]
  split
  · next he => rw [he]
  · rfl

/-- A joining endpoint takes a number that was free. -/
theorem joinAll_cases {accepted : List NetEndpoint} (h : ∀ a ∈ accepted, a.status.Settled)
    (firstNew : ℕ) (socket : ℕ → Socket) (e : ℕ) :
    joinAll firstNew accepted socket e = socket e ∨
      firstNew ≤ e ∧ e < firstNew + accepted.length ∧
        ∃ a : NetEndpoint, a.status.Settled ∧ joinAll firstNew accepted socket e = Socket.joined a := by
  induction accepted generalizing firstNew socket with
  | nil => exact .inl rfl
  | cons a rest ih =>
    rw [joinAll, List.length_cons]
    rcases ih (fun c hc => h c (List.mem_cons_of_mem a hc)) (firstNew + 1)
      (Function.update socket firstNew (Socket.joined a)) with heq | ⟨hle, hlt, hjoined⟩
    · rw [heq]
      by_cases he : e = firstNew
      · subst he
        refine .inr ⟨le_refl e, by omega, a, h a List.mem_cons_self, ?_⟩
        rw [Function.update_self]
      · exact .inl (Function.update_of_ne he _ _)
    · exact .inr ⟨by omega, by omega, hjoined⟩

/-- A harvest changes nothing of a socket but what it is armed for. -/
theorem harvest_socket {evts : List Event} {before after : ℕ → Socket}
    (h : harvest b before evts = some after) (e : ℕ) :
    (after e).endpoint = (before e).endpoint ∧
      (after e).descriptor.connection = (before e).descriptor.connection ∧
      ((after e).descriptor.armedIn = true → (before e).descriptor.armedIn = true) ∧
      ((after e).descriptor.armedOut = true → (before e).descriptor.armedOut = true) := by
  induction evts generalizing before with
  | nil =>
    cases h
    exact ⟨rfl, rfl, id, id⟩
  | cons evt rest ih =>
    rw [harvest] at h
    split at h
    · obtain ⟨hep, hconn, hin, hout⟩ := ih h
      rw [Function.update_apply] at hep hconn hin hout
      split at hep
      · next he =>
        subst he
        simp only [if_true] at hconn hin hout
        refine ⟨hep, ?_, ?_, ?_⟩
        · rw [hconn]
          cases b <;> rfl
        · intro hafter
          have hdeliver := hin hafter
          cases b with
          | epoll => cases hdeliver
          | kqueue => exact (Bool.and_eq_true_iff.mp hdeliver).1
        · intro hafter
          have hdeliver := hout hafter
          cases b with
          | epoll => cases hdeliver
          | kqueue => exact (Bool.and_eq_true_iff.mp hdeliver).1
      · next he =>
        rw [if_neg he] at hconn hin hout
        exact ⟨hep, hconn, hin, hout⟩
    · cases h

theorem performQueues_accepted (s : State n) (ep : ℕ) (ctx : AsyncContext) (results : ℕ → IoResult) :
    ∀ a ∈ (s.performQueues ep ctx results).progress.accepted, a.status.Settled := by
  apply performQueue_accepted
  apply performQueue_accepted
  intro a ha
  exact absurd ha List.not_mem_nil

theorem performQueues_failed (s : State n) (ep : ℕ) (ctx : AsyncContext) (results : ℕ → IoResult) :
    ∀ m ∈ (s.performQueues ep ctx results).progress.failed, m ∈ performMessages := by
  apply performQueue_failed
  apply performQueue_failed
  intro m hm
  exact absurd hm List.not_mem_nil

theorem performQueues_keys (s : State n) (ep : ℕ) (ctx : AsyncContext) (results : ℕ → IoResult) :
    ∃ rd wr, (s.performQueues ep ctx results).progress.completed = rd ++ wr ∧
      rd.map (fun c => c.1.key) ++ (s.performQueues ep ctx results).rdqueue.map Overlapped.key =
        ctx.rdqueue.map Overlapped.key ∧
      wr.map (fun c => c.1.key) ++ (s.performQueues ep ctx results).wrqueue.map Overlapped.key =
        ctx.wrqueue.map Overlapped.key := by
  obtain ⟨rd, hrd, hrdkeys⟩ := performQueue_keys results s.nextEp ctx.rdqueue
    (s.start ep)
  obtain ⟨wr, hwr, hwrkeys⟩ := performQueue_keys results s.nextEp ctx.wrqueue
    (performQueue results s.nextEp ctx.rdqueue (s.start ep)).2
  rw [hrd] at hwr
  exact ⟨rd, wr, hwr, hrdkeys, hwrkeys⟩

section Ready

variable {ep : ℕ} {ctx : AsyncContext} {results : ℕ → IoResult}

theorem ready_context : (s.ready b ep ctx results).context ep = some
    { rdqueue := (s.performQueues ep ctx results).rdqueue
      wrqueue := (s.performQueues ep ctx results).wrqueue, ready := false } := by
  simp only [State.context, State.endpoint, State.ready, Function.update_self]

theorem ready_status : ((s.ready b ep ctx results).endpoint ep).status =
    (s.performQueues ep ctx results).progress.ep.status := by
  simp only [State.endpoint, State.ready, Function.update_self]

theorem ready_descriptor : (s.ready b ep ctx results).descriptor ep =
    ({ s.descriptor ep with
        connection := (s.performQueues ep ctx results).progress.connection } : Descriptor).arm b
      (!(s.performQueues ep ctx results).rdqueue.isEmpty)
      (!(s.performQueues ep ctx results).wrqueue.isEmpty) := by
  simp only [State.descriptor, State.ready, Function.update_self]

end Ready

/-- The ready section leaves other sockets alone, but for those that join in it. -/
theorem ready_socket_of_ne (b : Backend) (s : State n) (ctx : AsyncContext) (results : ℕ → IoResult)
    {ep e : ℕ} (hne : e ≠ ep) :
    (s.ready b ep ctx results).socket e = s.socket e ∨
      s.nextEp ≤ e ∧ e < (s.ready b ep ctx results).nextEp ∧ ∃ a : NetEndpoint, a.status.Settled ∧
        (s.ready b ep ctx results).socket e = Socket.joined a := by
  have hsocket : (s.ready b ep ctx results).socket e =
      joinAll s.nextEp (s.performQueues ep ctx results).progress.accepted s.socket e :=
    Function.update_of_ne hne _ _
  rw [hsocket]
  exact joinAll_cases (performQueues_accepted s ep ctx results) s.nextEp s.socket e

theorem harvest_untouched {evts : List Event} {before after : ℕ → Socket}
    (h : harvest b before evts = some after) {e : ℕ} (he : ∀ evt ∈ evts, evt.ep ≠ e) :
    after e = before e := by
  induction evts generalizing before with
  | nil =>
    cases h
    rfl
  | cons evt rest ih =>
    rw [harvest] at h
    split at h
    · rw [ih h (fun o ho => he o (List.mem_cons_of_mem evt ho))]
      exact Function.update_of_ne (he evt List.mem_cons_self).symm _ _
    · cases h

end Sockets

def Descriptor.Armed (d : Descriptor) : Prop := d.armedIn = true ∨ d.armedOut = true

theorem Descriptor.Deliverable.armed {d : Descriptor} {e : Event} (h : d.Deliverable b e) : d.Armed := by
  cases b with
  | epoll => exact h.1
  | kqueue =>
    obtain ⟨hfilter, hin, hout⟩ := h
    cases hreadable : e.readable with
    | true => exact .inl (hin hreadable)
    | false =>
      refine .inr (hout ?_)
      rw [hreadable] at hfilter
      cases hwritable : e.writable with
      | true => rfl
      | false => exact absurd hwritable.symm hfilter

theorem harvest_armed {evts : List Event} {before after : ℕ → Socket}
    (h : harvest b before evts = some after) : ∀ e ∈ evts, (before e.ep).descriptor.Armed := by
  induction evts generalizing before with
  | nil => simp only [List.not_mem_nil, false_implies, implies_true]
  | cons evt rest ih =>
    rw [harvest] at h
    split at h
    · next hdeliver =>
      intro e he
      rcases List.mem_cons.mp he with rfl | he
      · exact hdeliver.armed
      · have hone : harvest b before [evt] = some (Function.update before evt.ep
            { before evt.ep with descriptor := (before evt.ep).descriptor.deliver b evt }) := by
          rw [harvest, if_pos hdeliver, harvest]
        obtain ⟨_, _, hin, hout⟩ := harvest_socket hone e.ep
        exact (ih h e he).imp hin hout
    · cases h

/-- The endpoints a worker will lock have their context. -/
def Pc.Tracked (s : State n) : Pc → Prop
  | .fetched ep _ => s.context ep ≠ none
  | .handling evts => ∀ e ∈ evts, s.context e.ep ≠ none
  | .holding null evt rest => null = false ∧ ∀ e ∈ evt :: rest, s.context e.ep ≠ none
  | _ => True

structure Tracked (s : State n) : Prop where
  unused : ∀ e, s.nextEp ≤ e → s.socket e = Socket.unused
  armed : ∀ e, (s.descriptor e).Armed → s.context e ≠ none
  workers : ∀ w, (s.worker w).Tracked s
  listed : ∀ e ∈ s.mReadyList, s.context e ≠ none

theorem Pc.Tracked.of_contexts (hctx : ∀ e, s.context e ≠ none → t.context e ≠ none) {pc : Pc}
    (h : pc.Tracked s) : pc.Tracked t := by
  cases pc with
  | fetched ep cnt => exact hctx ep h
  | handling evts => exact fun e he => hctx e.ep (h e he)
  | holding null evt rest => exact ⟨h.1, fun e he => hctx e.ep (h.2 e he)⟩
  | _ => trivial

theorem tracked_afterEvents {evts : List Event} (h : ∀ e ∈ evts, s.context e.ep ≠ none) :
    (State.afterEvents evts).Tracked s := by
  cases evts with
  | nil => trivial
  | cons e rest => exact h

namespace Tracked

theorem initial (n : ℕ) : Tracked (State.initial n) where
  unused _ _ := rfl
  armed e h := by rcases h with h | h <;> cases h
  workers _ := trivial
  listed e h := absurd h List.not_mem_nil

theorem lt_nextEp (h : Tracked s) {e : ℕ} (hctx : s.context e ≠ none) : e < s.nextEp := by
  by_contra hge
  apply hctx
  rw [State.context, State.endpoint, h.unused e (not_lt.mp hge)]
  rfl

/-- The invariant survives a step that removes no context. -/
theorem of_contexts (h : Tracked s) (hunused : ∀ e, t.nextEp ≤ e → t.socket e = Socket.unused)
    (hctx : ∀ e, s.context e ≠ none → t.context e ≠ none)
    (harmed : ∀ e, (t.descriptor e).Armed → (s.descriptor e).Armed ∨ t.context e ≠ none)
    (hworker : ∀ w, t.worker w = s.worker w ∨ (t.worker w).Tracked t)
    (hlisted : ∀ e ∈ t.mReadyList, e ∈ s.mReadyList ∨ t.context e ≠ none) : Tracked t where
  unused := hunused
  armed e he := (harmed e he).elim (fun he => hctx e (h.armed e he)) id
  workers w := by
    rcases hworker w with heq | hw
    · rw [heq]
      exact (h.workers w).of_contexts hctx
    · exact hw
  listed e he := (hlisted e he).elim (fun he => hctx e (h.listed e he)) id

theorem openSocket (h : Tracked s) (status : EStatus) : Tracked (s.openSocket status) := by
  have hlt : ∀ e, s.context e ≠ none → e < s.nextEp := fun e => h.lt_nextEp
  apply h.of_contexts
  · intro e he
    simp only [State.openSocket] at he
    rw [openSocket_socket, if_neg (by omega)]
    exact h.unused e (by omega)
  · intro e he
    have hne : e ≠ s.nextEp := (hlt e he).ne
    rw [State.context, State.endpoint, openSocket_socket, if_neg hne]
    exact he
  · intro e he
    rw [State.descriptor, openSocket_socket] at he
    split at he
    · rcases he with he | he <;> cases he
    · exact .inl he
  · exact fun w => .inl rfl
  · exact fun e he => .inl he

theorem setContext (h : Tracked s) {ep : ℕ} (ctx : AsyncContext) (hep : s.context ep ≠ none) :
    Tracked (s.setContext ep (some ctx)) := by
  apply h.of_contexts
  · intro e he
    have hne : e ≠ ep := (lt_of_lt_of_le (h.lt_nextEp hep) he).ne'
    rw [setContext_socket, if_neg hne]
    exact h.unused e he
  · intro e he
    rw [setContext_context]
    split
    · exact Option.some_ne_none ctx
    · exact he
  · intro e he
    rw [setContext_descriptor] at he
    exact .inl he
  · exact fun w => .inl rfl
  · exact fun e he => .inl he

theorem setWorker (h : Tracked s) (w : Fin n) (pc : Pc) (hpc : pc.Tracked s) :
    Tracked (s.setWorker w pc) := by
  apply h.of_contexts (t := s.setWorker w pc)
  · exact h.unused
  · exact fun e he => he
  · exact fun e he => .inl he
  · intro v
    rw [setWorker_worker]
    split
    · exact .inr hpc
    · exact .inl rfl
  · exact fun e he => .inl he

/-- Neither the history nor the order of the ready list matters. -/
theorem relist (h : Tracked s) (hsocket : t.socket = s.socket) (hworker : t.worker = s.worker)
    (hnext : t.nextEp = s.nextEp)
    (hlisted : ∀ e ∈ t.mReadyList, e ∈ s.mReadyList ∨ s.context e ≠ none) : Tracked t := by
  have hctx : ∀ e, t.context e = s.context e := by
    intro e
    rw [State.context, State.endpoint, hsocket]
  apply h.of_contexts
  · rw [hsocket, hnext]
    exact h.unused
  · intro e he
    rwa [hctx]
  · intro e he
    rw [State.descriptor, hsocket] at he
    exact .inl he
  · exact fun w => .inl (congrFun hworker w)
  · intro e he
    rw [hctx]
    exact hlisted e he

theorem ready (h : Tracked s) {ep : ℕ} {ctx : AsyncContext} (hctx : s.context ep = some ctx)
    (results : ℕ → IoResult) : Tracked (s.ready b ep ctx results) := by
  have hlt : ep < s.nextEp := h.lt_nextEp (by rw [hctx]; exact Option.some_ne_none ctx)
  have hself : (s.ready b ep ctx results).context ep ≠ none := by
    simp only [State.context, State.endpoint, State.ready, Function.update_self, ne_eq,
      reduceCtorEq, not_false_eq_true]
  have hle : s.nextEp ≤ (s.ready b ep ctx results).nextEp := Nat.le_add_right ..
  apply h.of_contexts
  · intro e he
    rcases ready_socket_of_ne b s ctx results
      (show e ≠ ep by omega) with heq | ⟨_, hnew, _⟩
    · rw [heq]
      exact h.unused e (hle.trans he)
    · omega
  · intro e he
    by_cases hne : e = ep
    · rw [hne]
      exact hself
    · rcases ready_socket_of_ne b s ctx results hne with
        heq | ⟨_, _, a, _, hjoined⟩
      · rw [State.context, State.endpoint, heq]
        exact he
      · rw [State.context, State.endpoint, hjoined]
        exact Option.some_ne_none _
  · intro e he
    by_cases hne : e = ep
    · rw [hne]
      exact .inr hself
    · rcases ready_socket_of_ne b s ctx results hne with
        heq | ⟨_, _, a, _, hjoined⟩
      · rw [State.descriptor, heq] at he
        exact .inl he
      · rw [State.descriptor, hjoined] at he
        rcases he with he | he <;> cases he
  · exact fun w => .inl rfl
  · exact fun e he => .inl he

theorem harvest (h : Tracked s) {evts : List Event} {socket : ℕ → Socket}
    (hharvest : harvest b s.socket evts = some socket) : Tracked { s with socket := socket } := by
  have hctx : ∀ e, (socket e).endpoint.asyncContext = s.context e := by
    intro e
    rw [(harvest_socket hharvest e).1]
  apply h.of_contexts
  · intro e he
    have hunused := h.unused e he
    dsimp only at he ⊢
    rw [harvest_untouched hharvest, hunused]
    rintro evt hevt rfl
    have harmed := harvest_armed hharvest evt hevt
    rw [hunused] at harmed
    rcases harmed with harmed | harmed <;> cases harmed
  · intro e he
    simp only [State.context, State.endpoint]
    rwa [hctx]
  · intro e he
    obtain ⟨_, _, hin, hout⟩ := harvest_socket hharvest e
    exact .inl (he.imp hin hout)
  · exact fun w => .inl rfl
  · exact fun e he => .inl he

/-- The endpoint is armed for what it was, or for a part of it. -/
theorem disarm (h : Tracked s) {ep : ℕ} {d : Descriptor} (hep : ep < s.nextEp)
    (hd : d.Armed → (s.descriptor ep).Armed) : Tracked (s.setDescriptor ep d) := by
  have hctx : ∀ e, (s.setDescriptor ep d).context e = s.context e := by
    intro e
    rw [State.context, setDescriptor_endpoint]
  apply h.of_contexts
  · intro e he
    have hne : e ≠ ep := (lt_of_lt_of_le hep he).ne'
    rw [setDescriptor_socket, if_neg hne]
    exact h.unused e he
  · intro e he
    rwa [hctx]
  · intro e he
    rw [State.descriptor, setDescriptor_socket] at he
    split at he
    · next heq =>
      subst heq
      exact .inl (hd he)
    · exact .inl he
  · exact fun w => .inl rfl
  · exact fun e he => .inl he

theorem settle (h : Tracked s) {ep : ℕ} {c : Connection}
    (hconn : (s.descriptor ep).connection = .inProgress) :
    Tracked (s.setDescriptor ep { s.descriptor ep with connection := c }) := by
  refine h.disarm ?_ id
  by_contra hep
  rw [State.descriptor, h.unused ep (not_lt.mp hep)] at hconn
  cases hconn

theorem submit (h : Tracked s) {ep : ℕ} {ctx : AsyncContext} (call : AsyncCall)
    (hep : s.context ep ≠ none) : Tracked (s.submit ep ctx call) := by
  have hnew := h.setContext (ctx.append call.mode (call.overlapped s.nextOp ep)) hep
  refine hnew.relist rfl rfl rfl ?_
  intro e he
  simp only [State.submit] at he
  split at he
  · exact .inl he
  · rcases List.mem_append.mp he with he | he
    · exact .inl he
    · rw [List.mem_singleton.mp he, setContext_context, if_pos rfl]
      exact .inr (Option.some_ne_none _)

theorem handle (h : Tracked s) {evt : Event} {ctx : AsyncContext} (hep : s.context evt.ep ≠ none) :
    Tracked (s.handle b evt ctx) := by
  refine (h.setContext (ctx.handle b evt).ctx hep).relist rfl rfl rfl ?_
  intro e he
  simp only [State.handle] at he
  split at he
  · rcases List.mem_append.mp he with he | he
    · exact .inl he
    · rw [List.mem_singleton.mp he, setContext_context, if_pos rfl]
      exact .inr (Option.some_ne_none _)
  · exact .inl he

end Tracked

/-- The two halves of `depart`. -/
def Label.departs : Label n → Prop
  | .departKernel _ => True
  | .departContext _ => True
  | _ => False

instance (l : Label n) : Decidable l.departs := by
  cases l <;> simp only [Label.departs] <;> infer_instance

theorem Turn.tracked {pc pc' : Pc} (h : Turn s pc pc') (hpc : pc.Tracked s) : pc'.Tracked s := by
  cases h with
  | contextRead hctx => exact hctx
  | eventContext =>
    refine ⟨?_, hpc⟩
    exact Option.isNone_eq_false_iff.mpr (Option.isSome_iff_ne_none.mpr (hpc _ List.mem_cons_self))
  | _ => trivial

theorem Tracked.move (h : Tracked s) {l : Label n} (hl : ¬ l.departs) (hmove : Move b s l t) :
    Tracked t := by
  cases hmove with
  | stutter => exact h
  | nullContext ep call => exact h.relist rfl rfl rfl (fun e he => .inl he)
  | turn l w pc hturn => exact h.setWorker w pc (hturn.tracked (h.workers w))
  | waitFails w cnt hpc =>
    have hw := h.setWorker w .idle trivial
    exact hw.relist rfl rfl rfl (fun e he => .inl he)
  | join status hstatus => exact h.openSocket status
  | async ep call ctx hctx => exact h.submit call (by rw [hctx]; exact Option.some_ne_none ctx)
  | popCompletion w co rest hpc hlist =>
    have hw := h.setWorker w .polled trivial
    exact hw.relist rfl rfl rfl (fun e he => .inl he)
  | popReady w ep rest hpc hlist =>
    have hw := h.setWorker w (.popped ep rest.length) trivial
    refine hw.relist rfl rfl rfl ?_
    intro e he
    refine .inl ?_
    simp only [State.setWorker, hlist]
    exact List.mem_cons_of_mem ep he
  | ready w results ep cnt ctx hpc hctx => exact (h.ready hctx results).setWorker w _ trivial
  | wait w evts cnt socket hpc hharvest =>
    have hnew := h.harvest hharvest
    refine hnew.setWorker w _ (tracked_afterEvents ?_)
    intro e he
    have hctx := h.armed e.ep (harvest_armed hharvest e he)
    rwa [State.context, State.endpoint, (harvest_socket hharvest e.ep).1]
  | handle w evt rest ctx hpc hctx =>
    have hw := h.workers w
    rw [hpc] at hw
    have hep : s.context evt.ep ≠ none := hw.2 evt List.mem_cons_self
    refine (h.handle hep).setWorker w _ (tracked_afterEvents ?_)
    intro e he
    have hkeep : (s.handle b evt ctx).context e.ep =
        if e.ep = evt.ep then some (ctx.handle b evt).ctx else s.context e.ep := setContext_context ..
    rw [hkeep]
    split
    · exact Option.some_ne_none _
    · exact hw.2 e (List.mem_cons_of_mem evt he)
  | settle ep success hconn => exact h.settle hconn
  | departKernel => exact absurd trivial hl
  | departNull => exact absurd trivial hl
  | departContext => exact absurd trivial hl

/-- No step faults where all contexts in use are there. -/
theorem Tracked.step_ok (b : Backend) (h : Tracked s) (l : Label n) : ∃ t, step b s l = .ok t := by
  cases l with
  | processReady w results =>
    simp only [step, State.processReady]
    split
    · next ep cnt hpc =>
      have hw := h.workers w
      rw [hpc] at hw
      obtain ⟨ctx, hctx⟩ := Option.ne_none_iff_exists'.mp hw
      simp only [hctx]
      exact ⟨_, rfl⟩
    · exact ⟨s, rfl⟩
  | processEvent w =>
    simp only [step, State.processEvent]
    split
    · next evt rest hpc =>
      have hw := h.workers w
      rw [hpc] at hw
      cases hw.1
    · next evt rest hpc =>
      have hw := h.workers w
      rw [hpc] at hw
      obtain ⟨ctx, hctx⟩ := Option.ne_none_iff_exists'.mp (hw.2 evt List.mem_cons_self)
      simp only [hctx]
      exact ⟨_, rfl⟩
    · exact ⟨s, rfl⟩
  | _ => exact ⟨_, rfl⟩

end LibXpf.NetIoMux
