import LibXpf.NetIoMux.Tracking
import Mathlib.Algebra.BigOperators.Group.Finset.Piecewise
import Mathlib.Data.Fintype.Basic

/-! # The ready flag and the ready list

A ticket of an endpoint is an occurrence in the ready list or a worker that
popped it and has not locked its context yet. The ready section consumes one
ticket and clears the flag, a submission sets the flag where it adds one, but an
event adds a ticket whatever the flag says. So the flag counts the tickets as
long as events meet endpoints without one.
-/
namespace LibXpf.NetIoMux
open GuardedRuns

variable {n : ℕ} {b : Backend} {s t : State n}

section Tickets

/-- The workers that popped `ep` and have not locked its context. -/
def holders (worker : Fin n → Pc) (ep : ℕ) : ℕ :=
  (Finset.univ.filter (fun w => (worker w).serving = some ep)).card

def State.tickets (s : State n) (ep : ℕ) : ℕ := s.mReadyList.count ep + holders s.worker ep

def State.Ticketed (s : State n) (ep : ℕ) : Prop :=
  ep ∈ s.mReadyList ∨ ∃ w, (s.worker w).serving = some ep

instance (s : State n) (ep : ℕ) : Decidable (s.Ticketed ep) := inferInstanceAs (Decidable (_ ∨ _))

def Pc.serves (pc : Pc) (ep : ℕ) : ℕ := if pc.serving = some ep then 1 else 0

theorem holders_update (worker : Fin n → Pc) (w : Fin n) (pc : Pc) (ep : ℕ) :
    holders (Function.update worker w pc) ep + (worker w).serves ep =
      holders worker ep + pc.serves ep := by
  have hrest : ∑ v ∈ Finset.univ.erase w, (Function.update worker w pc v).serves ep =
      ∑ v ∈ Finset.univ.erase w, (worker v).serves ep := by
    apply Finset.sum_congr rfl
    intro v hv
    rw [Function.update_of_ne (Finset.ne_of_mem_erase hv)]
  have hsum : ∀ f : Fin n → Pc, holders f ep =
      (f w).serves ep + ∑ v ∈ Finset.univ.erase w, (f v).serves ep := by
    intro f
    rw [holders, Finset.card_filter]
    exact (Finset.add_sum_erase _ (fun v => (f v).serves ep) (Finset.mem_univ w)).symm
  rw [hsum (Function.update worker w pc), hsum worker, hrest, Function.update_self]
  omega

theorem tickets_eq_zero_iff (s : State n) (ep : ℕ) : s.tickets ep = 0 ↔ ¬ s.Ticketed ep := by
  rw [State.tickets, Nat.add_eq_zero_iff, List.count_eq_zero, holders, Finset.card_eq_zero,
    Finset.filter_eq_empty_iff, State.Ticketed, not_or, not_exists]
  simp only [Finset.mem_univ, forall_const]

/-- What the flag says: `1` where it is set. -/
def Socket.flag (k : Socket) : ℕ :=
  match k.endpoint.asyncContext with
  | some ctx => if ctx.ready then 1 else 0
  | none => 0

theorem flag_of_context {k : Socket} {ctx : AsyncContext} (h : k.endpoint.asyncContext = some ctx) :
    k.flag = if ctx.ready then 1 else 0 := by
  simp only [Socket.flag, h]

theorem flag_congr {k k' : Socket} (h : k.endpoint = k'.endpoint) : k.flag = k'.flag := by
  rw [Socket.flag, Socket.flag, h]

end Tickets

/-- The assertions about the flag. -/
def flagMessages : List String :=
  ["Expecting ready flag on for all ", nonReadyMessage .epoll, nonReadyMessage .kqueue]

/-- The flag of a context is set exactly while its endpoint has a ticket, no
endpoint has two, and the assertions about the flag have held. -/
structure ReadyAgrees (s : State n) : Prop where
  ready_iff : ∀ ep ctx, s.context ep = some ctx → (ctx.ready = true ↔ s.Ticketed ep)
  once : ∀ ep, s.tickets ep ≤ 1
  assertions : ∀ m ∈ s.failed, m ∉ flagMessages

/-- The event about to be processed is for an endpoint without a ticket. -/
def EventFindsNoTicket (s : State n) : Label n → Prop
  | .processEvent w =>
    match s.worker w with
    | .holding _ evt _ => ¬ s.Ticketed evt.ep
    | _ => True
  | _ => True

instance (s : State n) : (l : Label n) → Decidable (EventFindsNoTicket s l)
  | .processEvent w => by
    dsimp only [EventFindsNoTicket]
    exact match s.worker w with
      | .holding _ _ _ => inferInstanceAs (Decidable (¬ _))
      | .idle | .polled | .popped _ _ | .fetched _ _ | .waiting _ | .handling _ => isTrue trivial
  | .join _ | .async _ _ | .popCompletion _ | .popReady _ | .getContext _ | .processReady _ _ | .wait _ _ |
    .getEventContext _ | .settle _ _ | .departKernel _ | .departContext _ => isTrue trivial

/-- The invariant: the flag counts the tickets. -/
structure FlagCounts (s : State n) : Prop where
  tracked : Tracked s
  counts : ∀ ep, s.tickets ep = (s.socket ep).flag
  assertions : ∀ m ∈ s.failed, m ∉ flagMessages

namespace FlagCounts

theorem initial (n : ℕ) : FlagCounts (State.initial n) where
  tracked := .initial n
  counts ep := by
    have hzero : ¬ (State.initial n).Ticketed ep := by
      rintro (h | ⟨w, h⟩)
      · exact absurd h List.not_mem_nil
      · cases h
    exact (tickets_eq_zero_iff _ ep).mpr hzero
  assertions m hm := absurd hm List.not_mem_nil

theorem readyAgrees (h : FlagCounts s) : ReadyAgrees s where
  ready_iff ep ctx hctx := by
    have hcount := h.counts ep
    rw [flag_of_context hctx] at hcount
    have hzero := tickets_eq_zero_iff s ep
    constructor
    · intro hready
      rw [if_pos hready] at hcount
      by_contra hnot
      have := hzero.mpr hnot
      omega
    · intro hticket
      by_contra hready
      rw [if_neg hready] at hcount
      exact hzero.mp hcount hticket
  once ep := by
    rw [h.counts ep, Socket.flag]
    split
    · split <;> omega
    · omega
  assertions := h.assertions

/-- A step keeps the invariant if it gains as many tickets as flags. -/
theorem of_balance (h : FlagCounts s) (htracked : Tracked t)
    (hbalance : ∀ ep, t.tickets ep + (s.socket ep).flag = s.tickets ep + (t.socket ep).flag)
    {messages : List String} (hfailed : t.failed = s.failed ++ messages)
    (hmessages : ∀ m ∈ messages, m ∉ flagMessages) : FlagCounts t where
  tracked := htracked
  counts ep := by
    have hbefore := h.counts ep
    have hgain := hbalance ep
    omega
  assertions := by
    intro m hm
    rw [hfailed] at hm
    rcases List.mem_append.mp hm with hm | hm
    · exact h.assertions m hm
    · exact hmessages m hm

/-- A popped endpoint still has its flag. -/
theorem ready_of_serving (h : FlagCounts s) {w : Fin n} {ep : ℕ}
    (hw : (s.worker w).serving = some ep) : ∃ ctx, s.context ep = some ctx ∧ ctx.ready = true := by
  have hticket : s.tickets ep ≠ 0 := by
    rw [ne_eq, tickets_eq_zero_iff, not_not]
    exact .inr ⟨w, hw⟩
  rw [h.counts ep] at hticket
  cases hctx : s.context ep with
  | none =>
    simp only [Socket.flag, hctx] at hticket
    exact absurd rfl hticket
  | some ctx =>
    rw [flag_of_context hctx] at hticket
    refine ⟨ctx, rfl, ?_⟩
    by_contra hready
    rw [if_neg hready] at hticket
    exact absurd rfl hticket

theorem tickets_setWorker (s : State n) (w : Fin n) (pc : Pc) (ep : ℕ) :
    (s.setWorker w pc).tickets ep + (s.worker w).serves ep = s.tickets ep + pc.serves ep := by
  have hupdate := holders_update s.worker w pc ep
  simp only [State.tickets, State.setWorker]
  omega

theorem serves_afterEvents (evts : List Event) (ep : ℕ) : (State.afterEvents evts).serves ep = 0 := by
  cases evts with
  | nil => rfl
  | cons e rest => rfl

theorem setWorker (h : FlagCounts s) (w : Fin n) (pc : Pc) (htracked : Tracked (s.setWorker w pc))
    (hserves : ∀ ep, (s.worker w).serves ep = pc.serves ep) : FlagCounts (s.setWorker w pc) := by
  apply h.of_balance htracked ?_ (List.append_nil _).symm (fun m hm => absurd hm List.not_mem_nil)
  intro ep
  have htickets := tickets_setWorker s w pc ep
  have hsocket : (s.setWorker w pc).socket = s.socket := rfl
  rw [hserves ep] at htickets
  rw [hsocket]
  omega

theorem of_same (h : FlagCounts s) (htracked : Tracked t) (hlist : t.mReadyList = s.mReadyList)
    (hworker : t.worker = s.worker) (hsocket : ∀ e, t.endpoint e = s.endpoint e)
    {messages : List String} (hfailed : t.failed = s.failed ++ messages)
    (hmessages : ∀ m ∈ messages, m ∉ flagMessages) : FlagCounts t := by
  apply h.of_balance htracked ?_ hfailed hmessages
  intro ep
  rw [State.tickets, State.tickets, hlist, hworker, flag_congr (hsocket ep)]

theorem turn (h : FlagCounts s) {w : Fin n} {pc : Pc} (hturn : Turn s (s.worker w) pc) :
    FlagCounts (s.setWorker w pc) := by
  apply h.setWorker w pc (h.tracked.setWorker w pc (hturn.tracked (h.tracked.workers w)))
  intro ep
  generalize hpc : s.worker w = before at hturn
  cases hturn with
  | contextNull hctx =>
    obtain ⟨ctx, hsome, _⟩ := h.ready_of_serving (w := w) (by rw [hpc]; rfl)
    rw [hctx] at hsome
    cases hsome
  | _ => rfl

theorem openSocket (h : FlagCounts s) (status : EStatus) : FlagCounts (s.openSocket status) := by
  apply h.of_balance (h.tracked.openSocket status) ?_ (List.append_nil _).symm
    (fun m hm => absurd hm List.not_mem_nil)
  intro ep
  rw [openSocket_socket]
  split
  · next hep =>
    rw [h.tracked.unused ep hep.ge]
    rfl
  · rfl

/-- Pushing an endpoint to the ready list adds one ticket. -/
theorem count_pushed (list : List ℕ) (ep e : ℕ) (push : Bool) :
    (if push then list ++ [ep] else list).count e =
      list.count e + if e = ep then (if push then 1 else 0) else 0 := by
  cases push with
  | true =>
    rw [if_pos rfl, List.count_append, List.count_singleton]
    by_cases he : e = ep
    · simp only [he, beq_self_eq_true, if_true]
    · simp only [beq_iff_eq, Ne.symm he, if_false, he]
  | false => simp only [Bool.false_eq_true, if_false, ite_self, Nat.add_zero]

theorem submit_tickets (s : State n) (ep e : ℕ) (ctx : AsyncContext) (call : AsyncCall) :
    (s.submit ep ctx call).tickets e = s.tickets e + if e = ep then (if ctx.ready then 0 else 1) else 0 := by
  have hlist : (s.submit ep ctx call).mReadyList =
      if !ctx.ready then s.mReadyList ++ [ep] else s.mReadyList := by
    simp only [State.submit]
    cases ctx.ready <;> rfl
  have hworker : (s.submit ep ctx call).worker = s.worker := rfl
  rw [State.tickets, hlist, hworker, count_pushed, State.tickets]
  cases ctx.ready with
  | true => simp only [Bool.not_true, Bool.false_eq_true, if_false, if_true]; omega
  | false => simp only [Bool.not_false, Bool.false_eq_true, if_false, if_true]; omega

theorem submit (h : FlagCounts s) {ep : ℕ} {ctx : AsyncContext} {call : AsyncCall}
    (hctx : s.context ep = some ctx) (htracked : Tracked (s.submit ep ctx call)) :
    FlagCounts (s.submit ep ctx call) := by
  apply h.of_balance htracked ?_ (List.append_nil _).symm (fun m hm => absurd hm List.not_mem_nil)
  intro e
  have happend : ∀ o, (ctx.append call.mode o).ready = true := by
    intro o
    cases call.mode <;> rfl
  rw [submit_tickets, State.submit, setContext_socket]
  by_cases he : e = ep
  · subst he
    rw [if_pos rfl, if_pos rfl, flag_of_context hctx, flag_of_context rfl, happend, if_pos rfl]
    split <;> omega
  · rw [if_neg he, if_neg he]
    omega

theorem ready_flag (h : Tracked s) {ep e : ℕ} {ctx : AsyncContext} {results : ℕ → IoResult} :
    ((s.ready b ep ctx results).socket e).flag = if e = ep then 0 else (s.socket e).flag := by
  split
  · next he =>
    rw [he]
    simp only [State.ready, Function.update_self]
    rfl
  · next he =>
    rcases ready_socket_of_ne b s ctx results he with
      heq | ⟨hle, _, a, _, hjoined⟩
    · rw [heq]
    · rw [hjoined, h.unused e hle]
      rfl

theorem handle_flag {evt : Event} {e : ℕ} {ctx : AsyncContext} :
    ((s.handle b evt ctx).socket e).flag =
      if e = evt.ep then (if (ctx.handle b evt).listed then 1 else 0) else (s.socket e).flag := by
  have hready : (ctx.handle b evt).ctx.ready = (ctx.handle b evt).listed := by
    cases b with
    | epoll =>
      simp only [AsyncContext.handle]
      split
      · rfl
      · split <;> rfl
    | kqueue =>
      simp only [AsyncContext.handle]
      split
      · split <;> rfl
      · rfl
  rw [State.handle, setContext_socket]
  split
  · rw [flag_of_context rfl, hready]
  · rfl

theorem handle_tickets (s : State n) (evt : Event) (e : ℕ) (ctx : AsyncContext) :
    (s.handle b evt ctx).tickets e =
      s.tickets e + if e = evt.ep then (if (ctx.handle b evt).listed then 1 else 0) else 0 := by
  have hworker : (s.handle b evt ctx).worker = s.worker := rfl
  rw [State.tickets, State.handle, count_pushed, State.tickets]
  dsimp only [State.setContext]
  omega

/-- An event that meets an endpoint without a ticket. -/
theorem handle (h : FlagCounts s) {evt : Event} {ctx : AsyncContext}
    (hctx : s.context evt.ep = some ctx) (hnone : ¬ s.Ticketed evt.ep)
    (htracked : Tracked (s.handle b evt ctx)) : FlagCounts (s.handle b evt ctx) := by
  have hflag := h.counts evt.ep
  rw [(tickets_eq_zero_iff s evt.ep).mpr hnone] at hflag
  apply h.of_balance htracked ?_ rfl ?_
  · intro e
    rw [handle_tickets, handle_flag]
    split
    · next he =>
      rw [he]
      omega
    · omega
  · intro m hm
    rw [flag_of_context hctx] at hflag
    cases hready : ctx.ready with
    | true => simp only [hready, if_true, zero_ne_one] at hflag
    | false => exact absurd hready (mem_asserting hm).2

/-- The worker that takes an endpoint from the ready list has its ticket. -/
theorem popReady (h : FlagCounts s) {w : Fin n} {ep : ℕ} {rest : List ℕ} (hpc : s.worker w = .polled)
    (hlist : s.mReadyList = ep :: rest)
    (htracked : Tracked { s.setWorker w (.popped ep rest.length) with mReadyList := rest }) :
    FlagCounts { s.setWorker w (.popped ep rest.length) with mReadyList := rest } := by
  apply h.of_balance htracked ?_ (List.append_nil _).symm (fun m hm => absurd hm List.not_mem_nil)
  intro e
  have hupdate := holders_update s.worker w (.popped ep rest.length) e
  simp only [State.tickets, State.setWorker, hlist, List.count_cons]
  rw [hpc] at hupdate
  simp only [Pc.serves, Pc.serving, Option.some.injEq, reduceCtorEq, if_false, beq_iff_eq] at hupdate ⊢
  omega

/-- Serving an endpoint gives up its ticket and clears its flag. -/
theorem ready (h : FlagCounts s) {w : Fin n} {ep cnt : ℕ} {ctx : AsyncContext} (results : ℕ → IoResult)
    (hpc : s.worker w = .fetched ep cnt) (hctx : s.context ep = some ctx)
    (htracked : Tracked ((s.ready b ep ctx results).setWorker w (.waiting cnt))) :
    FlagCounts ((s.ready b ep ctx results).setWorker w (.waiting cnt)) := by
  have hfailed : ((s.ready b ep ctx results).setWorker w (.waiting cnt)).failed = s.failed ++
      (asserting "Expecting ready flag on for all " (ctx.ready = true) ++
        (s.performQueues ep ctx results).progress.failed) := List.append_assoc ..
  obtain ⟨ctx', hctx', hready⟩ := h.ready_of_serving (w := w) (by rw [hpc]; rfl)
  obtain rfl : ctx = ctx' := Option.some.inj (hctx.symm.trans hctx')
  apply h.of_balance htracked ?_ hfailed ?_
  · intro e
    have htickets := tickets_setWorker (s.ready b ep ctx results) w (.waiting cnt) e
    have hsame : (s.ready b ep ctx results).tickets e = s.tickets e := rfl
    have hsocket : ((s.ready b ep ctx results).setWorker w (.waiting cnt)).socket e =
      (s.ready b ep ctx results).socket e := rfl
    have hworker : (s.ready b ep ctx results).worker w = .fetched ep cnt := hpc
    rw [hsocket, ready_flag h.tracked]
    rw [hsame, hworker] at htickets
    simp only [Pc.serves, Pc.serving, Option.some.injEq, reduceCtorEq, if_false] at htickets
    by_cases he : e = ep
    · subst he
      rw [if_pos rfl] at htickets ⊢
      rw [flag_of_context hctx, if_pos hready]
      omega
    · rw [if_neg (Ne.symm he)] at htickets
      rw [if_neg he]
      omega
  · intro m hm
    rcases List.mem_append.mp hm with hm | hm
    · exact absurd hready (mem_asserting hm).2
    · have hdisjoint : ∀ m ∈ performMessages, m ∉ flagMessages := by decide
      exact hdisjoint m (performQueues_failed s ep ctx results m hm)

theorem move (h : FlagCounts s) {l : Label n} (hl : ¬ l.departs) (hfree : EventFindsNoTicket s l)
    (hmove : Move b s l t) : FlagCounts t := by
  have htracked := h.tracked.move hl hmove
  cases hmove with
  | stutter => exact h
  | nullContext ep call =>
    apply h.of_balance htracked (fun _ => rfl) rfl
    decide
  | turn l w pc hturn => exact h.turn hturn
  | waitFails w cnt hpc =>
    have hw := h.setWorker w .idle (h.tracked.setWorker w _ trivial)
      (by rw [hpc]; exact fun _ => rfl)
    exact hw.of_same htracked rfl rfl (fun _ => rfl) rfl (by decide)
  | join status hstatus => exact h.openSocket status
  | async ep call ctx hctx => exact h.submit hctx htracked
  | popCompletion w co rest hpc hlist =>
    have hw := h.setWorker w .polled (h.tracked.setWorker w _ trivial)
      (by rw [hpc]; exact fun _ => rfl)
    exact hw.of_same htracked rfl rfl (fun _ => rfl) (List.append_nil _).symm
      (fun m hm => absurd hm List.not_mem_nil)
  | popReady w ep rest hpc hlist => exact h.popReady hpc hlist htracked
  | ready w results ep cnt ctx hpc hctx => exact h.ready results hpc hctx htracked
  | wait w evts cnt socket hpc hharvest =>
    have hnew : FlagCounts { s with socket := socket } := by
      apply h.of_same (h.tracked.harvest hharvest) rfl rfl (fun e => (harvest_socket hharvest e).1)
        (List.append_nil _).symm (fun m hm => absurd hm List.not_mem_nil)
    refine hnew.setWorker w _ htracked ?_
    intro ep
    rw [serves_afterEvents, hpc]
    rfl
  | handle w evt rest ctx hpc hctx =>
    have hnone : ¬ s.Ticketed evt.ep := by
      simp only [EventFindsNoTicket, hpc] at hfree
      exact hfree
    have hhandled : Tracked (s.handle b evt ctx) :=
      h.tracked.handle (by rw [hctx]; exact Option.some_ne_none ctx)
    refine (h.handle hctx hnone hhandled).setWorker w _ htracked ?_
    intro ep
    have hworker : (s.handle b evt ctx).worker w = .holding false evt rest := hpc
    rw [serves_afterEvents, hworker]
    rfl
  | settle ep success hconn =>
    exact h.of_same htracked rfl rfl (fun e => setDescriptor_endpoint s ep e _)
      (List.append_nil _).symm (fun m hm => absurd hm List.not_mem_nil)
  | departKernel => exact absurd trivial hl
  | departNull => exact absurd trivial hl
  | departContext => exact absurd trivial hl

end FlagCounts

/-- An event that meets a ticket finds the flag set and fails the assertion. -/
theorem not_readyAgrees_of_ticket {l : Label n} (h : FlagCounts s) (hfree : ¬ EventFindsNoTicket s l)
    (hstep : step b s l = .ok t) : ¬ ReadyAgrees t := by
  intro hagrees
  cases l with
  | processEvent w =>
    cases hpc : s.worker w with
    | holding null evt rest =>
      simp only [EventFindsNoTicket, hpc, not_not] at hfree
      have hw := h.tracked.workers w
      rw [hpc] at hw
      obtain ⟨rfl, hevents⟩ := hw
      obtain ⟨ctx, hctx⟩ := Option.ne_none_iff_exists'.mp (hevents evt List.mem_cons_self)
      have hready : ctx.ready = true := (h.readyAgrees.ready_iff evt.ep ctx hctx).mpr hfree
      simp only [step, State.processEvent, hpc, hctx, Except.ok.injEq] at hstep
      subst hstep
      apply hagrees.assertions (nonReadyMessage b)
      · simp only [State.setWorker, State.handle, asserting, hready, Bool.true_eq_false, if_false,
          List.mem_append, List.mem_singleton, or_true]
      · cases b <;> decide
    | _ => exact hfree (by simp only [EventFindsNoTicket, hpc])
  | _ => exact hfree trivial

/-- The flag is right in every state of a run, and its assertions hold, if and only
if no event is processed for an endpoint that has a ticket. -/
theorem readyAgrees_iff (b : Backend) (n : ℕ) (labels : List (Label n))
    (h : ∀ l ∈ labels, ¬ l.departs) :
    Throughout (step b) ReadyAgrees (State.initial n) labels ↔
      Along (step b) EventFindsNoTicket (State.initial n) labels := by
  refine throughout_iff_along (fun s (hs : FlagCounts s) => hs.readyAgrees) ?_ ?_ (.initial n)
    (along_of_forall h)
  · intro s l hs hl hfree
    obtain ⟨t, ht⟩ := hs.tracked.step_ok b l
    exact ⟨t, ht, hs.move hl hfree (step_move ht)⟩
  · intro s l t hs hl hfree hstep
    exact not_readyAgrees_of_ticket hs hfree hstep

/-- The worker of the runs that have one. -/
def w₀ : Fin 1 := 0

/-- One endpoint waits for input, its event comes, and the input is read. -/
def servedRun : List (Label 1) :=
  [.join .connected, .async 0 (.recv 100 8 7), .popCompletion w₀, .popReady w₀, .getContext w₀,
    .processReady w₀ (fun _ => .wouldBlock), .wait w₀ (some [⟨0, true, false, false⟩]),
    .getEventContext w₀, .processEvent w₀, .popCompletion w₀, .popReady w₀, .getContext w₀,
    .processReady w₀ (fun _ => .transferred 5), .wait w₀ (some []), .popCompletion w₀]

theorem readyAgrees_iff_servedRun :
    Throughout (step .epoll) ReadyAgrees (State.initial 1) servedRun :=
  (readyAgrees_iff .epoll 1 servedRun (by decide)).mpr (by decide +kernel)

/-- The endpoint is still armed for its `recv` when a `send` is submitted, and the
event for the `recv` meets the ticket of the `send`. -/
def strayEventRun : List (Label 1) :=
  [.join .connected, .async 0 (.recv 100 8 7), .popCompletion w₀, .popReady w₀, .getContext w₀,
    .processReady w₀ (fun _ => .wouldBlock), .async 0 (.send 200 8 7),
    .wait w₀ (some [⟨0, true, false, false⟩]), .getEventContext w₀, .processEvent w₀]

theorem strayEventRun_listed_twice :
    Returns (final (step .epoll) (State.initial 1) strayEventRun) fun s =>
      s.mReadyList = [0, 0] ∧ nonReadyMessage .epoll ∈ s.failed := by
  decide +kernel

theorem strayEventRun_not_readyAgrees :
    (∀ l ∈ strayEventRun, ¬ l.departs) ∧
      ¬ Throughout (step .epoll) ReadyAgrees (State.initial 1) strayEventRun := by
  refine ⟨by decide, ?_⟩
  intro h
  obtain ⟨s, hs, hagrees⟩ := h.final
  obtain ⟨t, ht, _, hfailed⟩ := strayEventRun_listed_twice
  obtain rfl : s = t := Except.ok.inj (hs.symm.trans ht)
  exact hagrees.assertions _ hfailed (by decide)

end LibXpf.NetIoMux
