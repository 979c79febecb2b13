import LibXpf.NetIoMux.Deliveries

/-! # The status of an endpoint

An endpoint is connecting exactly while a provisioned connect heads its write
queue, and accepting exactly while a provisioned accept heads its read queue. The
attempts keep this, since each outcome sets the status. The error branch of the
event loop empties both queues and leaves the status.
-/
namespace LibXpf.NetIoMux
open GuardedRuns ClassifiedQueues

variable {n : ℕ} {b : Backend} {s t : State n}

section Pending

/-- A provisioned operation of a kind. -/
def Overlapped.Pending (iotype : EIoType) (o : Overlapped) : Prop :=
  o.iotype = iotype ∧ o.provisioned = true

instance (iotype : EIoType) (o : Overlapped) : Decidable (o.Pending iotype) :=
  inferInstanceAs (Decidable (_ ∧ _))

/-- The last provisioned operation of a kind and an endpoint in a list. -/
def lastOf (ep : ℕ) (iotype : EIoType) (l : List Overlapped) : Option Overlapped :=
  (l.filter (fun o => o.sep = ep ∧ o.Pending iotype)).getLast?

theorem filter_eq_nil_of_none {ep : ℕ} {iotype : EIoType} {l : List Overlapped}
    (h : ∀ o ∈ l, ¬ (o.sep = ep ∧ o.Pending iotype)) :
    l.filter (fun o => o.sep = ep ∧ o.Pending iotype) = [] := by
  apply List.filter_eq_nil_iff.mpr
  intro o ho
  rw [decide_eq_true_eq]
  exact h o ho

theorem lastOf_of_none {ep : ℕ} {iotype : EIoType} {l : List Overlapped}
    (h : ∀ o ∈ l, ¬ (o.sep = ep ∧ o.Pending iotype)) : lastOf ep iotype l = none := by
  rw [lastOf, filter_eq_nil_of_none h]
  rfl

theorem lastOf_append_of_none {ep : ℕ} {iotype : EIoType} {l m : List Overlapped}
    (h : ∀ o ∈ m, ¬ (o.sep = ep ∧ o.Pending iotype)) :
    lastOf ep iotype (l ++ m) = lastOf ep iotype l := by
  rw [lastOf, lastOf, List.filter_append, filter_eq_nil_of_none h, List.append_nil]

theorem lastOf_append_single (ep : ℕ) (iotype : EIoType) (l : List Overlapped) (o : Overlapped) :
    lastOf ep iotype (l ++ [o]) =
      if o.sep = ep ∧ o.Pending iotype then some o else lastOf ep iotype l := by
  split
  · next h =>
    have hself : [o].filter (fun o => o.sep = ep ∧ o.Pending iotype) = [o] := by
      apply List.filter_eq_self.mpr
      intro k hk
      rw [List.mem_singleton.mp hk]
      exact decide_eq_true h
    rw [lastOf, List.filter_append, hself, List.getLast?_concat]
  · next h =>
    apply lastOf_append_of_none
    intro k hk
    rw [List.mem_singleton.mp hk]
    exact h

end Pending

/-- An endpoint is connecting (accepting) only while a provisioned connect (accept)
waits, and where none waits after one that completed with an error it is back to
the status that allows another try. -/
structure StatusBacked (s : State n) : Prop where
  busy : ∀ ep mode, (s.endpoint ep).status = mode.busy →
    ∃ o ∈ s.queue ep mode, o.Pending mode.handshake
  failed : ∀ ep mode o, lastOf ep mode.handshake (s.popped ++ s.mCompletionList) = some o →
    o.errorcode ≠ 0 → (∀ k ∈ s.queue ep mode, ¬ k.Pending mode.handshake) →
    (s.endpoint ep).status = mode.home

/-- A status that the handshake of a side sets or starts from. -/
def EStatus.Within (mode : Mode) (status : EStatus) : Prop :=
  status = mode.home ∨ status = mode.busy ∨ status = mode.reached

instance (mode : Mode) (status : EStatus) : Decidable (status.Within mode) :=
  inferInstanceAs (Decidable (_ ∨ _))

theorem EStatus.Within.not_other {mode other : Mode} (hne : other ≠ mode) {status : EStatus}
    (h : status.Within mode) : ¬ status.Within other := by
  revert hne h
  cases mode <;> cases other <;> cases status <;> decide

theorem handshake_side (mode : Mode) : mode.handshake.side = mode := by
  cases mode <;> rfl

/-- What the invariant says of one side of an endpoint: its queue, the status, and
the operations that entered the completion list. -/
structure Backed (mode : Mode) (ep : ℕ) (queue : List Overlapped) (status : EStatus)
    (entered : List Overlapped) : Prop where
  side : ∀ o ∈ queue, o.sep = ep ∧ o.iotype.side = mode
  new : ∀ o ∈ queue.tail, o.provisioned = false
  busy : status = mode.busy ↔ ∃ o ∈ queue, o.Pending mode.handshake
  within : ∀ o, lastOf ep mode.handshake entered = some o → status.Within mode
  failed : ∀ o, lastOf ep mode.handshake entered = some o → o.errorcode ≠ 0 →
    status = mode.home ∨ status = mode.busy

namespace Backed

variable {mode other : Mode} {ep : ℕ} {o op : Overlapped} {queue rest entered : List Overlapped}
  {status status' : EStatus}

theorem rest_not_pending (h : Backed mode ep (o :: rest) status entered) {iotype : EIoType} :
    ¬ ∃ k ∈ rest, k.Pending iotype := by
  rintro ⟨k, hk, hpending⟩
  have hnew := h.new k hk
  rw [hpending.2] at hnew
  cases hnew

/-- A handshake that gets as far as the call finds the endpoint at home or busy. -/
theorem of_start (h : Backed mode ep (o :: rest) status entered) (hio : o.iotype = mode.handshake)
    (hstart : o.provisioned = true ∨ status = mode.home) : status = mode.home ∨ status = mode.busy := by
  rcases hstart with hprovisioned | hhome
  · exact .inr (h.busy.mpr ⟨o, List.mem_cons_self, hio, hprovisioned⟩)
  · exact .inl hhome

theorem leave (h : Backed mode ep (o :: rest) status entered) (ho : ¬ o.Pending mode.handshake)
    (hop : ¬ op.Pending mode.handshake) : Backed mode ep rest status (entered ++ [op]) where
  side k hk := h.side k (List.mem_cons_of_mem o hk)
  new k hk := h.new k (List.mem_of_mem_tail hk)
  busy := by
    rw [h.busy, List.exists_mem_cons_iff]
    exact or_iff_right ho
  within k hk := by
    rw [lastOf_append_single, if_neg (fun hpending => hop hpending.2)] at hk
    exact h.within k hk
  failed k hk := by
    rw [lastOf_append_single, if_neg (fun hpending => hop hpending.2)] at hk
    exact h.failed k hk

/-- An operation that is no handshake waits on where it was. -/
theorem stay (h : Backed mode ep (o :: rest) status entered) (ho : ¬ o.Pending mode.handshake)
    (hop : ¬ op.Pending mode.handshake) (hside : op.sep = ep ∧ op.iotype.side = mode) :
    Backed mode ep (op :: rest) status entered where
  side := List.forall_mem_cons.mpr ⟨hside, (List.forall_mem_cons.mp h.side).2⟩
  new := h.new
  busy := by
    rw [h.busy, List.exists_mem_cons_iff, List.exists_mem_cons_iff, or_iff_right ho, or_iff_right hop]
  within := h.within
  failed := h.failed

/-- A handshake completes. -/
theorem finish (h : Backed mode ep (o :: rest) status entered) (hsep : op.sep = ep)
    (hop : op.Pending mode.handshake)
    (hstatus : status' = mode.home ∨ status' = mode.reached ∧ op.errorcode = 0) :
    Backed mode ep rest status' (entered ++ [op]) where
  side k hk := h.side k (List.mem_cons_of_mem o hk)
  new k hk := h.new k (List.mem_of_mem_tail hk)
  busy := by
    refine iff_of_false ?_ h.rest_not_pending
    rcases hstatus with rfl | ⟨rfl, _⟩ <;> cases mode <;> decide
  within k hk := by
    rcases hstatus with rfl | ⟨rfl, _⟩
    · exact .inl rfl
    · exact .inr (.inr rfl)
  failed k hk herror := by
    rw [lastOf_append_single, if_pos ⟨hsep, hop⟩] at hk
    cases hk
    rcases hstatus with rfl | ⟨rfl, hzero⟩
    · exact .inl rfl
    · exact absurd hzero herror

theorem block (h : Backed mode ep (o :: rest) status entered) (hop : op.Pending mode.handshake)
    (hside : op.sep = ep ∧ op.iotype.side = mode) :
    Backed mode ep (op :: rest) mode.busy entered where
  side := List.forall_mem_cons.mpr ⟨hside, (List.forall_mem_cons.mp h.side).2⟩
  new := h.new
  busy := iff_of_true rfl ⟨op, List.mem_cons_self, hop⟩
  within _ _ := .inr (.inl rfl)
  failed _ _ _ := .inr rfl

/-- What happens to the other side does not matter, as its statuses are others. -/
theorem frame (h : Backed other ep queue status entered) (hstatus : ¬ status.Within other)
    (hstatus' : ¬ status'.Within other) {more : List Overlapped}
    (hmore : ∀ k ∈ more, k.iotype ≠ other.handshake) :
    Backed other ep queue status' (entered ++ more) where
  side := h.side
  new := h.new
  busy := by
    refine iff_of_false (fun heq => hstatus' (.inr (.inl heq))) ?_
    rw [← h.busy]
    exact fun heq => hstatus (.inr (.inl heq))
  within k hk := by
    rw [lastOf_append_of_none (fun o ho hpending => hmore o ho hpending.2.1)] at hk
    exact absurd (h.within k hk) hstatus
  failed k hk := by
    rw [lastOf_append_of_none (fun o ho hpending => hmore o ho hpending.2.1)] at hk
    exact absurd (h.within k hk) hstatus

theorem enter_other (h : Backed other ep queue status entered) (hop : op.iotype ≠ other.handshake) :
    Backed other ep queue status (entered ++ [op]) where
  side := h.side
  new := h.new
  busy := h.busy
  within k hk := by
    rw [lastOf_append_single, if_neg (fun hpending => hop hpending.2.1)] at hk
    exact h.within k hk
  failed k hk := by
    rw [lastOf_append_single, if_neg (fun hpending => hop hpending.2.1)] at hk
    exact h.failed k hk

theorem enter_elsewhere (h : Backed mode ep queue status entered) {more : List Overlapped}
    (hmore : ∀ k ∈ more, k.sep ≠ ep) : Backed mode ep queue status (entered ++ more) where
  side := h.side
  new := h.new
  busy := h.busy
  within k hk := by
    rw [lastOf_append_of_none (fun o ho hpending => hmore o ho hpending.1)] at hk
    exact h.within k hk
  failed k hk := by
    rw [lastOf_append_of_none (fun o ho hpending => hmore o ho hpending.1)] at hk
    exact h.failed k hk

theorem push (h : Backed mode ep queue status entered) (hside : op.sep = ep ∧ op.iotype.side = mode)
    (hnew : op.provisioned = false) : Backed mode ep (queue ++ [op]) status entered where
  side := List.forall_mem_append.mpr ⟨h.side, List.forall_mem_singleton.mpr hside⟩
  new := by
    cases queue with
    | nil => exact fun k hk => absurd hk List.not_mem_nil
    | cons o rest => exact List.forall_mem_append.mpr ⟨h.new, List.forall_mem_singleton.mpr hnew⟩
  busy := by
    have hop : ¬ op.Pending mode.handshake := fun hpending => by
      cases hnew.symm.trans hpending.2
    rw [h.busy]
    simp only [List.mem_append, List.mem_singleton, or_and_right, exists_or, exists_eq_left, hop, or_false]
  within := h.within
  failed := h.failed

/-- A queue is aborted that holds no pending handshake. -/
theorem abort (h : Backed mode ep queue status entered)
    (hnone : ∀ o ∈ queue, ¬ o.Pending mode.handshake) {more : List Overlapped}
    (hmore : ∀ k ∈ more, ¬ k.Pending mode.handshake) : Backed mode ep [] status (entered ++ more) where
  side _ ho := absurd ho List.not_mem_nil
  new _ ho := absurd ho List.not_mem_nil
  busy := by
    rw [h.busy]
    refine iff_of_false ?_ ?_
    · rintro ⟨o, ho, hpending⟩
      exact hnone o ho hpending
    · rintro ⟨o, ho, _⟩
      exact absurd ho List.not_mem_nil
  within k hk := by
    rw [lastOf_append_of_none (fun o ho hpending => hmore o ho hpending.2)] at hk
    exact h.within k hk
  failed k hk := by
    rw [lastOf_append_of_none (fun o ho hpending => hmore o ho hpending.2)] at hk
    exact h.failed k hk

theorem joined (hstatus : status.Settled) (hentered : ∀ k ∈ entered, k.sep ≠ ep) :
    Backed mode ep [] status entered where
  side _ ho := absurd ho List.not_mem_nil
  new _ ho := absurd ho List.not_mem_nil
  busy := by
    refine iff_of_false ?_ ?_
    · intro hbusy
      cases mode with
      | read => exact hstatus.2 hbusy
      | write => exact hstatus.1 hbusy
    · rintro ⟨o, ho, _⟩
      exact absurd ho List.not_mem_nil
  within k hk := by
    rw [lastOf_of_none (fun o ho hpending => hentered o ho hpending.1)] at hk
    cases hk
  failed k hk := by
    rw [lastOf_of_none (fun o ho hpending => hentered o ho hpending.1)] at hk
    cases hk

end Backed

section Loops

variable (results : ℕ → IoResult) (firstNew : ℕ) {ep : ℕ} {o : Overlapped} {p : Progress}
  {mode other : Mode} {queue rest entered : List Overlapped}

theorem attempt_side (p : Progress) (h : o.sep = ep ∧ o.iotype.side = mode) :
    ((attempt results firstNew o p).op.sep = ep ∧ (attempt results firstNew o p).op.iotype.side = mode) ∧
      (attempt results firstNew o p).op.iotype = o.iotype := by
  have hkey := (attempt_sound results firstNew o p).key
  have hsep : (attempt results firstNew o p).op.sep = o.sep := congrArg (fun k => k.2.1) hkey
  have hio : (attempt results firstNew o p).op.iotype = o.iotype := congrArg (fun k => k.2.2) hkey
  rw [hsep, hio]
  exact ⟨h, rfl⟩

/-- One round of a loop, for both sides of the endpoint. -/
theorem Backed.attempt (hne : other ≠ mode) (h : Backed mode ep (o :: rest) p.ep.status entered)
    (h' : Backed other ep queue p.ep.status entered) :
    ((attempt results firstNew o p).completed = true →
      Backed mode ep rest (attempt results firstNew o p).ep.status
          (entered ++ [(attempt results firstNew o p).op]) ∧
        Backed other ep queue (attempt results firstNew o p).ep.status
          (entered ++ [(attempt results firstNew o p).op])) ∧
    ((attempt results firstNew o p).completed = false →
      Backed mode ep ((attempt results firstNew o p).op :: rest)
          (attempt results firstNew o p).ep.status entered ∧
        Backed other ep queue (attempt results firstNew o p).ep.status entered) := by
  obtain ⟨hside, hop⟩ := attempt_side results firstNew p
    (h.side o List.mem_cons_self)
  have hother : (NetIoMux.attempt results firstNew o p).op.iotype ≠ other.handshake := by
    intro heq
    rw [heq, handshake_side] at hside
    exact hne hside.2
  by_cases hio : o.iotype = mode.handshake
  · cases attempt_outcome results firstNew p hio with
    | refused hnew hdone hep hprovisioned =>
      rw [hep]
      have ho : ¬ o.Pending mode.handshake := fun hpending => by
        cases hnew.symm.trans hpending.2
      have hop : ¬ (NetIoMux.attempt results firstNew o p).op.Pending mode.handshake := fun hpending => by
        cases hprovisioned.symm.trans hpending.2
      refine ⟨fun _ => ⟨h.leave ho hop, h'.enter_other hother⟩, fun hstop => ?_⟩
      cases hdone.symm.trans hstop
    | finished hstart hdone hprovisioned hstatus =>
      have hbefore := EStatus.Within.not_other hne ((h.of_start hio hstart).imp_right .inl)
      have hafter : ¬ (NetIoMux.attempt results firstNew o p).ep.status.Within other :=
        EStatus.Within.not_other hne (hstatus.imp_right (fun hr => .inr hr.1))
      refine ⟨fun _ => ⟨?_, ?_⟩, fun hstop => ?_⟩
      · exact h.finish hside.1 ⟨hop.trans hio, hprovisioned⟩ hstatus
      · exact h'.frame hbefore hafter (List.forall_mem_singleton.mpr hother)
      · cases hdone.symm.trans hstop
    | blocked hstart hstop hprovisioned hstatus =>
      have hbefore := EStatus.Within.not_other hne ((h.of_start hio hstart).imp_right .inl)
      rw [hstatus]
      refine ⟨fun hdone => ?_, fun _ => ⟨h.block ⟨hop.trans hio, hprovisioned⟩ hside, ?_⟩⟩
      · cases hdone.symm.trans hstop
      · have hframe := h'.frame hbefore (EStatus.Within.not_other hne (.inr (.inl rfl)))
          (fun k hk => absurd hk List.not_mem_nil)
        rwa [List.append_nil] at hframe
  · have ho : ¬ o.Pending mode.handshake := fun hpending => hio hpending.1
    have hop : ¬ (NetIoMux.attempt results firstNew o p).op.Pending mode.handshake :=
      fun hpending => hio (hop.symm.trans hpending.1)
    rw [attempt_status results firstNew p (h.side o List.mem_cons_self).2 hio]
    exact ⟨fun _ => ⟨h.leave ho hop, h'.enter_other hother⟩, fun _ => ⟨h.stay ho hop hside, h'⟩⟩

/-- The loop over the queue of a side. -/
theorem Backed.performQueue (hne : other ≠ mode)
    (h : Backed mode ep queue p.ep.status (entered ++ p.completed.map Prod.fst))
    {otherQueue : List Overlapped}
    (h' : Backed other ep otherQueue p.ep.status (entered ++ p.completed.map Prod.fst)) :
    Backed mode ep (performQueue results firstNew queue p).1
        (performQueue results firstNew queue p).2.ep.status
        (entered ++ (performQueue results firstNew queue p).2.completed.map Prod.fst) ∧
      Backed other ep otherQueue (performQueue results firstNew queue p).2.ep.status
        (entered ++ (performQueue results firstNew queue p).2.completed.map Prod.fst) := by
  let M : List Overlapped → Progress → Prop := fun l q =>
    Backed mode ep l q.ep.status (entered ++ q.completed.map Prod.fst) ∧
      Backed other ep otherQueue q.ep.status (entered ++ q.completed.map Prod.fst)
  refine performQueue_rule (M := M) (N := M) ?_ ?_ (fun _ hM => hM) ⟨h, h'⟩
  · rintro o rest q ⟨hmine, hother⟩ hdone
    have hround := (hmine.attempt results firstNew hne hother).1 hdone
    rw [List.append_assoc] at hround
    simp only [M, Progress.add_completed_of_done hdone, List.map_append, List.map_cons, List.map_nil]
    exact hround
  · rintro o rest q ⟨hmine, hother⟩ hstop
    have hround := (hmine.attempt results firstNew hne hother).2 hstop
    simp only [M, Progress.add_completed_of_stop hstop]
    exact hround

end Loops

/-- No error event is processed while a provisioned handshake waits at its endpoint. -/
def AbortsNoHandshake (s : State n) : Label n → Prop
  | .processEvent w =>
    match s.worker w with
    | .holding _ evt _ => evt.error = true →
      (∀ o ∈ s.queue evt.ep .read, ¬ o.Pending .accept) ∧
        ∀ o ∈ s.queue evt.ep .write, ¬ o.Pending .connect
    | _ => True
  | _ => True

instance (s : State n) : (l : Label n) → Decidable (AbortsNoHandshake s l)
  | .processEvent w => by
    dsimp only [AbortsNoHandshake]
    exact match s.worker w with
      | .holding _ _ _ => inferInstanceAs (Decidable (_ → _ ∧ _))
      | .idle | .polled | .popped _ _ | .fetched _ _ | .waiting _ | .handling _ => isTrue trivial
  | .join _ | .async _ _ | .popCompletion _ | .popReady _ | .getContext _ | .processReady _ _ | .wait _ _ |
    .getEventContext _ | .settle _ _ | .departKernel _ | .departContext _ => isTrue trivial

/-- The invariant. -/
structure StatusInv (s : State n) : Prop where
  accounted : Accounted s
  backed : ∀ ep mode,
    Backed mode ep (s.queue ep mode) (s.endpoint ep).status (s.entered.map Prod.fst)

namespace StatusInv

theorem initial (n : ℕ) : StatusInv (State.initial n) where
  accounted := .initial n
  backed ep mode := by
    have hinit : EStatus.Settled .init := ⟨by decide, by decide⟩
    exact .joined hinit (fun k hk => absurd hk List.not_mem_nil)

theorem statusBacked (h : StatusInv s) : StatusBacked s where
  busy ep mode := (h.backed ep mode).busy.mp
  failed ep mode o ho herror hnone := by
    rw [h.accounted.history] at ho
    rcases (h.backed ep mode).failed o ho herror with hhome | hbusy
    · exact hhome
    · obtain ⟨k, hk, hpending⟩ := (h.backed ep mode).busy.mp hbusy
      exact absurd hpending (hnone k hk)

theorem of_same (h : StatusInv s) (haccounted : Accounted t) (hentered : t.entered = s.entered)
    (hendpoint : ∀ e, t.endpoint e = s.endpoint e) : StatusInv t where
  accounted := haccounted
  backed e mode := by
    have hqueue : t.queue e mode = s.queue e mode := by
      rw [State.queue, State.queue, State.context, State.context, hendpoint]
    rw [hentered, hqueue, hendpoint]
    exact h.backed e mode

theorem openSocket (h : StatusInv s) {status : EStatus} (hstatus : status.Settled)
    (haccounted : Accounted (s.openSocket status)) : StatusInv (s.openSocket status) where
  accounted := haccounted
  backed e mode := by
    by_cases he : e = s.nextEp
    · have hsocket := (openSocket_socket s status e).trans (if_pos he)
      rw [queue_of_joined hsocket, State.endpoint, hsocket]
      refine .joined hstatus ?_
      intro k hk heq
      exact absurd (h.accounted.entered_owned hk) (by omega)
    · have hsocket := (openSocket_socket s status e).trans (if_neg he)
      rw [queue_of_socket hsocket, State.endpoint, hsocket]
      exact h.backed e mode

theorem submit (h : StatusInv s) {ep : ℕ} {ctx : AsyncContext} (call : AsyncCall)
    (hctx : s.context ep = some ctx) : StatusInv (s.submit ep ctx call) where
  accounted := h.accounted.submit call hctx
  backed e mode := by
    by_cases he : e = ep
    · subst he
      have hstatus : ((s.submit e ctx call).endpoint e).status = (s.endpoint e).status := by
        rw [State.endpoint, State.submit, setContext_socket, if_pos rfl]
      have hbefore := h.backed e mode
      rw [queue_of_context hctx] at hbefore
      rw [queue_of_context (submit_context ..), hstatus, append_queue]
      split
      · next hmode =>
        have hline := (overlapped_key s.nextOp e call).2
        refine hbefore.push ⟨congrArg Prod.fst hline, (congrArg Prod.snd hline).trans hmode⟩ ?_
        cases call <;> rfl
      · exact hbefore
    · have hsocket : (s.submit ep ctx call).socket e = s.socket e :=
        (setContext_socket ..).trans (if_neg he)
      rw [queue_of_socket hsocket, State.endpoint, hsocket]
      exact h.backed e mode

/-- The loops of the ready section keep both sides of the endpoint. -/
theorem performQueues_backed (h : StatusInv s) {ep : ℕ} {ctx : AsyncContext}
    (hctx : s.context ep = some ctx) (results : ℕ → IoResult) :
    Backed .read ep (s.performQueues ep ctx results).rdqueue
        (s.performQueues ep ctx results).progress.ep.status
        (s.entered.map Prod.fst ++ (s.performQueues ep ctx results).progress.completed.map Prod.fst) ∧
      Backed .write ep (s.performQueues ep ctx results).wrqueue
        (s.performQueues ep ctx results).progress.ep.status
        (s.entered.map Prod.fst ++ (s.performQueues ep ctx results).progress.completed.map Prod.fst) := by
  have hread := h.backed ep .read
  have hwrite := h.backed ep .write
  rw [queue_of_context hctx, ← List.append_nil (s.entered.map Prod.fst)] at hread hwrite
  obtain ⟨hrd, hwr⟩ := Backed.performQueue results s.nextEp (p := s.start ep)
    (by decide) hread hwrite
  obtain ⟨hwr', hrd'⟩ := Backed.performQueue results s.nextEp (by decide) hwr hrd
  exact ⟨hrd', hwr'⟩

theorem ready (h : StatusInv s) {ep : ℕ} {ctx : AsyncContext} (hctx : s.context ep = some ctx)
    (results : ℕ → IoResult) : StatusInv (s.ready b ep ctx results) where
  accounted := h.accounted.ready hctx results
  backed e mode := by
    have hentered : (s.ready b ep ctx results).entered.map Prod.fst = s.entered.map Prod.fst ++
        (s.performQueues ep ctx results).progress.completed.map Prod.fst := List.map_append
    have hown : ∀ k ∈ (s.performQueues ep ctx results).progress.completed.map Prod.fst, k.sep = ep := by
      intro k hk
      obtain ⟨c, hc, rfl⟩ := List.mem_map.mp hk
      exact h.accounted.completed_own hctx results c hc
    rw [hentered]
    by_cases he : e = ep
    · subst he
      obtain ⟨hrd, hwr⟩ := h.performQueues_backed hctx results
      rw [queue_of_context ready_context, ready_status]
      cases mode with
      | read => exact hrd
      | write => exact hwr
    · rcases ready_socket_of_ne b s ctx results he with
        heq | ⟨hle, _, a, ha, hjoined⟩
      · rw [queue_of_socket heq, State.endpoint, heq]
        refine (h.backed e mode).enter_elsewhere ?_
        intro k hk hsep
        exact he (hsep.symm.trans (hown k hk))
      · rw [queue_of_joined hjoined, State.endpoint, hjoined]
        refine .joined ha ?_
        intro k hk hsep
        rcases List.mem_append.mp hk with hk | hk
        · exact absurd (h.accounted.entered_owned hk) (by omega)
        · exact he (hsep.symm.trans (hown k hk))

theorem status_handle (s : State n) (evt : Event) (ctx : AsyncContext) :
    ((s.handle .epoll evt ctx).endpoint evt.ep).status = (s.endpoint evt.ep).status := by
  rw [State.endpoint, State.handle, setContext_socket, if_pos rfl]

/-- Without an error an event moves no operation. -/
theorem handle_queue_of_no_error {evt : Event} (ctx : AsyncContext) (herror : evt.error = false) :
    (∀ mode, (ctx.handle .epoll evt).ctx.queue mode = ctx.queue mode) ∧
      (ctx.handle .epoll evt).aborted = [] := by
  simp only [AsyncContext.handle, herror, Bool.false_eq_true, if_false]
  split
  · exact ⟨fun mode => by cases mode <;> rfl, rfl⟩
  · exact ⟨fun mode => by cases mode <;> rfl, rfl⟩

theorem handle_of_error {evt : Event} (ctx : AsyncContext) (herror : evt.error = true) :
    (∀ mode, (ctx.handle .epoll evt).ctx.queue mode = []) ∧
      (ctx.handle .epoll evt).aborted = (ctx.rdqueue ++ ctx.wrqueue).map Overlapped.abort := by
  simp only [AsyncContext.handle, herror, if_true, and_true]
  intro mode
  cases mode <;> rfl

theorem own (h : StatusInv s) {ep : ℕ} {ctx : AsyncContext} (hctx : s.context ep = some ctx) {mode : Mode}
    {o : Overlapped} (ho : o ∈ ctx.queue mode) : o.sep = ep ∧ o.iotype.side = mode := by
  rw [← queue_of_context hctx] at ho
  exact (h.backed ep mode).side o ho

theorem aborted_own (h : StatusInv s) {evt : Event} {ctx : AsyncContext} (hctx : s.context evt.ep = some ctx)
    {k : Overlapped} (hk : k ∈ (ctx.handle .epoll evt).aborted) : k.sep = evt.ep := by
  obtain ⟨rd, wr, haborted, hrd, hwr⟩ := handle_fronts .epoll evt ctx
  rw [haborted] at hk
  obtain ⟨o, ho, rfl⟩ := List.mem_map.mp hk
  rcases List.mem_append.mp ho with ho | ho
  · have hqueue : o ∈ ctx.queue .read := by
      rw [AsyncContext.queue, ← hrd]
      exact List.mem_append_left _ ho
    exact (h.own hctx hqueue).1
  · have hqueue : o ∈ ctx.queue .write := by
      rw [AsyncContext.queue, ← hwr]
      exact List.mem_append_left _ ho
    exact (h.own hctx hqueue).1

/-- The endpoint of the event, whose queues the error branch empties. -/
theorem handle_self (h : StatusInv s) {evt : Event} {ctx : AsyncContext} (hctx : s.context evt.ep = some ctx)
    (hnone : evt.error = true → ∀ mode, ∀ o ∈ ctx.queue mode, ¬ o.Pending mode.handshake) (mode : Mode) :
    Backed mode evt.ep ((ctx.handle .epoll evt).ctx.queue mode) (s.endpoint evt.ep).status
      (s.entered.map Prod.fst ++ (ctx.handle .epoll evt).aborted) := by
  have hbefore := h.backed evt.ep mode
  rw [queue_of_context hctx] at hbefore
  cases herror : evt.error with
  | true =>
    obtain ⟨hempty, haborted⟩ := handle_of_error ctx herror
    have hpending : ∀ own, ∀ o ∈ ctx.queue own, ¬ o.Pending mode.handshake := by
      intro own o ho hp
      obtain rfl : own = mode := by
        rw [← (h.own hctx ho).2, hp.1, handshake_side]
      exact hnone herror own o ho hp
    rw [hempty, haborted]
    refine hbefore.abort (hnone herror mode) ?_
    intro k hk
    obtain ⟨o, ho, rfl⟩ := List.mem_map.mp hk
    rcases List.mem_append.mp ho with ho | ho
    · exact hpending .read o ho
    · exact hpending .write o ho
  | false =>
    obtain ⟨hqueue, haborted⟩ := handle_queue_of_no_error ctx herror
    rw [hqueue, haborted, List.append_nil]
    exact hbefore

/-- An event that aborts no pending handshake. -/
theorem handle (h : StatusInv s) {evt : Event} {ctx : AsyncContext}
    (hctx : s.context evt.ep = some ctx)
    (hnone : evt.error = true → ∀ mode, ∀ o ∈ ctx.queue mode, ¬ o.Pending mode.handshake) :
    StatusInv (s.handle .epoll evt ctx) where
  accounted := h.accounted.handle hctx
  backed e mode := by
    have hentered : (s.handle .epoll evt ctx).entered.map Prod.fst =
        s.entered.map Prod.fst ++ (ctx.handle .epoll evt).aborted := by
      simp only [State.handle, State.setContext, List.map_append, List.map_map]
      exact congrArg _ (List.map_id _)
    rw [hentered]
    by_cases he : e = evt.ep
    · subst he
      rw [status_handle, queue_of_context (handle_context ..)]
      exact h.handle_self hctx hnone mode
    · have hsocket : (s.handle .epoll evt ctx).socket e = s.socket e :=
        (setContext_socket ..).trans (if_neg he)
      rw [queue_of_socket hsocket, State.endpoint, hsocket]
      refine (h.backed e mode).enter_elsewhere ?_
      intro k hk hsep
      exact he (hsep.symm.trans (h.aborted_own hctx hk))

theorem move (h : StatusInv s) {l : Label n} (hl : ¬ l.departs) (hfree : AbortsNoHandshake s l)
    (hmove : Move .epoll s l t) : StatusInv t := by
  have haccounted := h.accounted.move hl hmove
  cases hmove with
  | stutter => exact h
  | nullContext ep call => exact h.of_same haccounted rfl (fun _ => rfl)
  | turn l w pc hturn => exact h.of_same haccounted rfl (fun _ => rfl)
  | waitFails w cnt hpc => exact h.of_same haccounted rfl (fun _ => rfl)
  | join status hstatus => exact h.openSocket hstatus haccounted
  | async ep call ctx hctx => exact h.submit call hctx
  | popCompletion w co rest hpc hlist => exact h.of_same haccounted rfl (fun _ => rfl)
  | popReady w ep rest hpc hlist => exact h.of_same haccounted rfl (fun _ => rfl)
  | ready w results ep cnt ctx hpc hctx =>
    exact (h.ready hctx results).of_same haccounted rfl (fun _ => rfl)
  | wait w evts cnt socket hpc hharvest =>
    exact h.of_same haccounted rfl (fun e => (harvest_socket hharvest e).1)
  | handle w evt rest ctx hpc hctx =>
    simp only [AbortsNoHandshake, hpc] at hfree
    refine (h.handle hctx ?_).of_same haccounted rfl (fun _ => rfl)
    intro herror mode o ho
    rw [← queue_of_context hctx] at ho
    cases mode with
    | read => exact (hfree herror).1 o ho
    | write => exact (hfree herror).2 o ho
  | settle ep success hconn => exact h.of_same haccounted rfl (fun e => setDescriptor_endpoint s ep e _)
  | departKernel => exact absurd trivial hl
  | departNull => exact absurd trivial hl
  | departContext => exact absurd trivial hl

end StatusInv

/-- An error event that meets a pending handshake leaves the endpoint busy with
nothing in its queues. -/
theorem not_statusBacked_of_abort {l : Label n} (h : StatusInv s) (hfree : ¬ AbortsNoHandshake s l)
    (hstep : step .epoll s l = .ok t) : ¬ StatusBacked t := by
  intro hbacked
  cases l with
  | processEvent w =>
    cases hpc : s.worker w with
    | holding null evt rest =>
      simp only [AbortsNoHandshake, hpc, Classical.not_imp] at hfree
      obtain ⟨herror, hfree⟩ := hfree
      have hpending : ∃ mode, ∃ o ∈ s.queue evt.ep mode, o.Pending mode.handshake := by
        by_contra hnone
        refine hfree ⟨fun o ho hp => hnone ⟨.read, o, ho, hp⟩, fun o ho hp => hnone ⟨.write, o, ho, hp⟩⟩
      obtain ⟨mode, hpending⟩ := hpending
      have hbusy := (h.backed evt.ep mode).busy.mpr hpending
      have hw := h.accounted.tracked.workers w
      rw [hpc] at hw
      obtain ⟨rfl, hevents⟩ := hw
      obtain ⟨ctx, hctx⟩ := Option.ne_none_iff_exists'.mp (hevents evt List.mem_cons_self)
      simp only [step, State.processEvent, hpc, hctx, Except.ok.injEq] at hstep
      subst hstep
      obtain ⟨o, ho, _⟩ := hbacked.busy evt.ep mode ((StatusInv.status_handle s evt ctx).trans hbusy)
      have hqueue : ((s.handle .epoll evt ctx).setWorker w (State.afterEvents rest)).queue evt.ep mode =
          (ctx.handle .epoll evt).ctx.queue mode := queue_of_context (handle_context .epoll s evt ctx) mode
      rw [hqueue, (StatusInv.handle_of_error ctx herror).1 mode] at ho
      exact absurd ho List.not_mem_nil
    | _ => exact hfree (by simp only [AbortsNoHandshake, hpc])
  | _ => exact hfree trivial

/-- The status is backed in every state of a run if and only if no error event is
processed while a provisioned handshake waits at its endpoint. -/
theorem statusBacked_iff (n : ℕ) (labels : List (Label n)) (h : ∀ l ∈ labels, ¬ l.departs) :
    Throughout (step .epoll) StatusBacked (State.initial n) labels ↔
      Along (step .epoll) AbortsNoHandshake (State.initial n) labels := by
  refine throughout_iff_along (fun s (hs : StatusInv s) => hs.statusBacked) ?_ ?_ (.initial n)
    (along_of_forall h)
  · intro s l hs hl hfree
    obtain ⟨t, ht⟩ := hs.accounted.tracked.step_ok .epoll l
    exact ⟨t, ht, hs.move hl hfree (step_move ht)⟩
  · intro s l t hs hl hfree hstep
    exact not_statusBacked_of_abort hs hfree hstep

/-- A connect goes in progress, the socket turns writable, and the attempt has failed. -/
def refusedConnectRun : List (Label 1) :=
  [.join .init, .async 0 (.connect 300 7), .popCompletion w₀, .popReady w₀, .getContext w₀,
    .processReady w₀ (fun _ => .failedWith EINPROGRESS), .settle 0 false,
    .wait w₀ (some [⟨0, false, true, false⟩]), .getEventContext w₀, .processEvent w₀, .popCompletion w₀,
    .popReady w₀, .getContext w₀, .processReady w₀ (fun _ => .socketError 111 111), .wait w₀ (some [])]

theorem statusBacked_iff_refusedConnectRun :
    Throughout (step .epoll) StatusBacked (State.initial 1) refusedConnectRun :=
  (statusBacked_iff 1 refusedConnectRun (by decide)).mpr (by decide +kernel)

/-- The failed attempt is reported by an error event instead. -/
def abortedConnectRun : List (Label 1) :=
  [.join .init, .async 0 (.connect 300 7), .popCompletion w₀, .popReady w₀, .getContext w₀,
    .processReady w₀ (fun _ => .failedWith EINPROGRESS), .settle 0 false,
    .wait w₀ (some [⟨0, false, true, true⟩]), .getEventContext w₀, .processEvent w₀]

theorem abortedConnectRun_connecting :
    Returns (final (step .epoll) (State.initial 1) abortedConnectRun) fun s =>
      (s.endpoint 0).status = .connecting ∧ s.queue 0 .write = [] := by
  decide +kernel

theorem abortedConnectRun_not_statusBacked :
    (∀ l ∈ abortedConnectRun, ¬ l.departs) ∧
      ¬ Throughout (step .epoll) StatusBacked (State.initial 1) abortedConnectRun := by
  refine ⟨by decide, ?_⟩
  intro h
  obtain ⟨s, hs, hbacked⟩ := h.final
  obtain ⟨t, ht, hstatus, hqueue⟩ := abortedConnectRun_connecting
  obtain rfl : s = t := Except.ok.inj (hs.symm.trans ht)
  obtain ⟨o, ho, _⟩ := hbacked.busy 0 .write hstatus
  rw [hqueue] at ho
  exact absurd ho List.not_mem_nil

end LibXpf.NetIoMux
