import LibXpf.NetIoMux.StatusMachine

/-! # What a connect reports

A connect whose call is in progress is examined with `getsockopt` each time its
endpoint comes up in the ready list, whether or not the kernel has finished. The
value `0` means that there is no error yet as well as that the connection stands,
and an error is reported as `errno` has it. Reports are right as long as a
connect is examined after the attempt ended, with `errno` set where it failed.
-/
namespace LibXpf.NetIoMux
open GuardedRuns

variable {n : ℕ} {b : Backend} {s t : State n}

/-- What is reported for a connect that completed while its connection was `c.2`. -/
def Truthful (c : Overlapped × Connection) : Prop :=
  c.1.iotype = .connect → (completionError c.1 = .success → c.2 = .established) ∧
    (c.1.provisioned = true → c.2 = .failed → completionError c.1 = .connect)

/-- The operations that entered the completion list are reported truthfully, and a
connected endpoint has a connection. -/
structure ConnectsTruthful (s : State n) : Prop where
  history : s.popped ++ s.mCompletionList = s.entered.map Prod.fst
  reported : ∀ c ∈ s.entered, Truthful c
  connected : ∀ ep, (s.endpoint ep).status = .connected → (s.descriptor ep).connection = .established

section Kernel

/-- What the kernel promises to a connect: the call takes its time, and
`getsockopt` stores `0` until the attempt fails. -/
def ConnectPromise (r : IoResult) (connection : Connection) (o : Overlapped) : Prop :=
  (o.length = 0 → r.ret = none ∧ r.errno = EINPROGRESS) ∧
  (o.length ≠ 0 → r.ret = some 0 ∧
    (connection = .inProgress ∨ connection = .established → r.soError = 0) ∧
    (connection = .failed → r.soError ≠ 0))

instance (r : IoResult) (connection : Connection) (o : Overlapped) :
    Decidable (ConnectPromise r connection o) := inferInstanceAs (Decidable (_ ∧ _))

/-- The runs the reports are about: no endpoint departs, and the kernel keeps its promise. -/
def KernelConnects (s : State n) (l : Label n) : Prop :=
  ¬ l.departs ∧ match l with
    | .processReady w results =>
      match s.worker w with
      | .fetched ep _ => ∀ o ∈ s.queue ep .write, o.iotype = .connect →
        ConnectPromise (results o.id) (s.descriptor ep).connection o
      | _ => True
    | _ => True

instance (s : State n) (l : Label n) : Decidable (KernelConnects s l) :=
  @instDecidableAnd _ _ inferInstance <| match l with
  | .processReady w _ => by
    dsimp only
    exact match s.worker w with
      | .fetched _ _ => inferInstanceAs (Decidable (∀ o ∈ _, _ → _))
      | .idle | .polled | .popped _ _ | .waiting _ | .handling _ | .holding _ _ _ => isTrue trivial
  | .join _ | .async _ _ | .popCompletion _ | .popReady _ | .getContext _ | .wait _ _ | .getEventContext _ |
    .processEvent _ | .settle _ _ | .departKernel _ | .departContext _ => isTrue trivial

/-- A connect in progress is examined once its attempt has ended, with `errno` set
if it failed. -/
def ExaminedInTime (s : State n) : Label n → Prop
  | .processReady w results =>
    match s.worker w with
    | .fetched ep _ => ∀ o ∈ s.queue ep .write, o.Pending .connect →
      (s.descriptor ep).connection ≠ .inProgress ∧
        ((s.descriptor ep).connection = .failed → (results o.id).errno ≠ 0)
    | _ => True
  | _ => True

instance (s : State n) : (l : Label n) → Decidable (ExaminedInTime s l)
  | .processReady w _ => by
    dsimp only [ExaminedInTime]
    exact match s.worker w with
      | .fetched _ _ => inferInstanceAs (Decidable (∀ o ∈ _, _ → _))
      | .idle | .polled | .popped _ _ | .waiting _ | .handling _ | .holding _ _ _ => isTrue trivial
  | .join _ | .async _ _ | .popCompletion _ | .popReady _ | .getContext _ | .wait _ _ | .getEventContext _ |
    .processEvent _ | .settle _ _ | .departKernel _ | .departContext _ => isTrue trivial

end Kernel

section Connect

variable {r : IoResult} (ep : NetEndpoint) {o : Overlapped} {connection : Connection}

theorem completionError_of_pending (h : o.Pending .connect) :
    completionError o = if o.errorcode = 0 then .success else .connect := by
  simp only [completionError, h.1, h.2, Bool.true_eq_false, if_false]

theorem completionError_of_new (hio : o.iotype = .connect) (hnew : o.provisioned = false) :
    completionError o = .invalidOp ∨ completionError o = .resolve := by
  simp only [completionError, hio, hnew, if_true]
  split
  · exact .inl rfl
  · exact .inr rfl

theorem truthful_of_new (hnew : o.provisioned = false) : Truthful (o, connection) := by
  intro hio
  refine ⟨fun hsuccess => ?_, fun hprovisioned => ?_⟩
  · rcases completionError_of_new hio hnew with heq | heq <;> cases heq.symm.trans hsuccess
  · cases hnew.symm.trans hprovisioned

theorem truthful_of_error (herror : o.errorcode ≠ 0) : Truthful (o, connection) := by
  by_cases hprovisioned : o.provisioned = true
  · intro hio
    have hconnect : completionError o = .connect :=
      (completionError_of_pending ⟨hio, hprovisioned⟩).trans (if_neg herror)
    exact ⟨fun hsuccess => absurd (hconnect.symm.trans hsuccess) (by decide), fun _ _ => hconnect⟩
  · exact truthful_of_new (Bool.eq_false_iff.mpr hprovisioned)

/-- A new connect is refused, or its call is in progress. -/
theorem performConnect_new (hnew : o.provisioned = false) (hlength : o.length = 0)
    (hpromise : ConnectPromise r connection o) :
    ((performConnect r ep o).completed = true ∧ (performConnect r ep o).ep = ep ∧
      (performConnect r ep o).op.provisioned = false ∧ (performConnect r ep o).connection = none) ∨
    ((performConnect r ep o).completed = false ∧ (performConnect r ep o).ep.status = .connecting ∧
      (performConnect r ep o).op.provisioned = true ∧ (performConnect r ep o).op.length ≠ 0 ∧
      (performConnect r ep o).connection = some .inProgress) := by
  obtain ⟨hret, herrno⟩ := hpromise.1 hlength
  unfold performConnect
  rw [if_pos hnew]
  dsimp only
  split
  · exact .inl ⟨rfl, rfl, hnew, rfl⟩
  · split
    · exact .inl ⟨rfl, rfl, hnew, rfl⟩
    · simp [connectCall, hlength, hret, herrno]

/-- An examined connect completes, with success if there is no error yet. -/
theorem performConnect_examined (hpending : o.Pending .connect) (hlength : o.length ≠ 0)
    (hpromise : ConnectPromise r connection o) :
    (performConnect r ep o).completed = true ∧ (performConnect r ep o).connection = none ∧
      (performConnect r ep o).op.provisioned = true ∧
      (r.soError = 0 → (performConnect r ep o).op.errorcode = 0 ∧
        (performConnect r ep o).ep.status = .connected) ∧
      (r.soError ≠ 0 → (performConnect r ep o).op.errorcode = r.errno ∧
        (performConnect r ep o).ep.status = .init) := by
  obtain ⟨hret, _⟩ := hpromise.2 hlength
  unfold performConnect connectCall
  rw [if_neg (by rw [hpending.2]; exact Bool.noConfusion), if_neg hlength]
  dsimp only
  by_cases hso : r.soError = 0
  · rw [if_pos ⟨hret, hso⟩]
    exact ⟨rfl, rfl, hpending.2, fun _ => ⟨rfl, rfl⟩, fun hne => absurd hso hne⟩
  · rw [if_neg (fun hboth => hso hboth.2)]
    exact ⟨rfl, rfl, hpending.2, fun heq => absurd heq hso, fun _ => ⟨rfl, rfl⟩⟩

end Connect

/-- What the invariant says of an endpoint: of its write queue, its status and its connection. -/
structure ConnectView (queue : List Overlapped) (status : EStatus) (connection : Connection) : Prop where
  side : ∀ o ∈ queue, o.iotype.side = .write
  new : ∀ o ∈ queue.tail, o.provisioned = false
  uncalled : ∀ o ∈ queue, o.iotype = .connect → o.provisioned = false → o.length = 0
  called : ∀ o ∈ queue, o.Pending .connect → o.length ≠ 0 ∧ connection ≠ .idle
  connected : status = .connected → connection = .established

namespace ConnectView

variable {queue rest : List Overlapped} {o : Overlapped} {status status' : EStatus}
  {connection connection' : Connection}

theorem rest_new (h : ConnectView (o :: rest) status connection) : ∀ k ∈ rest, k.provisioned = false :=
  h.new

theorem leave (h : ConnectView (o :: rest) status connection)
    (hconnected : status' = .connected → connection = .established) :
    ConnectView rest status' connection where
  side k hk := h.side k (List.mem_cons_of_mem o hk)
  new k hk := h.new k (List.mem_of_mem_tail hk)
  uncalled k hk := h.uncalled k (List.mem_cons_of_mem o hk)
  called k hk := h.called k (List.mem_cons_of_mem o hk)
  connected := hconnected

/-- The front is tried and waits on. -/
theorem wait (h : ConnectView (o :: rest) status connection) {op : Overlapped}
    (hside : op.iotype.side = .write) (huncalled : op.iotype = .connect → op.provisioned = false → op.length = 0)
    (hcalled : op.Pending .connect → op.length ≠ 0 ∧ connection' ≠ .idle)
    (hconnected : status' = .connected → connection' = .established) :
    ConnectView (op :: rest) status' connection' where
  side := List.forall_mem_cons.mpr ⟨hside, (List.forall_mem_cons.mp h.side).2⟩
  new := h.new
  uncalled := List.forall_mem_cons.mpr ⟨huncalled, (List.forall_mem_cons.mp h.uncalled).2⟩
  called := by
    refine List.forall_mem_cons.mpr ⟨hcalled, ?_⟩
    intro k hk hpending
    cases (h.rest_new k hk).symm.trans hpending.2
  connected := hconnected

theorem nil (hconnected : status = .connected → connection = .established) :
    ConnectView [] status connection where
  side _ ho := absurd ho List.not_mem_nil
  new _ ho := absurd ho List.not_mem_nil
  uncalled _ ho := absurd ho List.not_mem_nil
  called _ ho := absurd ho List.not_mem_nil
  connected := hconnected

theorem push (h : ConnectView queue status connection) {op : Overlapped} (hside : op.iotype.side = .write)
    (hnew : op.provisioned = false) (hlength : op.iotype = .connect → op.length = 0) :
    ConnectView (queue ++ [op]) status connection where
  side := List.forall_mem_append.mpr ⟨h.side, List.forall_mem_singleton.mpr hside⟩
  new := by
    cases queue with
    | nil => exact fun k hk => absurd hk List.not_mem_nil
    | cons o rest => exact List.forall_mem_append.mpr ⟨h.new, List.forall_mem_singleton.mpr hnew⟩
  uncalled := List.forall_mem_append.mpr
    ⟨h.uncalled, List.forall_mem_singleton.mpr (fun hio _ => hlength hio)⟩
  called := by
    refine List.forall_mem_append.mpr ⟨h.called, List.forall_mem_singleton.mpr ?_⟩
    intro hpending
    cases hnew.symm.trans hpending.2
  connected := h.connected

theorem drop {front : List Overlapped} (h : ConnectView (front ++ rest) status connection) :
    ConnectView rest status connection := by
  induction front with
  | nil => exact h
  | cons o front ih => exact ih (h.leave h.connected)

/-- The kernel ends the attempt. -/
theorem settle (h : ConnectView queue status .inProgress) (hidle : connection ≠ .idle) :
    ConnectView queue status connection where
  side := h.side
  new := h.new
  uncalled := h.uncalled
  called o ho hpending := ⟨(h.called o ho hpending).1, hidle⟩
  connected hstatus := by cases h.connected hstatus

end ConnectView

section Loops

variable {results : ℕ → IoResult} {firstNew : ℕ} {p : Progress} {o : Overlapped}
  {queue rest : List Overlapped} {connection : Connection}

theorem Progress.add_connection_of_none {e : Performed} (h : e.connection = none) :
    (p.add e).connection = p.connection := by
  rw [Progress.add, h]
  rfl

/-- What the loop over a write queue relies on while it runs. -/
structure Examinable (results : ℕ → IoResult) (queue : List Overlapped) (p : Progress) : Prop where
  view : ConnectView queue p.ep.status p.connection
  truthful : ∀ c ∈ p.completed, Truthful c
  promise : ∀ o ∈ queue, o.iotype = .connect → ConnectPromise (results o.id) p.connection o
  in_time : ∀ o ∈ queue, o.Pending .connect →
    p.connection ≠ .inProgress ∧ (p.connection = .failed → (results o.id).errno ≠ 0)

theorem Examinable.leave (h : Examinable results (o :: rest) p) {e : Performed}
    (hdone : e.completed = true) (hconnection : e.connection = none)
    (hstatus : e.ep.status = .connected → p.connection = .established)
    (htruthful : Truthful (e.op, p.connection)) : Examinable results rest (p.add e) where
  view := by
    rw [Progress.add_connection_of_none hconnection]
    exact h.view.leave hstatus
  truthful := by
    rw [Progress.add_completed_of_done hdone, Progress.add_connection_of_none hconnection]
    exact List.forall_mem_append.mpr ⟨h.truthful, List.forall_mem_singleton.mpr htruthful⟩
  promise := by
    rw [Progress.add_connection_of_none hconnection]
    exact fun k hk => h.promise k (List.mem_cons_of_mem o hk)
  in_time := by
    rw [Progress.add_connection_of_none hconnection]
    exact fun k hk => h.in_time k (List.mem_cons_of_mem o hk)

/-- What is relied on after a round: the loop goes on, or the front waits on and the loop is over. -/
structure Tried (results : ℕ → IoResult) (rest : List Overlapped) (p : Progress) (e : Performed) : Prop where
  done : e.completed = true → Examinable results rest (p.add e)
  stop : e.completed = false → ConnectView (e.op :: rest) (p.add e).ep.status (p.add e).connection ∧
    ∀ c ∈ (p.add e).completed, Truthful c

/-- A connect in progress is found as its attempt has ended. -/
theorem Examinable.pending (h : Examinable results (o :: rest) p) (hpending : o.Pending .connect) :
    Tried results rest p (performConnect (results o.id) p.ep o) := by
  have hpromise := h.promise o List.mem_cons_self hpending.1
  obtain ⟨hlength, hidle⟩ := h.view.called o List.mem_cons_self hpending
  obtain ⟨hdone, hconnection, hop, hgood, hfail⟩ := performConnect_examined p.ep hpending hlength hpromise
  obtain ⟨hprogress, herrno⟩ := h.in_time o List.mem_cons_self hpending
  obtain ⟨_, hzero, hnonzero⟩ := hpromise.2 hlength
  refine ⟨fun _ => ?_, fun hstop => by cases hdone.symm.trans hstop⟩
  by_cases hso : (results o.id).soError = 0
  · have hestablished : p.connection = .established := by
      cases hcase : p.connection with
      | idle => exact absurd hcase hidle
      | inProgress => exact absurd hcase hprogress
      | established => rfl
      | failed => exact absurd hso (hnonzero hcase)
    refine h.leave hdone hconnection (fun _ => hestablished) ?_
    rw [hestablished]
    exact fun _ => ⟨fun _ => rfl, fun _ hfailed => by cases hfailed⟩
  · obtain ⟨herror, hstatus⟩ := hfail hso
    have hfailed : p.connection = .failed := by
      cases hcase : p.connection with
      | idle => exact absurd hcase hidle
      | inProgress => exact absurd hcase hprogress
      | established => exact absurd (hzero (.inr hcase)) hso
      | failed => rfl
    refine h.leave hdone hconnection ?_ (truthful_of_error ?_)
    · rw [hstatus]
      exact fun hconnected => by cases hconnected
    · rw [herror]
      exact herrno hfailed

/-- A new connect is refused, or goes in progress. -/
theorem Examinable.new (h : Examinable results (o :: rest) p) (hio : o.iotype = .connect)
    (hnew : o.provisioned = false) : Tried results rest p (performConnect (results o.id) p.ep o) := by
  have hopio : (performConnect (results o.id) p.ep o).op.iotype = .connect :=
    (congrArg (fun k => k.2.2) (performConnect_sound (results o.id) p.ep o).key).trans hio
  have hlength := h.view.uncalled o List.mem_cons_self hio hnew
  rcases performConnect_new p.ep hnew hlength (h.promise o List.mem_cons_self hio) with
    ⟨hdone, hep, hop, hconnection⟩ | ⟨hstop, hstatus, hcalled, hlength', hconnection⟩
  · refine ⟨fun _ => ?_, fun hstop => by cases hdone.symm.trans hstop⟩
    refine h.leave hdone hconnection ?_ (truthful_of_new hop)
    rw [hep]
    exact h.view.connected
  · refine ⟨fun hdone => absurd (hdone.symm.trans hstop) (by decide), fun _ => ⟨?_, ?_⟩⟩
    · have hprogress : (p.add (performConnect (results o.id) p.ep o)).connection = .inProgress := by
        rw [Progress.add, hconnection]
        rfl
      rw [hprogress]
      refine h.view.wait (by rw [hopio]; rfl) ?_ (fun _ => ⟨hlength', by decide⟩) ?_
      · intro _ hop
        cases hcalled.symm.trans hop
      · intro hconnected
        cases hstatus.symm.trans hconnected
    · rw [Progress.add_completed_of_stop hstop]
      exact h.truthful

/-- A `send` or a `sendTo` leaves the connection alone. -/
theorem Examinable.transfer (h : Examinable results (o :: rest) p) (hio : o.iotype ≠ .connect) :
    Tried results rest p (attempt results firstNew o p) := by
  have hside := h.view.side o List.mem_cons_self
  obtain ⟨⟨_, hopside⟩, hopio⟩ := attempt_side results firstNew p (o := o) ⟨rfl, hside⟩
  have hconnection := attempt_connection results firstNew p hio
  have hstatus := attempt_status results firstNew p hside hio
  refine ⟨fun hdone => ?_, fun hstop => ⟨?_, ?_⟩⟩
  · refine h.leave hdone hconnection ?_ (fun hop => absurd (hopio.symm.trans hop) hio)
    rw [hstatus]
    exact h.view.connected
  · rw [Progress.add_connection_of_none hconnection]
    refine h.view.wait hopside (fun hop => absurd (hopio.symm.trans hop) hio)
      (fun hop => absurd (hopio.symm.trans hop.1) hio) ?_
    intro hconnected
    exact h.view.connected (hstatus.symm.trans hconnected)
  · rw [Progress.add_completed_of_stop hstop]
    exact h.truthful

theorem Examinable.attempt (h : Examinable results (o :: rest) p) :
    Tried results rest p (attempt results firstNew o p) := by
  by_cases hio : o.iotype = .connect
  · have hattempt : NetIoMux.attempt results firstNew o p = performConnect (results o.id) p.ep o := by
      simp only [NetIoMux.attempt, performIoLocked, hio]
    rw [hattempt]
    cases hprovisioned : o.provisioned with
    | true => exact h.pending ⟨hio, hprovisioned⟩
    | false => exact h.new hio hprovisioned
  · exact h.transfer hio

theorem Examinable.performQueue (h : Examinable results queue p) :
    ConnectView (performQueue results firstNew queue p).1
        (performQueue results firstNew queue p).2.ep.status
        (performQueue results firstNew queue p).2.connection ∧
      ∀ c ∈ (performQueue results firstNew queue p).2.completed, Truthful c := by
  refine performQueue_rule (M := Examinable results)
    (N := fun l q => ConnectView l q.ep.status q.connection ∧ ∀ c ∈ q.completed, Truthful c) ?_ ?_ ?_ h
  · intro o rest q hq hdone
    exact hq.attempt.done hdone
  · intro o rest q hq hstop
    exact hq.attempt.stop hstop
  · intro q hq
    exact ⟨hq.view, hq.truthful⟩

/-- What the loop over a read queue leaves as it is. -/
structure ReadLoop (start p : Progress) (queue : List Overlapped) : Prop where
  side : ∀ o ∈ queue, o.iotype.side = .read
  connection : p.connection = start.connection
  connected : p.ep.status = .connected → start.ep.status = .connected
  truthful : ∀ c ∈ p.completed, Truthful c

variable (results firstNew)

theorem ReadLoop.attempt {start : Progress} (h : ReadLoop start p (o :: rest)) :
    ReadLoop start (p.add (attempt results firstNew o p)) rest ∧
      ((attempt results firstNew o p).op.iotype.side = .read) := by
  have hside := h.side o List.mem_cons_self
  have hio : o.iotype ≠ .connect := by
    intro heq
    rw [heq] at hside
    cases hside
  obtain ⟨⟨_, hopside⟩, hopio⟩ := attempt_side results firstNew p (o := o) ⟨rfl, hside⟩
  have hconnection := attempt_connection results firstNew p hio
  refine ⟨⟨?_, ?_, ?_, ?_⟩, hopside⟩
  · exact fun k hk => h.side k (List.mem_cons_of_mem o hk)
  · rw [Progress.add_connection_of_none hconnection]
    exact h.connection
  · intro hconnected
    apply h.connected
    by_cases haccept : o.iotype = Mode.read.handshake
    · cases attempt_outcome results firstNew p haccept with
      | refused _ _ hep _ => exact (congrArg NetEndpoint.status hep).symm.trans hconnected
      | finished _ _ _ hstatus =>
        rcases hstatus with heq | ⟨heq, _⟩ <;> cases heq.symm.trans hconnected
      | blocked _ _ _ hstatus => cases hstatus.symm.trans hconnected
    · exact (attempt_status results firstNew p hside haccept).symm.trans hconnected
  · cases hcase : (NetIoMux.attempt results firstNew o p).completed with
    | true =>
      rw [Progress.add_completed_of_done hcase]
      refine List.forall_mem_append.mpr ⟨h.truthful, List.forall_mem_singleton.mpr ?_⟩
      exact fun hop => absurd (hopio.symm.trans hop) hio
    | false =>
      rw [Progress.add_completed_of_stop hcase]
      exact h.truthful

theorem ReadLoop.performQueue {start : Progress} (h : ReadLoop start p queue) :
    ReadLoop start (performQueue results firstNew queue p).2 (performQueue results firstNew queue p).1 := by
  refine performQueue_rule (M := fun l q => ReadLoop start q l) (N := fun l q => ReadLoop start q l) ?_ ?_
    (fun _ hq => hq) h
  · intro o rest q hq _
    exact (hq.attempt results firstNew).1
  · intro o rest q hq _
    obtain ⟨hloop, hside⟩ := hq.attempt results firstNew
    exact ⟨List.forall_mem_cons.mpr ⟨hside, hloop.side⟩, hloop.connection, hloop.connected, hloop.truthful⟩

end Loops

/-- The invariant. -/
structure ConnectInv (s : State n) : Prop where
  accounted : Accounted s
  view : ∀ ep, ConnectView (s.queue ep .write) (s.endpoint ep).status (s.descriptor ep).connection
  truthful : ∀ c ∈ s.entered, Truthful c

namespace ConnectInv

theorem initial (n : ℕ) : ConnectInv (State.initial n) where
  accounted := .initial n
  view ep := {
    side := fun o ho => absurd ho List.not_mem_nil
    new := fun o ho => absurd ho List.not_mem_nil
    uncalled := fun o ho => absurd ho List.not_mem_nil
    called := fun o ho => absurd ho List.not_mem_nil
    connected := fun h => by cases h }
  truthful c hc := absurd hc List.not_mem_nil

theorem connectsTruthful (h : ConnectInv s) : ConnectsTruthful s where
  history := h.accounted.history
  reported := h.truthful
  connected ep := (h.view ep).connected

theorem of_same (h : ConnectInv s) (haccounted : Accounted t) (hentered : t.entered = s.entered)
    (hendpoint : ∀ e, t.endpoint e = s.endpoint e)
    (hconnection : ∀ e, (t.descriptor e).connection = (s.descriptor e).connection) : ConnectInv t where
  accounted := haccounted
  view e := by
    have hqueue : t.queue e .write = s.queue e .write := by
      rw [State.queue, State.queue, State.context, State.context, hendpoint]
    rw [hqueue, hendpoint, hconnection]
    exact h.view e
  truthful := by
    rw [hentered]
    exact h.truthful

theorem joined_view {e : ℕ} {a : NetEndpoint} (h : s.socket e = Socket.joined a) :
    ConnectView (s.queue e .write) (s.endpoint e).status (s.descriptor e).connection := by
  rw [queue_of_joined h, State.endpoint, State.descriptor, h]
  exact .nil (fun hstatus => if_pos hstatus)

theorem socket_view (h : ConnectInv s) {e : ℕ} (hsocket : t.socket e = s.socket e) :
    ConnectView (t.queue e .write) (t.endpoint e).status (t.descriptor e).connection := by
  rw [queue_of_socket hsocket, State.endpoint, State.descriptor, hsocket]
  exact h.view e

theorem openSocket (h : ConnectInv s) {status : EStatus}
    (haccounted : Accounted (s.openSocket status)) : ConnectInv (s.openSocket status) where
  accounted := haccounted
  view e := by
    by_cases he : e = s.nextEp
    · exact joined_view ((openSocket_socket s status e).trans (if_pos he))
    · exact h.socket_view ((openSocket_socket s status e).trans (if_neg he))
  truthful := h.truthful

theorem submit (h : ConnectInv s) {ep : ℕ} {ctx : AsyncContext} (call : AsyncCall)
    (hctx : s.context ep = some ctx) : ConnectInv (s.submit ep ctx call) where
  accounted := h.accounted.submit call hctx
  view e := by
    by_cases he : e = ep
    · subst he
      have hsocket : (s.submit e ctx call).socket e = _ := (setContext_socket ..).trans (if_pos rfl)
      have hbefore := h.view e
      rw [queue_of_context hctx] at hbefore
      rw [queue_of_context (submit_context ..), append_queue, State.endpoint, State.descriptor, hsocket]
      split
      · next hmode =>
        have hline := (overlapped_key s.nextOp e call).2
        refine hbefore.push ((congrArg Prod.snd hline).trans hmode) ?_ ?_
        · cases call <;> rfl
        · cases call with
          | connect hostInfo cb => exact fun _ => rfl
          | _ => exact fun hio => by cases hio
      · exact hbefore
    · exact h.socket_view ((setContext_socket ..).trans (if_neg he))
  truthful := h.truthful

theorem handle (h : ConnectInv s) {evt : Event} {ctx : AsyncContext}
    (hctx : s.context evt.ep = some ctx) : ConnectInv (s.handle b evt ctx) where
  accounted := h.accounted.handle hctx
  view e := by
    by_cases he : e = evt.ep
    · subst he
      have hsocket : (s.handle b evt ctx).socket evt.ep = _ := (setContext_socket ..).trans (if_pos rfl)
      obtain ⟨rd, wr, _, _, hwr⟩ := handle_fronts b evt ctx
      have hbefore := h.view evt.ep
      rw [queue_of_context hctx, AsyncContext.queue, ← hwr] at hbefore
      rw [queue_of_context (handle_context ..), State.endpoint, State.descriptor, hsocket]
      exact hbefore.drop
    · exact h.socket_view ((setContext_socket ..).trans (if_neg he))
  truthful := by
    intro c hc
    rcases List.mem_append.mp hc with hc | hc
    · exact h.truthful c hc
    · obtain ⟨o, ho, rfl⟩ := List.mem_map.mp hc
      obtain ⟨rd, wr, haborted, _, _⟩ := handle_fronts b evt ctx
      rw [haborted] at ho
      obtain ⟨k, _, rfl⟩ := List.mem_map.mp ho
      have hcode : ECONNABORTED ≠ 0 := by decide
      exact truthful_of_error hcode

theorem arm_connection (b : Backend) (rd wr : Bool) (d : Descriptor) :
    (d.arm b rd wr).connection = d.connection := by
  cases b with
  | epoll =>
    rw [Descriptor.arm]
    split <;> rfl
  | kqueue => rfl

/-- The loop over the read queue leaves the connection alone. -/
theorem readLoop (h : ConnectInv s) {ep : ℕ} {ctx : AsyncContext} (hctx : s.context ep = some ctx)
    (results : ℕ → IoResult) :
    ReadLoop (s.start ep) (performQueue results s.nextEp ctx.rdqueue (s.start ep)).2
      (performQueue results s.nextEp ctx.rdqueue (s.start ep)).1 := by
  refine ReadLoop.performQueue results s.nextEp ⟨?_, rfl, id, fun c hc => absurd hc List.not_mem_nil⟩
  intro o ho
  have hqueue : o ∈ s.queue ep .read := by
    rw [queue_of_context hctx]
    exact ho
  exact (h.accounted.queue_own hqueue).2.2

/-- The loops of the ready section report truthfully. -/
theorem performQueues_view (h : ConnectInv s) {ep : ℕ} {ctx : AsyncContext} {results : ℕ → IoResult}
    (hctx : s.context ep = some ctx)
    (hpromise : ∀ o ∈ ctx.wrqueue, o.iotype = .connect →
      ConnectPromise (results o.id) (s.descriptor ep).connection o)
    (hintime : ∀ o ∈ ctx.wrqueue, o.Pending .connect →
      (s.descriptor ep).connection ≠ .inProgress ∧
        ((s.descriptor ep).connection = .failed → (results o.id).errno ≠ 0)) :
    ConnectView (s.performQueues ep ctx results).wrqueue
        (s.performQueues ep ctx results).progress.ep.status
        (s.performQueues ep ctx results).progress.connection ∧
      ∀ c ∈ (s.performQueues ep ctx results).progress.completed, Truthful c := by
  have hread := h.readLoop hctx results
  have hview := h.view ep
  rw [queue_of_context hctx] at hview
  refine Examinable.performQueue (p := (performQueue results s.nextEp ctx.rdqueue (s.start ep)).2)
    ⟨?_, ?_, ?_, ?_⟩
  · rw [hread.connection]
    exact ⟨hview.side, hview.new, hview.uncalled, hview.called, fun hc => hview.connected (hread.connected hc)⟩
  · exact hread.truthful
  · rw [hread.connection]
    exact hpromise
  · rw [hread.connection]
    exact hintime

theorem ready (h : ConnectInv s) {ep : ℕ} {ctx : AsyncContext} {results : ℕ → IoResult}
    (hctx : s.context ep = some ctx)
    (hview : ConnectView (s.performQueues ep ctx results).wrqueue
      (s.performQueues ep ctx results).progress.ep.status
      (s.performQueues ep ctx results).progress.connection)
    (htruthful : ∀ c ∈ (s.performQueues ep ctx results).progress.completed, Truthful c) :
    ConnectInv (s.ready b ep ctx results) where
  accounted := h.accounted.ready hctx results
  view e := by
    by_cases he : e = ep
    · subst he
      rw [queue_of_context ready_context, ready_status, ready_descriptor, arm_connection]
      exact hview
    · rcases ready_socket_of_ne b s ctx results he with
        heq | ⟨_, _, a, _, hjoined⟩
      · exact h.socket_view heq
      · exact joined_view hjoined
  truthful := List.forall_mem_append.mpr ⟨h.truthful, htruthful⟩

theorem move (h : ConnectInv s) {l : Label n} (hl : KernelConnects s l) (hfree : ExaminedInTime s l)
    (hmove : Move b s l t) : ConnectInv t := by
  have haccounted := h.accounted.move hl.1 hmove
  cases hmove with
  | stutter => exact h
  | nullContext ep call => exact h.of_same haccounted rfl (fun _ => rfl) (fun _ => rfl)
  | turn l w pc hturn => exact h.of_same haccounted rfl (fun _ => rfl) (fun _ => rfl)
  | waitFails w cnt hpc => exact h.of_same haccounted rfl (fun _ => rfl) (fun _ => rfl)
  | join status hstatus => exact h.openSocket haccounted
  | async ep call ctx hctx => exact h.submit call hctx
  | popCompletion w co rest hpc hlist => exact h.of_same haccounted rfl (fun _ => rfl) (fun _ => rfl)
  | popReady w ep rest hpc hlist => exact h.of_same haccounted rfl (fun _ => rfl) (fun _ => rfl)
  | ready w results ep cnt ctx hpc hctx =>
    obtain ⟨_, hpromise⟩ := hl
    simp only [hpc] at hpromise
    simp only [ExaminedInTime, hpc] at hfree
    rw [queue_of_context hctx] at hpromise hfree
    obtain ⟨hview, htruthful⟩ := h.performQueues_view hctx hpromise hfree
    exact (h.ready hctx hview htruthful).of_same haccounted rfl (fun _ => rfl) (fun _ => rfl)
  | wait w evts cnt socket hpc hharvest =>
    exact h.of_same haccounted rfl (fun e => (harvest_socket hharvest e).1)
      (fun e => (harvest_socket hharvest e).2.1)
  | handle w evt rest ctx hpc hctx =>
    exact (h.handle hctx).of_same haccounted rfl (fun _ => rfl) (fun _ => rfl)
  | settle ep success hconn =>
    refine ⟨haccounted, ?_, h.truthful⟩
    intro e
    have hqueue : (s.setDescriptor ep { s.descriptor ep with
        connection := if success then .established else .failed }).queue e .write = s.queue e .write := by
      rw [State.queue, State.context, setDescriptor_endpoint, State.queue, State.context]
    rw [hqueue, setDescriptor_endpoint, State.descriptor, setDescriptor_socket]
    split
    · next he =>
      have hview := h.view e
      rw [he, hconn] at hview
      rw [he]
      refine hview.settle ?_
      intro hidle
      cases success <;> cases hidle
    · exact h.view e
  | departKernel => exact absurd trivial hl.1
  | departNull => exact absurd trivial hl.1
  | departContext => exact absurd trivial hl.1

end ConnectInv

/-- A connect that is examined too early, or failed with `errno` zero, is reported
as a success. -/
theorem examined_misreported {results : ℕ → IoResult} (firstNew : ℕ) {o : Overlapped}
    (rest : List Overlapped) {p : Progress} (hpending : o.Pending .connect) (hlength : o.length ≠ 0)
    (hpromise : ConnectPromise (results o.id) p.connection o)
    (hearly : p.connection = .inProgress ∨ p.connection = .failed ∧ (results o.id).errno = 0) :
    ∃ c ∈ (performQueue results firstNew (o :: rest) p).2.completed, ¬ Truthful c := by
  have hattempt : attempt results firstNew o p = performConnect (results o.id) p.ep o := by
    simp only [attempt, performIoLocked, hpending.1]
  obtain ⟨hdone, hconnection, hop, hgood, hfail⟩ :=
    performConnect_examined p.ep hpending hlength hpromise
  obtain ⟨_, hzero, hnonzero⟩ := hpromise.2 hlength
  have herror : (performConnect (results o.id) p.ep o).op.errorcode = 0 := by
    rcases hearly with hprogress | ⟨hfailed, herrno⟩
    · exact (hgood (hzero (.inl hprogress))).1
    · exact (hfail (hnonzero hfailed)).1.trans herrno
  have hio : (performConnect (results o.id) p.ep o).op.iotype = .connect :=
    (congrArg (fun k => k.2.2) (performConnect_sound (results o.id) p.ep o).key).trans
      hpending.1
  rw [← hattempt] at hdone hconnection herror hop hio
  obtain ⟨moved, hmoved, _⟩ := performQueue_keys results firstNew rest
    (p.add (attempt results firstNew o p))
  refine ⟨((attempt results firstNew o p).op, p.connection), ?_, ?_⟩
  · rw [performQueue_done rest hdone, hmoved, Progress.add_completed_of_done hdone,
      Progress.add_connection_of_none hconnection]
    simp only [List.mem_append, List.mem_singleton, or_true, true_or]
  · intro htruthful
    have hsuccess : completionError (attempt results firstNew o p).op = .success :=
      (completionError_of_pending ⟨hio, hop⟩).trans (if_pos herror)
    have hestablished : p.connection = .established := (htruthful hio).1 hsuccess
    rcases hearly with heq | ⟨heq, _⟩ <;> cases heq.symm.trans hestablished

theorem not_connectsTruthful_of_early {l : Label n} (h : ConnectInv s) (hl : KernelConnects s l)
    (hfree : ¬ ExaminedInTime s l) (hstep : step b s l = .ok t) : ¬ ConnectsTruthful t := by
  intro htruthful
  cases l with
  | processReady w results =>
    cases hpc : s.worker w with
    | fetched ep cnt =>
      have hw := h.accounted.tracked.workers w
      rw [hpc] at hw
      obtain ⟨ctx, hctx⟩ := Option.ne_none_iff_exists'.mp hw
      obtain ⟨_, hpromise⟩ := hl
      simp only [hpc] at hpromise
      simp only [ExaminedInTime, hpc] at hfree
      have hview := h.view ep
      rw [queue_of_context hctx, AsyncContext.queue] at hpromise hfree hview
      simp only [not_forall, not_and_or, ne_eq, not_not] at hfree
      obtain ⟨o, ho, hpending, hearly⟩ := hfree
      rw [exists_prop] at hearly
      simp only [step, State.processReady, hpc, hctx, Except.ok.injEq] at hstep
      subst hstep
      -- only the front of the queue can be provisioned
      cases hqueue : ctx.wrqueue with
      | nil =>
        rw [hqueue] at ho
        exact absurd ho List.not_mem_nil
      | cons front rest =>
        rw [hqueue] at ho hview hpromise
        obtain rfl : o = front := by
          rcases List.mem_cons.mp ho with heq | hrest
          · exact heq
          · cases (hview.rest_new o hrest).symm.trans hpending.2
        have hread := h.readLoop hctx results
        obtain ⟨c, hc, hnot⟩ := examined_misreported s.nextEp rest hpending
          (hview.called o List.mem_cons_self hpending).1
          (by rw [hread.connection]; exact hpromise o List.mem_cons_self hpending.1)
          (by rw [hread.connection]; exact hearly)
        refine hnot (htruthful.reported c ?_)
        refine List.mem_append_right _ ?_
        simp only [State.performQueues, hqueue]
        exact hc
    | _ => exact hfree (by simp only [ExaminedInTime, hpc])
  | _ => exact hfree trivial

/-- Reports and statuses are right in every state of a run if and only if each
connect in progress is examined in time. -/
theorem connectsTruthful_iff (b : Backend) (n : ℕ) (labels : List (Label n))
    (h : Along (step b) KernelConnects (State.initial n) labels) :
    Throughout (step b) ConnectsTruthful (State.initial n) labels ↔
      Along (step b) ExaminedInTime (State.initial n) labels := by
  refine throughout_iff_along (fun s (hs : ConnectInv s) => hs.connectsTruthful) ?_ ?_ (.initial n) h
  · intro s l hs hl hfree
    obtain ⟨t, ht⟩ := hs.accounted.tracked.step_ok b l
    exact ⟨t, ht, hs.move hl hfree (step_move ht)⟩
  · intro s l t hs hl hfree hstep
    exact not_connectsTruthful_of_early hs hl hfree hstep

theorem connectsTruthful_iff_refusedConnectRun :
    Throughout (step .epoll) ConnectsTruthful (State.initial 1) refusedConnectRun :=
  (connectsTruthful_iff .epoll 1 refusedConnectRun (by decide +kernel)).mpr (by decide +kernel)

/-- A `send` is submitted behind the connect that is in progress. -/
def earlyConnectRun : List (Label 1) :=
  [.join .init, .async 0 (.connect 300 7), .popCompletion w₀, .popReady w₀, .getContext w₀,
    .processReady w₀ (fun _ => .failedWith EINPROGRESS), .wait w₀ (some []), .async 0 (.send 200 8 7),
    .popCompletion w₀, .popReady w₀, .getContext w₀,
    .processReady w₀ (fun id => if id = 0 then .socketError 0 EINPROGRESS else .wouldBlock)]

theorem earlyConnectRun_connected :
    Returns (final (step .epoll) (State.initial 1) earlyConnectRun) fun s =>
      (s.endpoint 0).status = .connected ∧ (s.descriptor 0).connection = .inProgress ∧ s.failed = [] := by
  decide +kernel

theorem earlyConnectRun_not_truthful :
    Along (step .epoll) KernelConnects (State.initial 1) earlyConnectRun ∧
      ¬ Throughout (step .epoll) ConnectsTruthful (State.initial 1) earlyConnectRun := by
  refine ⟨by decide +kernel, ?_⟩
  intro h
  obtain ⟨s, hs, htruthful⟩ := h.final
  obtain ⟨t, ht, hstatus, hconnection, _⟩ := earlyConnectRun_connected
  obtain rfl : s = t := Except.ok.inj (hs.symm.trans ht)
  cases hconnection.symm.trans (htruthful.connected 0 hstatus)

end LibXpf.NetIoMux
