import LibXpf.NetIoMux.IocpFaults

/-! # An uninterrupted call of `runOnce`

In every state that a run reaches, the steps one worker takes while nobody else takes
any end in the state that the function `runOnce` computes for the first packet. The
status, the record, the actions and the failed assertions are the function's, the
endpoint of an accepted socket joins, and all else is as it was. Such a turn faults
exactly where the overlapped call goes through the context of an endpoint that has
departed. So what is known of the function holds of the machine wherever calls do
not interleave.
-/
namespace LibXpf.NetIoMux.Iocp
open GuardedRuns

variable {n : ℕ} {s : State n} {w : Fin n} {p : Packet} {o : NetIoMuxOverlapped} {c : Winsock}
  {ep : Endpoint} {bytes : ℕ}

section Switch

/-- What the switch does with a record that was not fired, once it is prepared. -/
def Prepared.switched (ep : Endpoint) (o : NetIoMuxOverlapped) (c : Winsock) : Prepared → Switched
  | .refused ec tepOrPeer buf failed => refuse ep o ec tepOrPeer buf failed
  | .ready pending =>
    launch c { ep with status := pending.getD ep.status }
      { ep with status := (failingStatus o.ioType).getD ep.status } o (failingError o.ioType)
      (failingPeer o.ioType) (failingBuf o) []
  | .unrecognized =>
    { ep := ep, actions := [], deleteOverlapped := true, failed := ["Unrecognized EIoType."] }

theorem transfer_fresh (c : Winsock) (bytes : ℕ) (ep : Endpoint) (completed : TepOrPeer) (hfresh : o.fired = false)
    (hstatus : failingStatus o.ioType = none) (hbuf : failingBuf o = o.buf) :
    transfer c bytes ep o (failingError o.ioType) (failingPeer o.ioType) completed =
      (prepareTransfer ep.status (failingPeer o.ioType) o).switched ep o c := by
  rw [transfer, if_pos hfresh, prepareTransfer]
  split
  · rfl
  · rw [Prepared.switched, hstatus, hbuf]
    rfl

theorem switch_fresh (hfresh : o.fired = false) :
    switch c bytes ep o = (prepare c ep.status ep.hasContext o).switched ep o c := by
  cases hio : o.ioType with
  | invalid => simp only [switch, prepare, hio, Prepared.switched]
  | accept =>
    simp only [switch, prepare, hio, accept, if_pos hfresh]
    repeat' split
    all_goals simp only [Prepared.switched, hio, failingStatus, failingError, failingPeer, failingBuf,
      Option.getD_some]
  | connect =>
    simp only [switch, prepare, hio, connect, if_pos hfresh]
    repeat' split
    all_goals simp only [Prepared.switched, hio, failingStatus, failingError, failingPeer, failingBuf,
      Option.getD_some]
  | recv =>
    have htransfer := transfer_fresh c bytes ep .null hfresh
      (by rw [hio]; rfl) (by rw [failingBuf, hio])
    simp only [switch, prepare, hio, recv] at htransfer ⊢
    exact htransfer
  | recvFrom =>
    have htransfer := transfer_fresh c bytes ep .peerData hfresh
      (by rw [hio]; rfl) (by rw [failingBuf, hio])
    simp only [switch, prepare, hio, recvFrom] at htransfer ⊢
    exact htransfer
  | send =>
    have htransfer := transfer_fresh c bytes ep .null hfresh
      (by rw [hio]; rfl) (by rw [failingBuf, hio])
    simp only [switch, prepare, hio, send] at htransfer ⊢
    exact htransfer
  | sendTo =>
    have htransfer := transfer_fresh c bytes ep .peerData hfresh
      (by rw [hio]; rfl) (by rw [failingBuf, hio])
    simp only [switch, prepare, hio, sendTo] at htransfer ⊢
    exact htransfer

theorem switch_fired (hfired : o.fired = true) (hio : o.ioType ≠ .invalid) :
    switch c bytes ep o =
      { ep := { ep with status := (endStatus c.overlappedResult o.ioType).getD ep.status }
        actions := [endReport c.overlappedResult bytes o]
        deleteOverlapped := true
        failed := endMessages c ep.status c.overlappedResult o } := by
  have hfresh : o.fired ≠ false := by
    rw [hfired]
    exact Bool.true_eq_false_eq_False
  cases htype : o.ioType with
  | invalid => exact absurd htype hio
  | accept =>
    simp only [switch, htype, accept, if_neg hfresh, endReport, endStatus, endMessages]
    cases c.overlappedResult with
    | none => simp [refuse, failingError]
    | some b => simp
  | connect =>
    simp only [switch, htype, connect, if_neg hfresh, endReport, endStatus, endMessages]
    cases c.overlappedResult with
    | none => simp [refuse, failingError]
    | some b => simp
  | _ =>
    simp only [switch, htype, recv, recvFrom, send, sendTo, transfer, if_neg hfresh, endReport, endStatus,
      endMessages, failingError, Option.getD_none]

end Switch

section Outcome

/-- The steps of one call of `runOnce`. Those that its course leaves out stutter. -/
def turn (w : Fin n) (c : Winsock) (provisioning handle : Bool) : List (Label n) :=
  [.dequeue w, .observe w c.overlappedResult, .act w c provisioning handle, .launch w c, .reject w,
    .recycle w]

/-- The state once a call of `runOnce` has taken `p` from the port and returned `r`. -/
def State.ran (s : State n) (p : Packet) (rest : List Packet) (o : NetIoMuxOverlapped) (c : Winsock) (r : Ran) :
    State n :=
  { s with
    port := rest
    socket := Function.update s.socket p.key { s.socket p.key with status := r.ep.status }
    record := Function.update s.record p.odata
      (if .recycle ∈ r.actions then none else if .submit true ∈ r.actions then some (o.fire c) else some o)
    host :=
      if p.ret = true ∧ o.fired = false ∧
          Resolves (s.socket p.key).status (s.socket p.key).endpoint.hasContext o then
        Function.update s.host p.odata false
      else s.host
    kernel := if .submit true ∈ r.actions then s.kernel ++ [(p.key, p.odata)] else s.kernel
    lost := if p.ret then s.lost else s.lost ++ [p.odata]
    log := s.log ++ r.actions.map (Entry.mk p.odata p.key)
    failed := s.failed ++ r.failed }

/-- The endpoint of an accepted socket is created and joins. -/
def State.welcome (s : State n) (provisioning handle : Bool) : State n :=
  (s.create (if provisioning then .connected else .invalid)).join s.nextEp handle

/-- The packet tells that the kernel has accepted a connection. -/
def Packet.Accepts (p : Packet) (o : NetIoMuxOverlapped) (c : Winsock) : Prop :=
  p.ret = true ∧ o.fired = true ∧ Iocp.Accepts c.overlappedResult o

instance (p : Packet) (o : NetIoMuxOverlapped) (c : Winsock) : Decidable (p.Accepts o c) :=
  inferInstanceAs (Decidable (_ ∧ _))

/-- The call makes the overlapped call, through the context of an endpoint that has departed. -/
def State.CallsDeparted (s : State n) (p : Packet) (o : NetIoMuxOverlapped) (r : Ran) : Prop :=
  (.submit true ∈ r.actions ∨ .submit false ∈ r.actions) ∧ throughContext o.ioType = true ∧
    (s.socket p.key).context = .deleted

instance (s : State n) (p : Packet) (o : NetIoMuxOverlapped) (r : Ran) : Decidable (s.CallsDeparted p o r) :=
  inferInstanceAs (Decidable (_ ∧ _))

/-- What the machine has come to when a call of `runOnce` returned `r`. -/
def State.outcome (s : State n) (p : Packet) (rest : List Packet) (o : NetIoMuxOverlapped) (c : Winsock)
    (provisioning handle : Bool) (r : Ran) : Except Fault (State n) :=
  if s.CallsDeparted p o r then .error .useAfterFree
  else if p.Accepts o c then .ok ((s.ran p rest o c r).welcome provisioning handle)
  else .ok (s.ran p rest o c r)

end Outcome

section Steps

variable {key odata : ℕ} {result : Option ℕ} {st : EStatus} {provisioning handle : Bool}

@[simp] theorem setWorker_self (s : State n) (w : Fin n) (pc : Pc) : (s.setWorker w pc).worker w = pc :=
  Function.update_self ..

@[simp] theorem setWorker_setWorker (s : State n) (w : Fin n) (pc pc' : Pc) :
    (s.setWorker w pc).setWorker w pc' = s.setWorker w pc' := by
  simp only [State.setWorker, Function.update_idem]

@[simp] theorem setRecord_self (s : State n) (odata : ℕ) (o : Option NetIoMuxOverlapped) :
    (s.setRecord odata o).record odata = o := Function.update_self ..

theorem observe_eq (h : s.worker w = .dequeued p) (ho : s.record p.odata = some o) :
    step s (.observe w result) =
      .ok (s.setWorker w (.observed p (s.socket p.key).status (if o.fired then result else none))) := by
  simp only [step, State.observe, h, ho]

theorem act_fired (h : s.worker w = .observed p st result) (ho : s.record p.odata = some o)
    (hfired : o.fired = true) (hio : o.ioType ≠ .invalid) :
    step s (.act w c provisioning handle) = .ok (s.conclude w p st result o c provisioning handle) := by
  simp only [step, State.act, h, ho, if_pos (And.intro hfired hio)]

theorem act_fresh (h : s.worker w = .observed p st result) (ho : s.record p.odata = some o)
    (hfresh : o.fired = false) (hhost : o.ioType = .connect → s.host p.odata = true) :
    step s (.act w c provisioning handle) = .ok ((s.freed p st o).initiate w p st o c) := by
  have hnot : ¬ (o.fired = true ∧ o.ioType ≠ .invalid) := by
    rw [hfresh]
    exact fun hand => Bool.false_ne_true hand.1
  have hallocated : ¬ (Resolves st (s.socket p.key).endpoint.hasContext o ∧ s.host p.odata = false) := by
    rintro ⟨hresolves, hfreed⟩
    cases (hhost hresolves.1).symm.trans hfreed
  simp only [step, State.act, h, ho, if_neg hnot, if_neg hallocated]

theorem launch_accepted (h : s.worker w = .launching key odata) (ho : s.record odata = some o)
    (hpointer : s.pointer key o.ioType = .ok ()) (hcall : c.immediate = true ∨ c.lastError = ERROR_IO_PENDING) :
    step s (.launch w c) =
      .ok (((s.toKernel key odata).logged key odata (.submit true)).setWorker w .idle) := by
  simp only [step, State.launch, h, ho, hpointer, if_pos hcall]

theorem launch_rejected (h : s.worker w = .launching key odata) (ho : s.record odata = some o)
    (hpointer : s.pointer key o.ioType = .ok ())
    (hcall : ¬ (c.immediate = true ∨ c.lastError = ERROR_IO_PENDING)) :
    step s (.launch w c) =
      .ok ((s.logged key odata (.submit false)).setWorker w (.rejected key odata)) := by
  simp only [step, State.launch, h, ho, hpointer, if_neg hcall]

theorem reject_eq (h : s.worker w = .rejected key odata) (ho : s.record odata = some o) :
    step s (.reject w) = .ok (((s.writeStatus key (failingStatus o.ioType)).logged key odata
      (o.report (failingError o.ioType) (failingPeer o.ioType) (failingBuf o) 0)).setWorker w
        (.reported key odata)) := by
  simp only [step, State.reject, h, ho]

theorem recycle_eq (h : s.worker w = .reported key odata) (ho : s.record odata = some o) :
    step s (.recycle w) =
      .ok (((s.setRecord odata none).logged key odata .recycle).setWorker w .idle) := by
  simp only [step, State.recycle, h, ho]

/-- A worker that has reported only recycles. -/
theorem final_reported (h : s.worker w = .reported key odata) (ho : s.record odata = some o) :
    final step s [.launch w c, .reject w, .recycle w] =
      .ok (((s.setRecord odata none).logged key odata .recycle).setWorker w .idle) := by
  have hlaunch : step s (.launch w c) = .ok s := by simp only [step, State.launch, h]
  have hreject : step s (.reject w) = .ok s := by simp only [step, State.reject, h]
  rw [final_cons hlaunch, final_cons hreject, final_cons (recycle_eq h ho)]
  rfl

theorem final_accepted (h : s.worker w = .launching key odata) (ho : s.record odata = some o)
    (hpointer : s.pointer key o.ioType = .ok ()) (hcall : c.immediate = true ∨ c.lastError = ERROR_IO_PENDING) :
    final step s [.launch w c, .reject w, .recycle w] =
      .ok (((s.toKernel key odata).logged key odata (.submit true)).setWorker w .idle) := by
  rw [final_cons (launch_accepted h ho hpointer hcall)]
  simp only [final, step, State.reject, State.recycle, setWorker_self]

theorem final_refused (h : s.worker w = .launching key odata) (ho : s.record odata = some o)
    (hpointer : s.pointer key o.ioType = .ok ())
    (hcall : ¬ (c.immediate = true ∨ c.lastError = ERROR_IO_PENDING)) :
    final step s [.launch w c, .reject w, .recycle w] =
      .ok ((((((s.logged key odata (.submit false)).writeStatus key (failingStatus o.ioType)).logged key odata
        (o.report (failingError o.ioType) (failingPeer o.ioType) (failingBuf o) 0)).setRecord odata none).logged
          key odata .recycle).setWorker w .idle) := by
  let u := (s.logged key odata (.submit false)).setWorker w (.rejected key odata)
  let v := ((u.writeStatus key (failingStatus o.ioType)).logged key odata
    (o.report (failingError o.ioType) (failingPeer o.ioType) (failingBuf o) 0)).setWorker w (.reported key odata)
  rw [final_cons (launch_rejected h ho hpointer hcall), final_cons (reject_eq (s := u) (setWorker_self ..) ho),
    final_cons (recycle_eq (s := v) (setWorker_self ..) ho)]
  simp only [final, v, u, State.setWorker, State.logged, State.setRecord, State.writeStatus, Function.update_idem]

/-- A worker that has nothing in hand goes through the rest of the turn without a step. -/
theorem final_idle (h : s.worker w = .idle) :
    final step s [.observe w result, .act w c provisioning handle, .launch w c, .reject w, .recycle w] = .ok s := by
  simp only [final, step, State.observe, State.act, State.launch, State.reject, State.recycle, h]

end Steps

section Turn

variable {rest : List Packet}

/-- What `runOnce` makes of the switch. -/
def Switched.ran (sw : Switched) : Ran :=
  { status := .normal, ep := sw.ep
    actions := if sw.deleteOverlapped then sw.actions ++ [.recycle] else sw.actions, failed := sw.failed }

theorem runOnce_fresh {lastError : ℕ} (hfresh : o.fired = false) :
    runOnce c ep ⟨true, bytes, some o, lastError⟩ =
      .ok ((prepare c ep.status ep.hasContext o).switched ep o c).ran := by
  simp only [runOnce, Bool.true_eq_false, if_false, switch_fresh hfresh, Switched.ran]

/-- What `runOnce` returns for a record whose overlapped call has ended. -/
def ended (c : Winsock) (bytes : ℕ) (ep : Endpoint) (o : NetIoMuxOverlapped) : Ran :=
  { status := .normal
    ep := { ep with status := (endStatus c.overlappedResult o.ioType).getD ep.status }
    actions := [endReport c.overlappedResult bytes o, .recycle]
    failed := endMessages c ep.status c.overlappedResult o }

theorem runOnce_fired {lastError : ℕ} (hfired : o.fired = true) (hio : o.ioType ≠ .invalid) :
    runOnce c ep ⟨true, bytes, some o, lastError⟩ = .ok (ended c bytes ep o) := by
  simp only [runOnce, switch_fired hfired hio, Bool.true_eq_false, if_false, if_true, List.cons_append,
    List.nil_append, ended]

theorem submit_notMem_ended (c : Winsock) (bytes : ℕ) (ep : Endpoint) (o : NetIoMuxOverlapped) (accepted : Bool) :
    .submit accepted ∉ (ended c bytes ep o).actions := by
  obtain ⟨tepOrPeer, buf, len, heq⟩ := endReport_eq c.overlappedResult bytes o
  simp [ended, heq, NetIoMuxOverlapped.report]

theorem welcome_eq (s : State n) (provisioning handle : Bool) :
    s.welcome provisioning handle =
      { s with
        socket := Function.update s.socket s.nextEp
          ⟨if provisioning then .connected else .invalid, if handle then .live false false else .null⟩
        nextEp := s.nextEp + 1
        failed := s.failed ++ asserting "Unable to join a netendpoint to mux." (handle = true) } := by
  cases provisioning <;> cases handle <;>
    simp [State.welcome, State.create, State.join, State.setContext, State.fail, asserting]

/-- The packet is for the worker: it is at the start of a call, and the packet and its record
are there. -/
structure Ready (s : State n) (w : Fin n) (p : Packet) (rest : List Packet) (o : NetIoMuxOverlapped) : Prop where
  sound : Sound s
  idle : s.worker w = .idle
  port : s.port = p :: rest
  record : s.record p.odata = some o

/-- The packet ends the call at once. -/
theorem turn_lost (h : Ready s w p rest o) (hret : p.ret = false) (c : Winsock) (provisioning handle : Bool)
    (lastError : ℕ) :
    ∃ r, runOnce c (s.socket p.key).endpoint ⟨p.ret, p.bytes, some o, lastError⟩ = .ok r ∧
      final step s (turn w c provisioning handle) = s.outcome p rest o c provisioning handle r := by
  let u := { s with port := rest, lost := s.lost ++ [p.odata] }
  have hdequeue : step s (.dequeue w) = .ok u := by
    simp only [step, State.dequeue, h.idle, h.port, hret, Bool.false_eq_true, if_false, u]
  refine ⟨⟨.disabled, (s.socket p.key).endpoint, [], []⟩, ?_, ?_⟩
  · simp only [runOnce, hret, if_true, reduceCtorEq, false_and, if_false]
  have hcalls : ¬ s.CallsDeparted p o ⟨.disabled, (s.socket p.key).endpoint, [], []⟩ :=
    fun hcalls => hcalls.1.elim List.not_mem_nil List.not_mem_nil
  have haccepts : ¬ p.Accepts o c := fun haccepts => Bool.noConfusion (hret.symm.trans haccepts.1)
  rw [turn, final_cons hdequeue, final_idle (s := u) h.idle, State.outcome, if_neg hcalls, if_neg haccepts]
  have hrecord : Function.update s.record p.odata (some o) = s.record := by
    rw [← h.record, Function.update_eq_self]
  have hsocket : Function.update s.socket p.key
      { s.socket p.key with status := (s.socket p.key).endpoint.status } = s.socket := Function.update_eq_self ..
  simp only [u, State.ran, List.not_mem_nil, if_false, hret, Bool.false_eq_true, false_and, hrecord, hsocket,
    List.map_nil, List.append_nil]

/-- The first two steps of a turn. -/
theorem final_observed (h : Ready s w p rest o) (hret : p.ret = true) (ls : List (Label n)) :
    final step s (.dequeue w :: .observe w c.overlappedResult :: ls) =
      final step ({ s with port := rest }.setWorker w (.observed p (s.socket p.key).status
        (if o.fired then c.overlappedResult else none))) ls := by
  let u := { s with port := rest }.setWorker w (.dequeued p)
  have hdequeue : step s (.dequeue w) = .ok u := by
    simp only [step, State.dequeue, h.idle, h.port, hret, if_true]
    rfl
  rw [final_cons hdequeue, final_cons (observe_eq (s := u) (setWorker_self ..) h.record), setWorker_setWorker]
  rfl

theorem ran_ended (hret : p.ret = true) (hfired : o.fired = true) :
    s.ran p rest o c (ended c p.bytes (s.socket p.key).endpoint o) =
      { (s.setRecord p.odata none).writeStatus p.key (endStatus c.overlappedResult o.ioType) with
        port := rest
        log := s.log ++
          [⟨p.odata, p.key, endReport c.overlappedResult p.bytes o⟩, ⟨p.odata, p.key, .recycle⟩]
        failed := s.failed ++ endMessages c (s.socket p.key).status c.overlappedResult o } := by
  have hrecycle : .recycle ∈ (ended c p.bytes (s.socket p.key).endpoint o).actions :=
    List.mem_cons_of_mem _ (List.mem_singleton.mpr rfl)
  have hsubmit := submit_notMem_ended c p.bytes (s.socket p.key).endpoint o true
  simp only [State.ran, if_pos hrecycle, if_neg hsubmit, hret, hfired, Bool.true_eq_false, false_and,
    and_false, if_false, if_true]
  rfl

/-- The turn for a record whose overlapped call has ended. -/
theorem turn_fired (h : Ready s w p rest o) (hret : p.ret = true) (hfired : o.fired = true) (c : Winsock)
    (provisioning handle : Bool) (lastError : ℕ) :
    ∃ r, runOnce c (s.socket p.key).endpoint ⟨p.ret, p.bytes, some o, lastError⟩ = .ok r ∧
      final step s (turn w c provisioning handle) = s.outcome p rest o c provisioning handle r := by
  have hio : o.ioType ≠ .invalid := h.sound.kept.matched.ioType_ne h.record
  let u := { s with port := rest }.setWorker w (.observed p (s.socket p.key).status c.overlappedResult)
  let v := u.conclude w p (s.socket p.key).status c.overlappedResult o c provisioning handle
  have hact : step u (.act w c provisioning handle) = .ok v :=
    act_fired (s := u) (setWorker_self ..) h.record hfired hio
  have hreported : v.worker w = .reported p.key p.odata := Function.update_self ..
  have hrun : final step s (turn w c provisioning handle) =
      .ok (((v.setRecord p.odata none).logged p.key p.odata .recycle).setWorker w .idle) := by
    rw [turn, final_observed h hret, if_pos hfired, final_cons hact, final_reported hreported h.record]
  have hworker : Function.update s.worker w .idle = s.worker := by rw [← h.idle, Function.update_eq_self]
  have hturn : ((v.setRecord p.odata none).logged p.key p.odata .recycle).setWorker w .idle =
      { v with
        record := Function.update s.record p.odata none
        worker := s.worker
        log := s.log ++
          [⟨p.odata, p.key, endReport c.overlappedResult p.bytes o⟩, ⟨p.odata, p.key, .recycle⟩] } := by
    simp only [v, u, State.conclude, State.setWorker, State.logged, State.setRecord, Function.update_idem, hworker,
      List.append_assoc, List.cons_append, List.nil_append]
  rw [hret]
  refine ⟨_, runOnce_fired hfired hio, ?_⟩
  have hsubmit := submit_notMem_ended c p.bytes (s.socket p.key).endpoint o
  rw [hrun, hturn, State.outcome, ran_ended hret hfired,
    if_neg (fun hcalls => hcalls.1.elim (hsubmit true) (hsubmit false))]
  by_cases haccepts : Accepts c.overlappedResult o
  · rw [if_pos ⟨hret, hfired, haccepts⟩, welcome_eq]
    simp only [v, u, State.conclude, if_pos haccepts, List.append_assoc]
    rfl
  · rw [if_neg (fun hpacket => haccepts hpacket.2.2)]
    simp only [v, u, State.conclude, if_neg haccepts, List.append_nil]
    rfl

section Initiation

variable {st : EStatus} {pending : Option EStatus}

theorem final_initiate_refused {ec : EError} {tepOrPeer : TepOrPeer} {buf : Option ℕ} {messages : List String}
    (ho : s.record p.odata = some o)
    (hprepare : prepare c st (s.socket p.key).endpoint.hasContext o = .refused ec tepOrPeer buf messages) :
    final step (s.initiate w p st o c) [.launch w c, .reject w, .recycle w] =
      .ok (((((s.fail messages).logged p.key p.odata (o.report ec tepOrPeer buf 0)).setRecord p.odata none).logged
        p.key p.odata .recycle).setWorker w .idle) := by
  let u := ((s.fail messages).logged p.key p.odata (o.report ec tepOrPeer buf 0)).setWorker w (.reported p.key p.odata)
  have hinitiate : s.initiate w p st o c = u := by simp only [State.initiate, hprepare, u]
  rw [hinitiate, final_reported (s := u) (setWorker_self ..) ho]
  simp only [u, State.setWorker, State.logged, State.setRecord, State.fail, Function.update_idem]

/-- The status that a call which fails leaves does not depend on the one it wrote before it was tried. -/
theorem writeStatus_failing (hprepare : prepare c st (s.socket p.key).endpoint.hasContext o = .ready pending)
    (key : ℕ) : (s.writeStatus key pending).writeStatus key (failingStatus o.ioType) =
      s.writeStatus key (failingStatus o.ioType) := by
  cases hfailing : failingStatus o.ioType with
  | none =>
    rw [pending_eq_none hprepare hfailing]
    simp only [State.writeStatus, Function.update_self, Function.update_idem, Option.getD_none]
  | some failing =>
    simp only [State.writeStatus, Function.update_self, Function.update_idem, Option.getD_some]

theorem initiate_ready (hprepare : prepare c st (s.socket p.key).endpoint.hasContext o = .ready pending) :
    s.initiate w p st o c = ((s.writeStatus p.key pending).setRecord p.odata (some (o.fire c))).setWorker w
      (.launching p.key p.odata) := by
  simp only [State.initiate, hprepare]

theorem final_initiate_accepted
    (hprepare : prepare c st (s.socket p.key).endpoint.hasContext o = .ready pending)
    (hpointer : (s.initiate w p st o c).pointer p.key o.ioType = .ok ())
    (hcall : c.immediate = true ∨ c.lastError = ERROR_IO_PENDING) :
    final step (s.initiate w p st o c) [.launch w c, .reject w, .recycle w] =
      .ok (((((s.writeStatus p.key pending).setRecord p.odata (some (o.fire c))).toKernel p.key p.odata).logged
        p.key p.odata (.submit true)).setWorker w .idle) := by
  let u := ((s.writeStatus p.key pending).setRecord p.odata (some (o.fire c))).setWorker w (.launching p.key p.odata)
  rw [initiate_ready hprepare] at hpointer ⊢
  rw [final_accepted (s := u) (o := o.fire c) (setWorker_self ..) (setRecord_self ..) hpointer hcall]
  simp only [u, State.setWorker, State.logged, State.setRecord, State.toKernel, Function.update_idem]

theorem final_initiate_rejected
    (hprepare : prepare c st (s.socket p.key).endpoint.hasContext o = .ready pending)
    (hpointer : (s.initiate w p st o c).pointer p.key o.ioType = .ok ())
    (hcall : ¬ (c.immediate = true ∨ c.lastError = ERROR_IO_PENDING)) :
    final step (s.initiate w p st o c) [.launch w c, .reject w, .recycle w] =
      .ok ((((((s.logged p.key p.odata (.submit false)).writeStatus p.key (failingStatus o.ioType)).logged
        p.key p.odata (o.report (failingError o.ioType) (failingPeer o.ioType) (failingBuf o) 0)).setRecord
          p.odata none).logged p.key p.odata .recycle).setWorker w .idle) := by
  let u := ((s.writeStatus p.key pending).setRecord p.odata (some (o.fire c))).setWorker w (.launching p.key p.odata)
  rw [initiate_ready hprepare] at hpointer ⊢
  rw [final_refused (s := u) (o := o.fire c) (setWorker_self ..) (setRecord_self ..) hpointer hcall]
  have hstatus : ((s.writeStatus p.key pending).writeStatus p.key (failingStatus o.ioType)).socket =
      (s.writeStatus p.key (failingStatus o.ioType)).socket := by rw [writeStatus_failing hprepare]
  have hfire : failingStatus (o.fire c).ioType = failingStatus o.ioType := rfl
  simp only [State.writeStatus, Function.update_idem] at hstatus
  simp only [u, State.setWorker, State.logged, State.setRecord, State.writeStatus, Function.update_idem, hfire,
    hstatus]
  rfl

end Initiation

section Fresh

variable {pending : Option EStatus} {provisioning handle : Bool}

/-- The state in which the worker goes through the switch for `p`, with the buffer as the switch leaves it. -/
def State.switching (s : State n) (w : Fin n) (p : Packet) (rest : List Packet) (o : NetIoMuxOverlapped) : State n :=
  ({ s with port := rest }.setWorker w (.observed p (s.socket p.key).status none)).freed p (s.socket p.key).status o

/-- A turn for a record that was not fired is in the switch after three steps. -/
theorem final_switching (h : Ready s w p rest o) (hret : p.ret = true) (hfresh : o.fired = false) (c : Winsock)
    (provisioning handle : Bool) :
    Sound ((s.switching w p rest o).initiate w p (s.socket p.key).status o c) ∧
      final step s (turn w c provisioning handle) =
        final step ((s.switching w p rest o).initiate w p (s.socket p.key).status o c)
          [.launch w c, .reject w, .recycle w] := by
  have hnot : ¬ o.fired = true := by
    rw [hfresh]
    exact Bool.false_ne_true
  let u := { s with port := rest }.setWorker w (.observed p (s.socket p.key).status none)
  have hobserved : final step s [.dequeue w, .observe w c.overlappedResult] = .ok u := by
    rw [final_observed h hret, if_neg hnot]
    rfl
  have hsound : Sound u :=
    final_of_preserved (fun _ _ _ hs _ hstep => hs.move (step_move hstep)) h.sound
      (along_of_forall (fun _ _ => trivial)) hobserved
  have hact : step u (.act w c provisioning handle) =
      .ok ((s.switching w p rest o).initiate w p (s.socket p.key).status o c) :=
    act_fresh (s := u) (setWorker_self ..) h.record hfresh (hsound.buffer_ok (setWorker_self ..) h.record hfresh)
  refine ⟨hsound.move (step_move hact), ?_⟩
  rw [turn, final_observed h hret, if_neg hnot, final_cons hact]

theorem ran_fresh (hret : p.ret = true) (hfresh : o.fired = false) (hidle : s.worker w = .idle) (r : Ran) :
    s.ran p rest o c r =
      { s.switching w p rest o with
        worker := Function.update (s.switching w p rest o).worker w .idle
        socket := Function.update s.socket p.key { s.socket p.key with status := r.ep.status }
        record := Function.update s.record p.odata
          (if .recycle ∈ r.actions then none else if .submit true ∈ r.actions then some (o.fire c) else some o)
        kernel := if .submit true ∈ r.actions then s.kernel ++ [(p.key, p.odata)] else s.kernel
        log := s.log ++ r.actions.map (Entry.mk p.odata p.key)
        failed := s.failed ++ r.failed } := by
  have hworker : Function.update s.worker w .idle = s.worker := by rw [← hidle, Function.update_eq_self]
  simp only [State.ran, State.switching, State.freed, State.setWorker, Function.update_idem, hworker, hret, hfresh,
    true_and, if_true]
  rfl

theorem turn_refused (h : Ready s w p rest o) (hret : p.ret = true) (hfresh : o.fired = false) {ec : EError}
    {tepOrPeer : TepOrPeer} {buf : Option ℕ} {messages : List String}
    (hprepare : prepare c (s.socket p.key).status (s.socket p.key).endpoint.hasContext o =
      .refused ec tepOrPeer buf messages) :
    final step s (turn w c provisioning handle) = .ok (s.ran p rest o c
      { status := .normal, ep := (s.socket p.key).endpoint, actions := [o.report ec tepOrPeer buf 0, .recycle]
        failed := messages }) := by
  have hsubmit : .submit true ∉ [o.report ec tepOrPeer buf 0, .recycle] := by
    simp [NetIoMuxOverlapped.report]
  have hrecycle : .recycle ∈ [o.report ec tepOrPeer buf 0, .recycle] :=
    List.mem_cons_of_mem _ (List.mem_singleton.mpr rfl)
  have hsocket : Function.update s.socket p.key
      { s.socket p.key with status := (s.socket p.key).endpoint.status } = s.socket := Function.update_eq_self ..
  rw [(final_switching h hret hfresh c provisioning handle).2,
    final_initiate_refused (s := s.switching w p rest o) h.record hprepare, ran_fresh hret hfresh h.idle]
  simp only [if_pos hrecycle, if_neg hsubmit, hsocket, List.map_cons, List.map_nil]
  simp only [State.setWorker, State.logged, State.setRecord, State.fail, List.append_assoc, List.cons_append,
    List.nil_append]
  rfl

theorem turn_accepted (h : Ready s w p rest o) (hret : p.ret = true) (hfresh : o.fired = false)
    (hprepare : prepare c (s.socket p.key).status (s.socket p.key).endpoint.hasContext o = .ready pending)
    (hpointer : ((s.switching w p rest o).initiate w p (s.socket p.key).status o c).pointer p.key o.ioType = .ok ())
    (hcall : c.immediate = true ∨ c.lastError = ERROR_IO_PENDING) :
    final step s (turn w c provisioning handle) = .ok (s.ran p rest o c
      { status := .normal
        ep := { (s.socket p.key).endpoint with status := pending.getD (s.socket p.key).status }
        actions := [.submit true], failed := [] }) := by
  have hsubmit : .submit true ∈ [Action.submit true] := List.mem_singleton.mpr rfl
  have hrecycle : .recycle ∉ [Action.submit true] := by simp
  rw [(final_switching h hret hfresh c provisioning handle).2,
    final_initiate_accepted (s := s.switching w p rest o) hprepare hpointer hcall, ran_fresh hret hfresh h.idle]
  simp only [if_neg hrecycle, if_pos hsubmit, List.map_cons, List.map_nil, List.append_nil]
  rfl

theorem turn_rejected (h : Ready s w p rest o) (hret : p.ret = true) (hfresh : o.fired = false)
    (hprepare : prepare c (s.socket p.key).status (s.socket p.key).endpoint.hasContext o = .ready pending)
    (hpointer : ((s.switching w p rest o).initiate w p (s.socket p.key).status o c).pointer p.key o.ioType = .ok ())
    (hcall : ¬ (c.immediate = true ∨ c.lastError = ERROR_IO_PENDING)) :
    final step s (turn w c provisioning handle) = .ok (s.ran p rest o c
      { status := .normal
        ep := { (s.socket p.key).endpoint with status := (failingStatus o.ioType).getD (s.socket p.key).status }
        actions := [.submit false,
          o.report (failingError o.ioType) (failingPeer o.ioType) (failingBuf o) 0, .recycle]
        failed := [] }) := by
  have hsubmit : .submit true ∉ [.submit false,
      o.report (failingError o.ioType) (failingPeer o.ioType) (failingBuf o) 0, .recycle] := by
    simp [NetIoMuxOverlapped.report]
  have hrecycle : .recycle ∈ [.submit false,
      o.report (failingError o.ioType) (failingPeer o.ioType) (failingBuf o) 0, .recycle] := by simp
  rw [(final_switching h hret hfresh c provisioning handle).2,
    final_initiate_rejected (s := s.switching w p rest o) hprepare hpointer hcall, ran_fresh hret hfresh h.idle]
  simp only [if_pos hrecycle, if_neg hsubmit, List.map_cons, List.map_nil, List.append_nil]
  simp only [State.setWorker, State.logged, State.setRecord, State.writeStatus, List.append_assoc, List.cons_append,
    List.nil_append]
  rfl

/-- A turn faults at the overlapped call if the context is gone. -/
theorem turn_departed (h : Ready s w p rest o) (hret : p.ret = true) (hfresh : o.fired = false)
    (hprepare : prepare c (s.socket p.key).status (s.socket p.key).endpoint.hasContext o = .ready pending)
    (hthrough : throughContext o.ioType = true) (hdeleted : (s.socket p.key).context = .deleted) :
    final step s (turn w c provisioning handle) = .error .useAfterFree := by
  let v := (s.switching w p rest o).initiate w p (s.socket p.key).status o c
  have hv : v = (((s.switching w p rest o).writeStatus p.key pending).setRecord p.odata (some (o.fire c))).setWorker w
      (.launching p.key p.odata) := initiate_ready (s := s.switching w p rest o) hprepare
  have hworker : v.worker w = .launching p.key p.odata := by rw [hv, setWorker_self]
  have hrecord : v.record p.odata = some (o.fire c) := by
    rw [hv]
    exact setRecord_self ..
  have hcontext : (v.socket p.key).context = .deleted := by
    rw [hv]
    exact (writeStatus_context ..).trans hdeleted
  have htouches : TouchesDeparted v (.launch w c) := by
    refine ⟨p.key, ?_, hcontext⟩
    have hany : (v.record p.odata).any (fun o => throughContext o.ioType) = true := by
      rw [hrecord]
      exact hthrough
    simp only [State.touched, hworker, if_pos hany]
  have hfault : step v (.launch w c) = .error .useAfterFree := step_fails htouches
  have hturn := (final_switching h hret hfresh c provisioning handle).2
  rw [hturn]
  change final step v _ = _
  simp only [final, hfault]

/-- The turn for a record that was not fired. -/
theorem turn_fresh (h : Ready s w p rest o) (hret : p.ret = true) (hfresh : o.fired = false) (c : Winsock)
    (provisioning handle : Bool) (lastError : ℕ) :
    ∃ r, runOnce c (s.socket p.key).endpoint ⟨p.ret, p.bytes, some o, lastError⟩ = .ok r ∧
      final step s (turn w c provisioning handle) = s.outcome p rest o c provisioning handle r := by
  have haccepts : ¬ p.Accepts o c := fun haccepts => Bool.noConfusion (hfresh.symm.trans haccepts.2.1)
  rw [hret]
  refine ⟨_, runOnce_fresh hfresh, ?_⟩
  rw [State.outcome, if_neg haccepts]
  cases hprepare : prepare c (s.socket p.key).endpoint.status (s.socket p.key).endpoint.hasContext o with
  | unrecognized => exact absurd hprepare (prepare_ne_unrecognized (h.sound.kept.matched.ioType_ne h.record))
  | refused ec tepOrPeer buf messages =>
    have hsubmit : ∀ accepted, .submit accepted ∉ [o.report ec tepOrPeer buf 0, .recycle] := by
      simp [NetIoMuxOverlapped.report]
    rw [turn_refused h hret hfresh hprepare, if_neg (fun hcalls => hcalls.1.elim (hsubmit true) (hsubmit false))]
    rfl
  | ready pending =>
    by_cases hdeparted : throughContext o.ioType = true ∧ (s.socket p.key).context = .deleted
    · rw [turn_departed h hret hfresh hprepare hdeparted.1 hdeparted.2, if_pos]
      refine ⟨?_, hdeparted⟩
      simp only [Prepared.switched, Iocp.launch, Switched.ran]
      split <;> simp
    have hpointer : ((s.switching w p rest o).initiate w p (s.socket p.key).status o c).pointer p.key o.ioType =
        .ok () := by
      obtain ⟨hsound, -⟩ := final_switching h hret hfresh c provisioning handle
      have hv := initiate_ready (s := s.switching w p rest o) (w := w) hprepare
      change Sound ((s.switching w p rest o).initiate w p (s.socket p.key).endpoint.status o c) at hsound
      change ((s.switching w p rest o).initiate w p (s.socket p.key).endpoint.status o c).pointer p.key o.ioType = _
      rw [hv] at hsound ⊢
      refine hsound.pointer_ok (o := o.fire c) (setWorker_self ..) (setRecord_self ..) ?_
      intro hthrough hdeleted
      exact hdeparted ⟨hthrough, (writeStatus_context ..).symm.trans hdeleted⟩
    rw [if_neg (fun hcalls => hdeparted hcalls.2)]
    by_cases hcall : c.immediate = true ∨ c.lastError = ERROR_IO_PENDING
    · rw [turn_accepted h hret hfresh hprepare hpointer hcall]
      simp only [Prepared.switched, Iocp.launch, if_pos hcall, Switched.ran, Bool.false_eq_true, if_false]
      rfl
    · rw [turn_rejected h hret hfresh hprepare hpointer hcall]
      simp only [Prepared.switched, Iocp.launch, if_neg hcall, Switched.ran, if_true, List.cons_append,
        List.nil_append]
      rfl

end Fresh

/-- In every state that a run reaches, the turn of a worker ends as `runOnce` does for the
packet in front. -/
theorem turn_runOnce {labels : List (Label n)} (hrun : final step (State.initial n) labels = .ok s)
    (hidle : s.worker w = .idle) (hport : s.port = p :: rest) (c : Winsock) (provisioning handle : Bool)
    (lastError : ℕ) :
    ∃ o r, s.record p.odata = some o ∧
      runOnce c (s.socket p.key).endpoint ⟨p.ret, p.bytes, some o, lastError⟩ = .ok r ∧
      final step s (turn w c provisioning handle) = s.outcome p rest o c provisioning handle r := by
  have hsound : Sound s :=
    final_of_preserved (fun _ _ _ hs _ hstep => hs.move (step_move hstep)) (Sound.initial n)
      (along_of_forall (fun _ _ => trivial)) hrun
  have hfound : 0 < s.found Pc.held p.odata := by
    have hcount : 0 < (s.port.map Packet.odata).count p.odata := by
      rw [hport, List.map_cons, List.count_cons_self]
      exact Nat.succ_pos _
    rw [State.found]
    omega
  obtain ⟨o, ho⟩ := hsound.kept.placed.isSome_of_found hfound
  have hready : Ready s w p rest o := ⟨hsound, hidle, hport, ho⟩
  refine ⟨o, ?_⟩
  have hturn : ∃ r, runOnce c (s.socket p.key).endpoint ⟨p.ret, p.bytes, some o, lastError⟩ = .ok r ∧
      final step s (turn w c provisioning handle) = s.outcome p rest o c provisioning handle r := by
    cases hret : p.ret with
    | false => exact hret ▸ turn_lost hready hret c provisioning handle lastError
    | true =>
      cases hfired : o.fired with
      | false => exact hret ▸ turn_fresh hready hret hfired c provisioning handle lastError
      | true => exact hret ▸ turn_fired hready hret hfired c provisioning handle lastError
  obtain ⟨r, hr, hfinal⟩ := hturn
  exact ⟨r, ho, hr, hfinal⟩

def acceptCalls : Winsock :=
  { overlappedResult := some 0, socket := some 5, resolved := true, bound := true, immediate := false
    lastError := ERROR_IO_PENDING, updated := true }

/-- The overlapped accept of a listening endpoint has ended with a connection. -/
def acceptedRun (w : Fin n) : List (Label n) :=
  [.create .listening, .join 0 true, .async 0 (.accept 7) true true, .dequeue w, .observe w none,
    .act w acceptCalls true true, .launch w acceptCalls, .complete 0 true 0]

theorem turn_runOnce_acceptedRun :
    ∃ s o r, final step (State.initial 1) (acceptedRun 0) = .ok s ∧ s.record 0 = some o ∧
      runOnce acceptCalls (s.socket 0).endpoint ⟨true, 0, some o, 0⟩ = .ok r ∧
      final step s (turn 0 acceptCalls true true) = s.outcome ⟨0, 0, true, 0⟩ [] o acceptCalls true true r := by
  obtain ⟨s, hrun, hidle, hport⟩ : ∃ s, final step (State.initial 1) (acceptedRun 0) = .ok s ∧
      s.worker 0 = .idle ∧ s.port = [⟨0, 0, true, 0⟩] := ⟨_, rfl, rfl, rfl⟩
  obtain ⟨o, r, hturn⟩ := turn_runOnce hrun hidle hport acceptCalls true true 0
  exact ⟨s, o, r, hrun, hturn⟩

/-- The endpoint of the accepted socket has joined. -/
example : (final step (State.initial 1) (acceptedRun 0 ++ turn 0 acceptCalls true true)).map
    (fun s => (s.socket 1).context) = .ok (.live false false) := rfl

end Turn
end LibXpf.NetIoMux.Iocp
