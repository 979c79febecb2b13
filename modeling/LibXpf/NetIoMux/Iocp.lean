import LibXpf.Foundation.GuardedRuns
import LibXpf.NetIoMux.Operations

/-! # Packets of the completion port

The IOCP multiplexer keeps no queue. An `async` function posts a record to the
port, `runOnce` dequeues it and hands it to the kernel, and when the kernel posts
it again `runOnce` reports the result. A record is answered if its callback is
called and it is recycled, or if the kernel has it again.
-/
namespace LibXpf.NetIoMux.Iocp
open GuardedRuns

inductive ERunningStaus where
  | normal
  | timeout
  | disabled
  deriving DecidableEq, Repr

def ERROR_IO_PENDING : ℕ := 997
def ERROR_ABANDONED_WAIT_0 : ℕ := 735

/-- The record of one operation. Pointers are options, and `fired` is the flag
`IOMUX_OVERLAPPED_FIRED`. -/
structure NetIoMuxOverlapped where
  buf : Option ℕ
  len : ℕ
  ioType : EIoType
  callback : ℕ
  acceptingSocket : Option ℕ
  fired : Bool
  deriving DecidableEq, Repr

/-- What `runOnce` reads and writes of an endpoint. A context has the function
pointers already, for `asyncAccept` and `asyncConnect` load them before they post. -/
structure Endpoint where
  status : EStatus
  hasContext : Bool
  deriving DecidableEq, Repr

/-- The outcome of the calls that `runOnce` makes. -/
structure Winsock where
  /-- The bytes `WSAGetOverlappedResult` stores, `none` for `FALSE`. -/
  overlappedResult : Option ℕ
  socket : Option ℕ
  resolved : Bool
  bound : Bool
  /-- Whether the overlapped call succeeds at once. -/
  immediate : Bool
  /-- What `WSAGetLastError` returns after it. -/
  lastError : ℕ
  /-- Whether `setsockopt` updates the context of the socket. -/
  updated : Bool
  deriving DecidableEq, Repr

/-- What `GetQueuedCompletionStatus` returns and stores, but for the endpoint. -/
structure Dequeued where
  ret : Bool
  bytes : ℕ
  odata : Option NetIoMuxOverlapped
  lastError : ℕ
  deriving DecidableEq, Repr

inductive TepOrPeer where
  | null
  | tep (socket : Option ℕ)
  | peerData
  deriving DecidableEq, Repr

inductive Action where
  /-- `onIoCompleted`. -/
  | callback (cb : ℕ) (type : EIoType) (ec : EError) (tepOrPeer : TepOrPeer) (buf : Option ℕ) (len : ℕ)
  /-- The record is given to the kernel, which accepts it or not. -/
  | submit (accepted : Bool)
  | recycle
  deriving DecidableEq, Repr

section Switch

/-- What the switch over the operation leaves behind. -/
structure Switched where
  ep : Endpoint
  actions : List Action
  deleteOverlapped : Bool
  failed : List String

def NetIoMuxOverlapped.report (o : NetIoMuxOverlapped) (ec : EError) (tepOrPeer : TepOrPeer)
    (buf : Option ℕ) (len : ℕ) : Action :=
  .callback o.callback o.ioType ec tepOrPeer buf len

/-- `runOnce` reports an error and gives the record up. -/
def refuse (ep : Endpoint) (o : NetIoMuxOverlapped) (ec : EError) (tepOrPeer : TepOrPeer)
    (buf : Option ℕ) (failed : List String) : Switched :=
  { ep := ep, actions := [o.report ec tepOrPeer buf 0], deleteOverlapped := true, failed := failed }

/-- The overlapped call, with the endpoint as it is while the kernel has the record
and as it is when the call fails. -/
def launch (w : Winsock) (pending failing : Endpoint) (o : NetIoMuxOverlapped) (ec : EError)
    (tepOrPeer : TepOrPeer) (buf : Option ℕ) (failed : List String) : Switched :=
  if w.immediate = true ∨ w.lastError = ERROR_IO_PENDING then
    { ep := pending, actions := [.submit true], deleteOverlapped := false, failed := failed }
  else
    { ep := failing, actions := [.submit false, o.report ec tepOrPeer buf 0], deleteOverlapped := true
      failed := failed }

def accept (w : Winsock) (ep : Endpoint) (o : NetIoMuxOverlapped) : Switched :=
  if o.fired = false then
    if ep.hasContext = false then
      refuse ep o .invalidOp .null none ["Unprovisioned netendpoint."]
    else if ep.status ≠ .listening then
      refuse ep o .invalidOp .null none ["Invalid socket status."]
    else if w.socket = none then
      refuse ep o .accept .null none ["Unable to create socket for accepting peer"]
    else
      launch w { ep with status := .accepting } { ep with status := .listening } o .accept .null none []
  else
    let failed := asserting "NetEndpoint::ESTAT_ACCEPTING == st" (ep.status = .accepting)
    let ep := { ep with status := .listening }
    match w.overlappedResult with
    | none => refuse ep o .accept .null none failed
    | some _ =>
      { ep := ep
        actions := [o.report .success (.tep o.acceptingSocket) none 0]
        deleteOverlapped := true
        failed := failed ++ asserting "Expecting valid peer socket." (o.acceptingSocket ≠ none) ++
          asserting "Failed to update accepted context on newly connected socket." (w.updated = true) }

def connect (w : Winsock) (ep : Endpoint) (o : NetIoMuxOverlapped) : Switched :=
  if o.fired = false then
    if ep.hasContext = false then
      refuse ep o .invalidOp .null none ["Unprovisioned netendpoint."]
    else if ep.status ≠ .init then
      refuse ep o .invalidOp .null none ["Invalid socket status."]
    else if w.resolved = false then
      refuse ep o .resolve .null none []
    else if w.bound = false then
      refuse ep o .bind .null none []
    else
      launch w { ep with status := .connecting } { ep with status := .init } o .connect .null none []
  else
    let failed := asserting "NetEndpoint::ESTAT_CONNECTING == st" (ep.status = .connecting)
    match w.overlappedResult with
    | none => refuse { ep with status := .init } o .connect .null none failed
    | some _ =>
      { ep := { ep with status := .connected }
        actions := [o.report .success .null none 0]
        deleteOverlapped := true
        failed := failed ++
          asserting "Failed to update connected context on outgoing socket." (w.updated = true) }

/-- The four operations that move data. They differ in the error they report and in
the peer they pass when they are initiated and when they complete. -/
def transfer (w : Winsock) (bytes : ℕ) (ep : Endpoint) (o : NetIoMuxOverlapped) (ec : EError)
    (initiated completed : TepOrPeer) : Switched :=
  if o.fired = false then
    if ep.status ≠ .connected then
      refuse ep o .invalidOp initiated o.buf ["Invalid socket status."]
    else launch w ep ep o ec initiated o.buf []
  else
    { ep := ep
      actions :=
        [o.report (if w.overlappedResult = none then ec else .success) completed o.buf
          (w.overlappedResult.getD bytes)]
      deleteOverlapped := true
      failed := [] }

def recv (w : Winsock) (bytes : ℕ) (ep : Endpoint) (o : NetIoMuxOverlapped) : Switched :=
  transfer w bytes ep o .recv .null .null

def recvFrom (w : Winsock) (bytes : ℕ) (ep : Endpoint) (o : NetIoMuxOverlapped) : Switched :=
  transfer w bytes ep o .recv .null .peerData

def send (w : Winsock) (bytes : ℕ) (ep : Endpoint) (o : NetIoMuxOverlapped) : Switched :=
  transfer w bytes ep o .send .null .null

def sendTo (w : Winsock) (bytes : ℕ) (ep : Endpoint) (o : NetIoMuxOverlapped) : Switched :=
  transfer w bytes ep o .send .peerData .peerData

def switch (w : Winsock) (bytes : ℕ) (ep : Endpoint) (o : NetIoMuxOverlapped) : Switched :=
  match o.ioType with
  | .accept => accept w ep o
  | .connect => connect w ep o
  | .recv => recv w bytes ep o
  | .recvFrom => recvFrom w bytes ep o
  | .send => send w bytes ep o
  | .sendTo => sendTo w bytes ep o
  | .invalid =>
    { ep := ep, actions := [], deleteOverlapped := true, failed := ["Unrecognized EIoType."] }

end Switch

/-- What one call of `runOnce` does. -/
structure Ran where
  status : ERunningStaus
  ep : Endpoint
  actions : List Action
  failed : List String

def runOnce (w : Winsock) (ep : Endpoint) (p : Dequeued) : Except Fault Ran :=
  if p.ret = false then
    .ok
      { status :=
          if p.odata = none ∧ p.lastError ≠ ERROR_ABANDONED_WAIT_0 then .timeout else .disabled
        ep := ep, actions := [], failed := [] }
  else
    match p.odata with
    | none => .error .nullDereference
    | some o =>
      let s := switch w p.bytes ep o
      .ok
        { status := .normal
          ep := s.ep
          actions := if s.deleteOverlapped then s.actions ++ [.recycle] else s.actions
          failed := s.failed }

section Answers

def Action.isCallback : Action → Bool
  | .callback .. => true
  | _ => false

/-- A call of the callback of `o`, for its operation. -/
def Action.Reports (o : NetIoMuxOverlapped) : Action → Bool
  | .callback cb type .. => cb = o.callback && type = o.ioType
  | _ => false

/-- The callback of `o` is called exactly once, no other is, and `o` is recycled; or
the kernel has `o` again and no callback is called. -/
def Answered (o : NetIoMuxOverlapped) (actions : List Action) : Prop :=
  actions.countP Action.isCallback = 1 ∧ actions.countP (Action.Reports o) = 1 ∧
      actions.count .recycle = 1 ∧ actions.count (.submit true) = 0 ∨
    actions.countP Action.isCallback = 0 ∧ actions.count .recycle = 0 ∧ actions.count (.submit true) = 1

instance (o : NetIoMuxOverlapped) (actions : List Action) : Decidable (Answered o actions) :=
  inferInstanceAs (Decidable (_ ∨ _))

/-- The record that the switch gives up has been reported, the other one is with the kernel. -/
inductive Settles (o : NetIoMuxOverlapped) : Switched → Prop
  | reported (ep : Endpoint) (ec : EError) (tepOrPeer : TepOrPeer) (buf : Option ℕ) (len : ℕ)
      (failed : List String) : Settles o ⟨ep, [o.report ec tepOrPeer buf len], true, failed⟩
  | rejected (ep : Endpoint) (ec : EError) (tepOrPeer : TepOrPeer) (buf : Option ℕ) (len : ℕ)
      (failed : List String) :
    Settles o ⟨ep, [.submit false, o.report ec tepOrPeer buf len], true, failed⟩
  | submitted (ep : Endpoint) (failed : List String) : Settles o ⟨ep, [.submit true], false, failed⟩

variable {w : Winsock} {ep pending failing : Endpoint} {o : NetIoMuxOverlapped} {ec : EError}
  {initiated completed : TepOrPeer} {buf : Option ℕ} {failed : List String} {bytes : ℕ}

theorem settles_launch : Settles o (launch w pending failing o ec initiated buf failed) := by
  unfold launch
  split
  · exact .submitted pending failed
  · exact .rejected failing ec initiated buf 0 failed

theorem settles_refuse : Settles o (refuse ep o ec initiated buf failed) :=
  .reported ep ec initiated buf 0 failed

theorem settles_accept : Settles o (accept w ep o) := by
  unfold accept
  split
  · split
    · exact settles_refuse
    · split
      · exact settles_refuse
      · split
        · exact settles_refuse
        · exact settles_launch
  · cases w.overlappedResult with
    | none => exact settles_refuse
    | some _ => exact .reported ..

theorem settles_connect : Settles o (connect w ep o) := by
  unfold connect
  split
  · split
    · exact settles_refuse
    · split
      · exact settles_refuse
      · split
        · exact settles_refuse
        · split
          · exact settles_refuse
          · exact settles_launch
  · cases w.overlappedResult with
    | none => exact settles_refuse
    | some _ => exact .reported ..

theorem settles_transfer : Settles o (transfer w bytes ep o ec initiated completed) := by
  unfold transfer
  split
  · split
    · exact settles_refuse
    · exact settles_launch
  · exact .reported ..

/-- Every operation settles its record, whatever the calls return. -/
theorem settles_switch (h : o.ioType ≠ .invalid) : Settles o (switch w bytes ep o) := by
  unfold switch
  cases hio : o.ioType with
  | invalid => exact absurd hio h
  | accept => exact settles_accept
  | connect => exact settles_connect
  | _ => exact settles_transfer

theorem Settles.answered {s : Switched} (h : Settles o s) :
    Answered o (if s.deleteOverlapped then s.actions ++ [.recycle] else s.actions) := by
  cases h with
  | reported =>
    refine .inl ⟨?_, ?_, ?_, ?_⟩ <;>
      simp [NetIoMuxOverlapped.report, Action.isCallback, Action.Reports, List.countP_cons]
  | rejected =>
    refine .inl ⟨?_, ?_, ?_, ?_⟩ <;>
      simp [NetIoMuxOverlapped.report, Action.isCallback, Action.Reports, List.countP_cons]
  | submitted =>
    refine .inr ⟨?_, ?_, ?_⟩ <;> simp [Action.isCallback]

/-- A dequeued record is answered if and only if the dequeuing succeeded and the
record is of one of the six operations. -/
theorem answered_iff (w : Winsock) (ep : Endpoint) (ret : Bool) (bytes : ℕ) (o : NetIoMuxOverlapped)
    (lastError : ℕ) :
    Returns (runOnce w ep ⟨ret, bytes, some o, lastError⟩) (fun r => Answered o r.actions) ↔
      ret = true ∧ o.ioType ≠ .invalid := by
  cases ret with
  | false => simp [Returns, runOnce, Answered]
  | true =>
    by_cases hio : o.ioType = .invalid
    · simp [Returns, runOnce, switch, hio, Answered, Action.isCallback]
    · have hsettles : Settles o (switch w bytes ep o) := settles_switch hio
      have hanswered := hsettles.answered
      simp only [ne_eq, hio, not_false_eq_true, and_true, iff_true]
      exact ⟨_, rfl, hanswered⟩

/-- A `recv` that the peer reset: the port returns `FALSE` together with the record. -/
def resetRecv : NetIoMuxOverlapped :=
  { buf := some 100, len := 8, ioType := .recv, callback := 7, acceptingSocket := none, fired := true }

def resetCalls : Winsock :=
  { overlappedResult := none, socket := none, resolved := true, bound := true, immediate := false
    lastError := 64, updated := true }

theorem resetRecv_not_answered :
    ¬ ∀ (w : Winsock) (ep : Endpoint) (p : Dequeued) (o : NetIoMuxOverlapped), p.odata = some o →
      o.ioType ≠ .invalid → Returns (runOnce w ep p) (fun r => Answered o r.actions) := by
  intro h
  have hreset := h resetCalls { status := .connected, hasContext := true }
    ⟨false, 0, some resetRecv, 64⟩ resetRecv rfl (by decide)
  exact absurd hreset (by decide)

end Answers
end LibXpf.NetIoMux.Iocp
