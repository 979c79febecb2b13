import LibXpf.Foundation.Custody
import LibXpf.NetIoMux.Iocp
import Mathlib.Logic.Function.Basic

/-! # The IOCP multiplexer as a machine

Any number of workers call `runOnce` on one port. A record belongs to the port, to
the worker that dequeued it or to the kernel, and nothing locks an endpoint while
`runOnce` reads its status and later writes it. So a worker can be interrupted
between all of these, and `Pc` names the places. The kernel decides when and how an
overlapped call ends. A step that the state does not allow leaves the state alone.
-/
namespace LibXpf.NetIoMux.Iocp
open GuardedRuns

/-- What `getAsyncContext` points to. `depart` deletes the context and leaves the pointer. -/
inductive IocpAsyncContext where
  | null
  | live (pAcceptEx pConnectEx : Bool)
  | deleted
  deriving DecidableEq, Repr

structure Socket where
  status : EStatus
  context : IocpAsyncContext
  deriving DecidableEq, Repr

/-- The endpoint as one call of `runOnce` sees it. -/
def Socket.endpoint (k : Socket) : Endpoint :=
  { status := k.status, hasContext := decide (k.context ≠ .null) }

/-- What the port queues: a posted record, or a record whose overlapped call has ended. -/
structure Packet where
  key : ℕ
  odata : ℕ
  /-- What `GetQueuedCompletionStatus` returns for it. -/
  ret : Bool
  bytes : ℕ
  deriving DecidableEq, Repr

/-- Where a worker is in `runOnce`. -/
inductive Pc where
  | idle
  /-- Before it reads the record and the status of the endpoint. -/
  | dequeued (p : Packet)
  /-- It has read the status, and the result of the overlapped call if the record was fired. -/
  | observed (p : Packet) (st : EStatus) (result : Option ℕ)
  /-- Before the overlapped call. -/
  | launching (key odata : ℕ)
  /-- The overlapped call failed. -/
  | rejected (key odata : ℕ)
  /-- Before `recycleOverlapped`. -/
  | reported (key odata : ℕ)
  deriving DecidableEq, Repr

/-- The record a worker has in hand. -/
def Pc.held : Pc → Option ℕ
  | .idle => none
  | .dequeued p => some p.odata
  | .observed p _ _ => some p.odata
  | .launching _ odata => some odata
  | .rejected _ odata => some odata
  | .reported _ odata => some odata

/-- One action of `runOnce` for a record. -/
structure Entry where
  odata : ℕ
  key : ℕ
  action : Action
  deriving DecidableEq, Repr

/-- The multiplexer with `n` workers. The fields from `posted` on are history. -/
structure State (n : ℕ) where
  socket : ℕ → Socket
  nextEp : ℕ
  /-- The records that are allocated. -/
  record : ℕ → Option NetIoMuxOverlapped
  nextRecord : ℕ
  /-- The buffers of `asyncConnect` that are allocated, each under the number of its record. -/
  host : ℕ → Bool
  port : List Packet
  /-- The records of the overlapped calls in progress, with their endpoints. -/
  kernel : List (ℕ × ℕ)
  worker : Fin n → Pc
  /-- The endpoint and the record of every call of an `async` function that made one. -/
  posted : List (ℕ × NetIoMuxOverlapped)
  /-- The records that no packet will bring back. -/
  lost : List ℕ
  /-- The records whose overlapped call ended without an error. -/
  succeeded : List ℕ
  log : List Entry
  failed : List String

inductive Label (n : ℕ) where
  | create (status : EStatus)
  /-- `handle` tells whether `CreateIoCompletionPort` succeeds. -/
  | join (ep : ℕ) (handle : Bool)
  | depart (ep : ℕ)
  /-- Whether `WSAIoctl` and `PostQueuedCompletionStatus` succeed. -/
  | async (ep : ℕ) (call : AsyncCall) (ioctl queued : Bool)
  | dequeue (w : Fin n)
  /-- The bytes `WSAGetOverlappedResult` stores, `none` for `FALSE`. -/
  | observe (w : Fin n) (result : Option ℕ)
  /-- The calls before the overlapped one, whether the endpoint of an accepted socket is
  usable, and whether it gets a handle when it joins. -/
  | act (w : Fin n) (calls : Winsock) (provisioning handle : Bool)
  | launch (w : Fin n) (calls : Winsock)
  | reject (w : Fin n)
  | recycle (w : Fin n)
  /-- The kernel ends the overlapped call of a record. -/
  | complete (odata : ℕ) (ret : Bool) (bytes : ℕ)

section Posting

def AsyncCall.ioType : AsyncCall → EIoType
  | .recv .. => .recv
  | .recvFrom .. => .recvFrom
  | .send .. => .send
  | .sendTo .. => .sendTo
  | .accept _ => .accept
  | .connect .. => .connect

/-- The record an `async` function fills in. The buffer of `asyncConnect` is allocated for it. -/
def AsyncCall.record (odata : ℕ) : AsyncCall → NetIoMuxOverlapped
  | .recv buf buflen cb => ⟨some buf, buflen, .recv, cb, some 0, false⟩
  | .recvFrom buf buflen cb => ⟨some buf, buflen, .recvFrom, cb, some 0, false⟩
  | .send buf buflen cb => ⟨some buf, buflen, .send, cb, some 0, false⟩
  | .sendTo buf buflen cb => ⟨some buf, buflen, .sendTo, cb, some 0, false⟩
  | .accept cb => ⟨none, 0, .accept, cb, some 0, false⟩
  | .connect _ cb => ⟨some odata, 1024, .connect, cb, some 0, false⟩

end Posting

namespace State

variable {n : ℕ}

def setWorker (s : State n) (w : Fin n) (pc : Pc) : State n :=
  { s with worker := Function.update s.worker w pc }

def setContext (s : State n) (ep : ℕ) (ctx : IocpAsyncContext) : State n :=
  { s with socket := Function.update s.socket ep { s.socket ep with context := ctx } }

def setRecord (s : State n) (odata : ℕ) (o : Option NetIoMuxOverlapped) : State n :=
  { s with record := Function.update s.record odata o }

/-- Writes a status, if there is one to write. -/
def writeStatus (s : State n) (ep : ℕ) (status : Option EStatus) : State n :=
  { s with
    socket := Function.update s.socket ep
      { s.socket ep with status := status.getD (s.socket ep).status } }

def fail (s : State n) (messages : List String) : State n := { s with failed := s.failed ++ messages }

/-- The kernel takes a record with an overlapped call. -/
def toKernel (s : State n) (key odata : ℕ) : State n := { s with kernel := s.kernel ++ [(key, odata)] }

def logged (s : State n) (key odata : ℕ) (action : Action) : State n :=
  { s with log := s.log ++ [⟨odata, key, action⟩] }

/-- Only `runOnce` sets the statuses `connecting` and `accepting`. -/
def create (s : State n) (status : EStatus) : State n :=
  if status = .connecting ∨ status = .accepting then s
  else
    { s with
      socket := Function.update s.socket s.nextEp ⟨status, .null⟩
      nextEp := s.nextEp + 1 }

def join (s : State n) (ep : ℕ) (handle : Bool) : State n :=
  if ep < s.nextEp then
    match (s.socket ep).context with
    | .null =>
      if handle then s.setContext ep (.live false false)
      else s.fail ["Unable to join a netendpoint to mux."]
    | _ => s
  else s

def depart (s : State n) (ep : ℕ) : Except Fault (State n) :=
  match (s.socket ep).context with
  | .null => .ok s
  | .deleted => .error .useAfterFree
  | .live _ _ => .ok ((s.setContext ep .deleted).writeStatus ep (some .invalid))

/-- `obtainOverlapped` and the call that posts the record. -/
def post (s : State n) (ep : ℕ) (call : AsyncCall) (queued : Bool) : State n :=
  let o := AsyncCall.record s.nextRecord call
  { s with
    record := Function.update s.record s.nextRecord (some o)
    nextRecord := s.nextRecord + 1
    host := Function.update s.host s.nextRecord (decide (o.ioType = .connect))
    port := if queued then s.port ++ [⟨ep, s.nextRecord, true, 0⟩] else s.port
    posted := s.posted ++ [(ep, o)]
    lost := if queued then s.lost else s.lost ++ [s.nextRecord]
    failed := s.failed ++ asserting "Failed on PostQueuedCompletionStatus()" (queued = true) }

/-- `asyncAccept` and `asyncConnect` load the function they will need into the context. -/
def async (s : State n) (ep : ℕ) (call : AsyncCall) (ioctl queued : Bool) : Except Fault (State n) :=
  if s.nextEp ≤ ep then .ok s else
  match call with
  | .accept _ =>
    match (s.socket ep).context with
    | .null => .ok (s.fail ["Unprovisioned netendpoint."])
    | .deleted => .error .useAfterFree
    | .live acceptEx connectEx =>
      if acceptEx = false ∧ ioctl = false then .ok (s.fail ["Unable to retrieve AcceptEx func ptr."])
      else .ok ((s.setContext ep (.live true connectEx)).post ep call queued)
  | .connect .. =>
    match (s.socket ep).context with
    | .null => .ok (s.fail ["Unprovisioned netendpoint."])
    | .deleted => .error .useAfterFree
    | .live acceptEx connectEx =>
      if connectEx = false ∧ ioctl = false then .ok (s.fail ["Unable to retrieve ConnectEx func ptr."])
      else .ok ((s.setContext ep (.live acceptEx true)).post ep call queued)
  | _ => .ok (s.post ep call queued)

/-- A packet that `GetQueuedCompletionStatus` returns with `FALSE` ends the call at once. -/
def dequeue (s : State n) (w : Fin n) : State n :=
  match s.worker w, s.port with
  | .idle, p :: rest =>
    if p.ret then { s.setWorker w (.dequeued p) with port := rest }
    else { s with port := rest, lost := s.lost ++ [p.odata] }
  | _, _ => s

def observe (s : State n) (w : Fin n) (result : Option ℕ) : Except Fault (State n) :=
  match s.worker w with
  | .dequeued p =>
    match s.record p.odata with
    | none => .error .useAfterFree
    | some o =>
      .ok (s.setWorker w (.observed p (s.socket p.key).status (if o.fired then result else none)))
  | _ => .ok s

end State

/-- How the first part of the switch ends for a record that was not fired. -/
inductive Prepared where
  | refused (ec : EError) (tepOrPeer : TepOrPeer) (buf : Option ℕ) (failed : List String)
  /-- The status is written before the overlapped call, if it is. -/
  | ready (pending : Option EStatus)
  | unrecognized

def prepareTransfer (st : EStatus) (initiated : TepOrPeer) (o : NetIoMuxOverlapped) : Prepared :=
  if st ≠ .connected then .refused .invalidOp initiated o.buf ["Invalid socket status."] else .ready none

def prepare (c : Winsock) (st : EStatus) (hasContext : Bool) (o : NetIoMuxOverlapped) : Prepared :=
  match o.ioType with
  | .accept =>
    if hasContext = false then .refused .invalidOp .null none ["Unprovisioned netendpoint."]
    else if st ≠ .listening then .refused .invalidOp .null none ["Invalid socket status."]
    else if c.socket = none then
      .refused .accept .null none ["Unable to create socket for accepting peer"]
    else .ready (some .accepting)
  | .connect =>
    if hasContext = false then .refused .invalidOp .null none ["Unprovisioned netendpoint."]
    else if st ≠ .init then .refused .invalidOp .null none ["Invalid socket status."]
    else if c.resolved = false then .refused .resolve .null none []
    else if c.bound = false then .refused .bind .null none []
    else .ready (some .connecting)
  | .recv => prepareTransfer st .null o
  | .recvFrom => prepareTransfer st .null o
  | .send => prepareTransfer st .null o
  | .sendTo => prepareTransfer st .peerData o
  | .invalid => .unrecognized

/-- Whether the switch gets as far as resolving the host, after which it frees the buffer. -/
def Resolves (st : EStatus) (hasContext : Bool) (o : NetIoMuxOverlapped) : Prop :=
  o.ioType = .connect ∧ hasContext = true ∧ st = .init

instance (st : EStatus) (hasContext : Bool) (o : NetIoMuxOverlapped) : Decidable (Resolves st hasContext o) :=
  inferInstanceAs (Decidable (_ ∧ _))

/-- The record as it is handed to the kernel. -/
def NetIoMuxOverlapped.fire (o : NetIoMuxOverlapped) (c : Winsock) : NetIoMuxOverlapped :=
  { o with fired := true, acceptingSocket := if o.ioType = .accept then c.socket else o.acceptingSocket }

section Failing

/-- The status an overlapped call that fails leaves behind. -/
def failingStatus : EIoType → Option EStatus
  | .accept => some .listening
  | .connect => some .init
  | _ => none

def failingError : EIoType → EError
  | .accept => .accept
  | .connect => .connect
  | .recv => .recv
  | .recvFrom => .recv
  | _ => .send

/-- The peer and the buffer an overlapped call that fails is reported with. -/
def failingPeer : EIoType → TepOrPeer
  | .sendTo => .peerData
  | _ => .null

def failingBuf (o : NetIoMuxOverlapped) : Option ℕ :=
  match o.ioType with
  | .accept => none
  | .connect => none
  | _ => o.buf

end Failing

section Completion

/-- The status a call that has ended leaves behind. -/
def endStatus (result : Option ℕ) : EIoType → Option EStatus
  | .accept => some .listening
  | .connect => some (if result = none then .init else .connected)
  | _ => none

def endMessages (c : Winsock) (st : EStatus) (result : Option ℕ) (o : NetIoMuxOverlapped) : List String :=
  match o.ioType with
  | .accept =>
    asserting "NetEndpoint::ESTAT_ACCEPTING == st" (st = .accepting) ++
      if result = none then [] else
        asserting "Expecting valid peer socket." (o.acceptingSocket ≠ none) ++
          asserting "Failed to update accepted context on newly connected socket." (c.updated = true)
  | .connect =>
    asserting "NetEndpoint::ESTAT_CONNECTING == st" (st = .connecting) ++
      if result = none then [] else
        asserting "Failed to update connected context on outgoing socket." (c.updated = true)
  | _ => []

/-- What the callback is called with when an overlapped call has ended. -/
def endReport (result : Option ℕ) (bytes : ℕ) (o : NetIoMuxOverlapped) : Action :=
  let ec := if result = none then failingError o.ioType else .success
  match o.ioType with
  | .accept => o.report ec (if result = none then .null else .tep o.acceptingSocket) none 0
  | .connect => o.report ec .null none 0
  | .recvFrom => o.report ec .peerData o.buf (result.getD bytes)
  | .sendTo => o.report ec .peerData o.buf (result.getD bytes)
  | _ => o.report ec .null o.buf (result.getD bytes)

/-- Whether the call that has ended accepted a connection. -/
def Accepts (result : Option ℕ) (o : NetIoMuxOverlapped) : Prop := o.ioType = .accept ∧ result ≠ none

instance (result : Option ℕ) (o : NetIoMuxOverlapped) : Decidable (Accepts result o) :=
  inferInstanceAs (Decidable (_ ∧ _))

end Completion

namespace State

variable {n : ℕ}

/-- The switch for a record whose overlapped call has ended. The endpoint that is made for an
accepted socket joins, if it gets a handle. -/
def conclude (s : State n) (w : Fin n) (p : Packet) (st : EStatus) (result : Option ℕ)
    (o : NetIoMuxOverlapped) (c : Winsock) (provisioning handle : Bool) : State n :=
  let written := (s.writeStatus p.key (endStatus result o.ioType)).socket
  { s with
    socket :=
      if Accepts result o then
        Function.update written s.nextEp
          ⟨if provisioning then .connected else .invalid, if handle then .live false false else .null⟩
      else written
    nextEp := if Accepts result o then s.nextEp + 1 else s.nextEp
    worker := Function.update s.worker w (.reported p.key p.odata)
    log := s.log ++ [⟨p.odata, p.key, endReport result p.bytes o⟩]
    failed := s.failed ++ endMessages c st result o ++
      if Accepts result o then asserting "Unable to join a netendpoint to mux." (handle = true) else [] }

/-- The switch for a record that was not fired, up to the overlapped call. -/
def initiate (s : State n) (w : Fin n) (p : Packet) (st : EStatus) (o : NetIoMuxOverlapped) (c : Winsock) :
    State n :=
  match prepare c st (s.socket p.key).endpoint.hasContext o with
  | .refused ec tepOrPeer buf messages =>
    ((s.fail messages).logged p.key p.odata (o.report ec tepOrPeer buf 0)).setWorker w (.reported p.key p.odata)
  | .unrecognized => (s.fail ["Unrecognized EIoType."]).setWorker w (.reported p.key p.odata)
  | .ready pending =>
    ((s.writeStatus p.key pending).setRecord p.odata (some (o.fire c))).setWorker w (.launching p.key p.odata)

/-- The buffers once the switch got as far as it does. -/
def freed (s : State n) (p : Packet) (st : EStatus) (o : NetIoMuxOverlapped) : State n :=
  { s with
    host := if Resolves st (s.socket p.key).endpoint.hasContext o then Function.update s.host p.odata false
      else s.host }

def act (s : State n) (w : Fin n) (c : Winsock) (provisioning handle : Bool) : Except Fault (State n) :=
  match s.worker w with
  | .observed p st result =>
    match s.record p.odata with
    | none => .error .useAfterFree
    | some o =>
      if o.fired = true ∧ o.ioType ≠ .invalid then .ok (s.conclude w p st result o c provisioning handle)
      else if Resolves st (s.socket p.key).endpoint.hasContext o ∧ s.host p.odata = false then
        .error .useAfterFree
      else .ok ((s.freed p st o).initiate w p st o c)
  | _ => .ok s

/-- The function that the overlapped call of an accept or a connect goes through. -/
def pointer (s : State n) (ep : ℕ) (type : EIoType) : Except Fault Unit :=
  match type with
  | .accept =>
    match (s.socket ep).context with
    | .live true _ => .ok ()
    | .deleted => .error .useAfterFree
    | _ => .error .nullDereference
  | .connect =>
    match (s.socket ep).context with
    | .live _ true => .ok ()
    | .deleted => .error .useAfterFree
    | _ => .error .nullDereference
  | _ => .ok ()

def launch (s : State n) (w : Fin n) (c : Winsock) : Except Fault (State n) :=
  match s.worker w with
  | .launching key odata =>
    match s.record odata with
    | none => .error .useAfterFree
    | some o =>
      match s.pointer key o.ioType with
      | .error e => .error e
      | .ok _ =>
        if c.immediate = true ∨ c.lastError = ERROR_IO_PENDING then
          .ok (((s.toKernel key odata).logged key odata (.submit true)).setWorker w .idle)
        else .ok ((s.logged key odata (.submit false)).setWorker w (.rejected key odata))
  | _ => .ok s

def reject (s : State n) (w : Fin n) : Except Fault (State n) :=
  match s.worker w with
  | .rejected key odata =>
    match s.record odata with
    | none => .error .useAfterFree
    | some o =>
      .ok (((s.writeStatus key (failingStatus o.ioType)).logged key odata
        (o.report (failingError o.ioType) (failingPeer o.ioType) (failingBuf o) 0)).setWorker w
          (.reported key odata))
  | _ => .ok s

def recycle (s : State n) (w : Fin n) : Except Fault (State n) :=
  match s.worker w with
  | .reported key odata =>
    match s.record odata with
    | none => .error .useAfterFree
    | some _ => .ok (((s.setRecord odata none).logged key odata .recycle).setWorker w .idle)
  | _ => .ok s

def complete (s : State n) (odata : ℕ) (ret : Bool) (bytes : ℕ) : State n :=
  match s.kernel.find? (fun k => k.2 = odata) with
  | none => s
  | some k =>
    { s with
      kernel := s.kernel.erase k
      port := s.port ++ [⟨k.1, k.2, ret, bytes⟩]
      succeeded := if ret then s.succeeded ++ [odata] else s.succeeded }

def initial (n : ℕ) : State n where
  socket _ := ⟨.invalid, .null⟩
  nextEp := 0
  record _ := none
  nextRecord := 0
  host _ := false
  port := []
  kernel := []
  worker _ := .idle
  posted := []
  lost := []
  succeeded := []
  log := []
  failed := []

end State

def step {n : ℕ} (s : State n) : Label n → Except Fault (State n)
  | .create status => .ok (s.create status)
  | .join ep handle => .ok (s.join ep handle)
  | .depart ep => s.depart ep
  | .async ep call ioctl queued => s.async ep call ioctl queued
  | .dequeue w => .ok (s.dequeue w)
  | .observe w result => s.observe w result
  | .act w c provisioning handle => s.act w c provisioning handle
  | .launch w c => s.launch w c
  | .reject w => s.reject w
  | .recycle w => s.recycle w
  | .complete odata ret bytes => .ok (s.complete odata ret bytes)

end LibXpf.NetIoMux.Iocp
