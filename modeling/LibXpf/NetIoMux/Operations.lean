import LibXpf.Platform

/-! # Asynchronous operations

An `Overlapped` waits in a queue of its endpoint until `performIoLocked` tries
the system call it stands for. The outcome of the call comes from outside, as an
`IoResult`. The epoll and the kqueue multiplexer share this part.
-/
namespace LibXpf.NetIoMux

/-- `NetEndpoint::EStatus`. -/
inductive EStatus where
  | init
  | listening
  | accepting
  | connecting
  | connected
  | closing
  | invalid
  deriving DecidableEq, Repr

/-- `NetEndpoint::EError`. -/
inductive EError where
  | success
  | invalidOp
  | recv
  | send
  | connect
  | bind
  | listen
  | resolve
  | accept
  | shutdown
  | wouldBlock
  deriving DecidableEq, Repr

/-- `NetIoMux::EIoType`. -/
inductive EIoType where
  | invalid
  | recv
  | recvFrom
  | send
  | sendTo
  | accept
  | connect
  deriving DecidableEq, Repr

section Errno

def EAGAIN : ℕ := 11
def EWOULDBLOCK : ℕ := EAGAIN
def ECONNABORTED : ℕ := 103
def EINPROGRESS : ℕ := 115

end Errno

/-- The record of one operation. The multiplexer holds its address, for which the
number `id` stands. Other pointers are options, and of the `Peer` only its
presence is kept. -/
structure Overlapped where
  id : ℕ
  iotype : EIoType
  sep : ℕ
  tep : Option ℕ
  buffer : Option ℕ
  length : ℕ
  peer : Bool
  cb : ℕ
  errorcode : ℕ
  provisioned : Bool
  deriving DecidableEq, Repr

/-- The record of one joined socket. -/
structure AsyncContext where
  rdqueue : List Overlapped
  wrqueue : List Overlapped
  ready : Bool
  deriving DecidableEq, Repr

/-- What the multiplexer reads and writes of an endpoint. -/
structure NetEndpoint where
  status : EStatus
  lastPlatformErrno : ℕ
  asyncContext : Option AsyncContext
  deriving DecidableEq, Repr

/-- How far the kernel is with connecting a socket. -/
inductive Connection where
  | idle
  | inProgress
  | established
  | failed
  deriving DecidableEq, Repr

/-- The outcome of the system call an operation makes when it is tried. -/
structure IoResult where
  /-- What the call returns, `none` for `-1`. -/
  ret : Option ℕ
  errno : ℕ
  /-- Whether `resolvePeer` finds the host. -/
  resolved : Bool
  /-- The value `getsockopt` stores for `SO_ERROR`. -/
  soError : ℕ
  /-- Whether the endpoint made for an accepted socket is usable. -/
  provisioning : Bool
  deriving DecidableEq, Repr

namespace IoResult

/-- A call that would block. -/
def wouldBlock : IoResult :=
  { ret := none, errno := EWOULDBLOCK, resolved := true, soError := 0, provisioning := true }

def transferred (bytes : ℕ) : IoResult :=
  { ret := some bytes, errno := 0, resolved := true, soError := 0, provisioning := true }

def failedWith (errno : ℕ) : IoResult :=
  { ret := none, errno := errno, resolved := true, soError := 0, provisioning := true }

/-- `getsockopt` succeeds and stores `soError`, while `errno` is what it was. -/
def socketError (soError errno : ℕ) : IoResult :=
  { ret := some 0, errno := errno, resolved := true, soError := soError, provisioning := true }

end IoResult

section Submission

/-- The two queues of a context. -/
inductive Mode where
  | read
  | write
  deriving DecidableEq, Repr

/-- The arguments of the `async` functions, but for the endpoint. -/
inductive AsyncCall where
  | recv (buf buflen cb : ℕ)
  | recvFrom (buf buflen cb : ℕ)
  | send (buf buflen cb : ℕ)
  | sendTo (buf buflen cb : ℕ)
  | accept (cb : ℕ)
  | connect (hostInfo cb : ℕ)
  deriving DecidableEq, Repr

/-- The constructor of `Overlapped`. -/
def Overlapped.make (id ep : ℕ) (iocode : EIoType) : Overlapped :=
  { id := id, iotype := iocode, sep := ep, tep := none, buffer := none, length := 0
    peer := false, cb := 0, errorcode := 0, provisioned := false }

def asyncRecv (id ep buf buflen cb : ℕ) : Overlapped :=
  { Overlapped.make id ep .recv with buffer := some buf, length := buflen, cb := cb }

def asyncRecvFrom (id ep buf buflen cb : ℕ) : Overlapped :=
  { Overlapped.make id ep .recvFrom with buffer := some buf, length := buflen, cb := cb, peer := true }

def asyncSend (id ep buf buflen cb : ℕ) : Overlapped :=
  { Overlapped.make id ep .send with buffer := some buf, length := buflen, cb := cb }

def asyncSendTo (id ep buf buflen cb : ℕ) : Overlapped :=
  { Overlapped.make id ep .sendTo with buffer := some buf, length := buflen, cb := cb, peer := true }

def asyncAccept (id ep cb : ℕ) : Overlapped :=
  { Overlapped.make id ep .accept with cb := cb, peer := true }

def asyncConnect (id ep hostInfo cb : ℕ) : Overlapped :=
  { Overlapped.make id ep .connect with cb := cb, buffer := some hostInfo }

def AsyncCall.overlapped (id ep : ℕ) : AsyncCall → Overlapped
  | .recv buf buflen cb => asyncRecv id ep buf buflen cb
  | .recvFrom buf buflen cb => asyncRecvFrom id ep buf buflen cb
  | .send buf buflen cb => asyncSend id ep buf buflen cb
  | .sendTo buf buflen cb => asyncSendTo id ep buf buflen cb
  | .accept cb => asyncAccept id ep cb
  | .connect hostInfo cb => asyncConnect id ep hostInfo cb

/-- The queue that operations of a kind wait in. -/
def EIoType.side : EIoType → Mode
  | .send => .write
  | .sendTo => .write
  | .connect => .write
  | _ => .read

/-- The queue each `async` function appends to. -/
def AsyncCall.mode : AsyncCall → Mode
  | .recv .. => .read
  | .recvFrom .. => .read
  | .send .. => .write
  | .sendTo .. => .write
  | .accept _ => .read
  | .connect .. => .write

end Submission

section PerformIo

/-- The effect of one `performIoLocked`. -/
structure Performed where
  completed : Bool
  ep : NetEndpoint
  op : Overlapped
  /-- The endpoint made for an accepted connection, which joins. -/
  accepted : Option NetEndpoint := none
  /-- What a `connect` call makes of the kernel's connection. -/
  connection : Option Connection := none
  failed : List String := []

/-- An assertion that a build with `NDEBUG` leaves out. -/
def asserting (message : String) (condition : Prop) [Decidable condition] : List String :=
  if condition then [] else [message]

/-- The cases `EIT_RECV`, `EIT_RECVFROM`, `EIT_SEND` and `EIT_SENDTO`, from the system call on. -/
def transferCall (r : IoResult) (ep : NetEndpoint) (o : Overlapped) : Performed :=
  match r.ret with
  | some bytes => { completed := true, ep := ep, op := { o with length := bytes, errorcode := 0 } }
  | none =>
    if r.errno ≠ EWOULDBLOCK ∧ r.errno ≠ EAGAIN then
      { completed := true
        ep := { ep with lastPlatformErrno := r.errno }
        op := { o with length := 0, errorcode := r.errno } }
    else { completed := false, ep := ep, op := o }

def performTransfer (r : IoResult) (ep : NetEndpoint) (o : Overlapped) : Performed :=
  if o.provisioned = false then
    let failed := asserting "Invalid socket status." (EStatus.connected = ep.status)
    if EStatus.connected ≠ ep.status then
      { completed := true, ep := ep, op := { o with length := 0, errorcode := 0 }, failed := failed }
    else transferCall r ep { o with provisioned := true }
  else transferCall r ep o

/-- The case `EIT_ACCEPT`, from the call of `accept` on. -/
def acceptCall (r : IoResult) (ep : NetEndpoint) (o : Overlapped) (tep : ℕ) : Performed :=
  match r.ret with
  | some _ =>
    { completed := true
      ep := { ep with status := .listening }
      op := { o with errorcode := 0, length := 0, tep := some tep }
      accepted := some
        { status := if r.provisioning then .connected else .invalid
          lastPlatformErrno := 0
          asyncContext := none } }
  | none =>
    if r.errno ≠ EWOULDBLOCK ∧ r.errno ≠ EAGAIN then
      { completed := true
        ep := { ep with lastPlatformErrno := r.errno, status := .listening }
        op := { o with tep := none, length := 0, errorcode := r.errno } }
    else { completed := false, ep := { ep with status := .accepting }, op := o }

def performAccept (r : IoResult) (ep : NetEndpoint) (o : Overlapped) (tep : ℕ) : Performed :=
  if o.provisioned = false then
    let failed := asserting "Invalid socket status." (EStatus.listening = ep.status)
    if EStatus.listening ≠ ep.status then
      { completed := true, ep := ep, op := { o with tep := none, length := 0, buffer := none }
        failed := failed }
    else acceptCall r ep { o with provisioned := true } tep
  else acceptCall r ep o tep

/-- The case `EIT_CONNECT` once the operation is provisioned: a nonzero `length`
marks a `connect` call in progress. -/
def connectCall (r : IoResult) (ep : NetEndpoint) (o : Overlapped) : Performed :=
  if o.length = 0 then
    if r.ret = some 0 then
      { completed := true
        ep := { ep with status := .connected }
        op := { o with length := 0, errorcode := 0 }
        connection := some .established }
    else if r.errno ≠ EINPROGRESS then
      { completed := true
        ep := { ep with lastPlatformErrno := r.errno, status := .init }
        op := { o with length := 0, errorcode := r.errno }
        connection := some .failed }
    else
      { completed := false
        ep := { ep with status := .connecting }
        op := { o with length := 1 }
        connection := some .inProgress }
  else
    let failed := if r.ret = some 0 then [] else ["ec == 0"]
    if r.ret = some 0 ∧ r.soError = 0 then
      { completed := true
        ep := { ep with status := .connected }
        op := { o with errorcode := 0, length := 0 }
        failed := failed }
    else
      -- the error reported is `errno`, not the value `getsockopt` stored
      { completed := true
        ep := { ep with lastPlatformErrno := r.errno, status := .init }
        op := { o with errorcode := r.errno, peer := false }
        failed := failed }

def performConnect (r : IoResult) (ep : NetEndpoint) (o : Overlapped) : Performed :=
  if o.provisioned = false then
    let failed := asserting "Invalid socket status." (EStatus.init = ep.status ∧ o.buffer ≠ none)
    if EStatus.init ≠ ep.status ∨ o.buffer = none then
      { completed := true, ep := ep
        op := { o with length := 0, errorcode := 0, peer := false, buffer := none }, failed := failed }
    else if r.resolved = false then
      { completed := true, ep := ep, op := { o with peer := true, length := 0, errorcode := 0 } }
    else connectCall r ep { o with peer := true, provisioned := true }
  else connectCall r ep o

/-- `performIoLocked`; `tep` is the endpoint an accepted connection would get. -/
def performIoLocked (r : IoResult) (ep : NetEndpoint) (o : Overlapped) (tep : ℕ) : Performed :=
  match o.iotype with
  | .recv => performTransfer r ep o
  | .recvFrom => performTransfer r ep o
  | .accept => performAccept r ep o tep
  | .send => performTransfer r ep o
  | .sendTo => performTransfer r ep o
  | .connect => performConnect r ep o
  | .invalid => { completed := true, ep := ep, op := o, failed := ["Unexpected iotype."] }

/-- What the loops over the queues leave behind so far. -/
structure Progress where
  ep : NetEndpoint
  connection : Connection
  /-- The operations pushed to `mCompletionList`, with the connection at that time. -/
  completed : List (Overlapped × Connection)
  accepted : List NetEndpoint
  failed : List String

def Progress.add (p : Progress) (e : Performed) : Progress :=
  { ep := e.ep
    connection := e.connection.getD p.connection
    completed :=
      if e.completed then p.completed ++ [(e.op, e.connection.getD p.connection)] else p.completed
    accepted := p.accepted ++ e.accepted.toList
    failed := p.failed ++ e.failed }

/-- The loop over a queue: it stops at the first operation that would block. -/
def performQueue (results : ℕ → IoResult) (firstNew : ℕ) :
    List Overlapped → Progress → List Overlapped × Progress
  | [], p => ([], p)
  | o :: rest, p =>
    let e := performIoLocked (results o.id) p.ep o (firstNew + p.accepted.length)
    if e.completed then performQueue results firstNew rest (p.add e)
    else (e.op :: rest, p.add e)

end PerformIo

section Delivery

/-- The error a popped operation is reported with. -/
def completionError (co : Overlapped) : EError :=
  match co.iotype with
  | .recv => if co.provisioned = false then .invalidOp else if co.errorcode = 0 then .success else .recv
  | .recvFrom =>
    if co.provisioned = false then .invalidOp else if co.errorcode = 0 then .success else .recv
  | .send => if co.provisioned = false then .invalidOp else if co.errorcode = 0 then .success else .send
  | .sendTo =>
    if co.provisioned = false then .invalidOp else if co.errorcode = 0 then .success else .send
  | .accept =>
    if co.provisioned = false then .invalidOp else if co.errorcode = 0 then .success else .accept
  | .connect =>
    if co.provisioned = false then (if co.peer = false then .invalidOp else .resolve)
    else if co.errorcode = 0 then .success else .connect
  | .invalid => .invalidOp

end Delivery
end LibXpf.NetIoMux
