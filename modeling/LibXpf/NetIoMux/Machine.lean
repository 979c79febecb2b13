import LibXpf.Foundation.GuardedRuns
import LibXpf.NetIoMux.Operations
import Mathlib.Logic.Function.Basic

/-! # The multiplexer as a machine

Any number of workers call `runOnce` while other threads submit operations. What
a worker does under the lock of a context, or in one call of a list or of the
kernel, is one step, and `Pc` names the places in between. The kernel decides
which events a wait returns and how a connection attempt ends; an event disarms
what delivered it. A step that the state does not allow leaves the state alone.
-/
namespace LibXpf.NetIoMux
open GuardedRuns

inductive Backend where
  | epoll
  | kqueue
  deriving DecidableEq, Repr

def MAX_EVENTS_AT_ONCE : ℕ := 128
def MAX_READY_LIST_LEN : ℕ := 10240

section Kernel

/-- The kernel's side of a socket: what it is armed for, and how far connecting got.
`registered` tells whether an epoll set holds it. -/
structure Descriptor where
  registered : Bool
  armedIn : Bool
  armedOut : Bool
  connection : Connection
  deriving DecidableEq, Repr

/-- An event. `error` is `EPOLLERR` or `EPOLLHUP` for epoll and `EV_EOF` for kqueue,
where an event is of one filter. -/
structure Event where
  ep : ℕ
  readable : Bool
  writable : Bool
  error : Bool
  deriving DecidableEq, Repr

namespace Descriptor

/-- The one-shot interest set at the end of the ready section. `EPOLL_CTL_MOD` replaces
the mask, `EV_ADD` leaves the other filter as it is. -/
def arm (b : Backend) (rd wr : Bool) (d : Descriptor) : Descriptor :=
  match b with
  | .epoll => if rd || wr then { d with registered := true, armedIn := rd, armedOut := wr } else d
  | .kqueue => { d with armedIn := d.armedIn || rd, armedOut := d.armedOut || wr }

/-- The events the kernel may return for a socket. -/
def Deliverable (b : Backend) (d : Descriptor) (e : Event) : Prop :=
  match b with
  | .epoll =>
    (d.armedIn = true ∨ d.armedOut = true) ∧ (e.readable = true → d.armedIn = true) ∧
      (e.writable = true → d.armedOut = true) ∧
      (e.readable = true ∨ e.writable = true ∨ e.error = true)
  | .kqueue =>
    e.readable ≠ e.writable ∧ (e.readable = true → d.armedIn = true) ∧
      (e.writable = true → d.armedOut = true)

instance (b : Backend) (d : Descriptor) (e : Event) : Decidable (d.Deliverable b e) := by
  cases b <;> exact inferInstanceAs (Decidable (_ ∧ _))

def deliver (b : Backend) (e : Event) (d : Descriptor) : Descriptor :=
  match b with
  | .epoll => { d with armedIn := false, armedOut := false }
  | .kqueue =>
    { d with armedIn := d.armedIn && !e.readable, armedOut := d.armedOut && !e.writable }

end Descriptor

/-- What is kept of an endpoint and of its descriptor. -/
structure Socket where
  endpoint : NetEndpoint
  descriptor : Descriptor
  deriving DecidableEq, Repr

/-- One batch of events, `none` if the kernel cannot return it. -/
def harvest (b : Backend) : (ℕ → Socket) → List Event → Option (ℕ → Socket)
  | socket, [] => some socket
  | socket, e :: rest =>
    if (socket e.ep).descriptor.Deliverable b e then
      harvest b (Function.update socket e.ep
        { socket e.ep with descriptor := (socket e.ep).descriptor.deliver b e }) rest
    else none

end Kernel

/-- Where a worker is in `runOnce`. -/
inductive Pc where
  /-- Before the completion list is popped. -/
  | idle
  /-- Before the ready list is popped. -/
  | polled
  /-- It popped an endpoint and `pendingCnt` others were left. -/
  | popped (ep pendingCnt : ℕ)
  /-- It has read the context of that endpoint and waits for its lock. -/
  | fetched (ep pendingCnt : ℕ)
  /-- Before the kernel is asked for events. -/
  | waiting (pendingCnt : ℕ)
  /-- It has these events left. -/
  | handling (evts : List Event)
  /-- It has read the context of the first event left, found it null or not, and waits for its lock. -/
  | holding (null : Bool) (evt : Event) (rest : List Event)
  deriving DecidableEq, Repr

/-- The endpoint a worker popped and has not yet locked. -/
def Pc.serving : Pc → Option ℕ
  | .popped ep _ => some ep
  | .fetched ep _ => some ep
  | _ => none

/-- The events a worker has not processed yet. -/
def Pc.events : Pc → List Event
  | .handling evts => evts
  | .holding _ evt rest => evt :: rest
  | _ => []

/-- The multiplexer with `n` workers. The fields from `submitted` on are history. -/
structure State (n : ℕ) where
  socket : ℕ → Socket
  mCompletionList : List Overlapped
  mReadyList : List ℕ
  worker : Fin n → Pc
  nextOp : ℕ
  nextEp : ℕ
  /-- `depart` calls that have removed the endpoint from the kernel, and whether the kernel had it. -/
  departing : ℕ → Option Bool
  submitted : List Overlapped
  /-- All operations `mCompletionList` ever held, with the connection when they entered. -/
  entered : List (Overlapped × Connection)
  /-- The operations whose callback was called. -/
  popped : List Overlapped
  departed : List (ℕ × Bool)
  failed : List String

inductive Label (n : ℕ) where
  | join (status : EStatus)
  | async (ep : ℕ) (call : AsyncCall)
  | popCompletion (w : Fin n)
  | popReady (w : Fin n)
  | getContext (w : Fin n)
  | processReady (w : Fin n) (results : ℕ → IoResult)
  /-- The kernel returns events, or `none` for `-1`. -/
  | wait (w : Fin n) (evts : Option (List Event))
  | getEventContext (w : Fin n)
  | processEvent (w : Fin n)
  /-- The kernel finishes a connection attempt. -/
  | settle (ep : ℕ) (success : Bool)
  | departKernel (ep : ℕ)
  | departContext (ep : ℕ)

def AsyncContext.empty : AsyncContext := { rdqueue := [], wrqueue := [], ready := false }

def Socket.unused : Socket where
  endpoint := { status := .init, lastPlatformErrno := 0, asyncContext := none }
  descriptor := { registered := false, armedIn := false, armedOut := false, connection := .idle }

/-- A socket that has just joined. -/
def Socket.joined (ep : NetEndpoint) : Socket where
  endpoint := { ep with asyncContext := some AsyncContext.empty }
  descriptor :=
    { registered := false, armedIn := false, armedOut := false
      connection := if ep.status = .connected then .established else .idle }

/-- The sockets of accepted connections take the next free numbers. -/
def joinAll : ℕ → List NetEndpoint → (ℕ → Socket) → ℕ → Socket
  | _, [], socket => socket
  | firstNew, ep :: rest, socket =>
    joinAll (firstNew + 1) rest (Function.update socket firstNew (Socket.joined ep))

namespace State

variable {n : ℕ}

abbrev endpoint (s : State n) (ep : ℕ) : NetEndpoint := (s.socket ep).endpoint

abbrev descriptor (s : State n) (ep : ℕ) : Descriptor := (s.socket ep).descriptor

abbrev context (s : State n) (ep : ℕ) : Option AsyncContext := (s.endpoint ep).asyncContext

def setWorker (s : State n) (w : Fin n) (pc : Pc) : State n :=
  { s with worker := Function.update s.worker w pc }

def setContext (s : State n) (ep : ℕ) (ctx : Option AsyncContext) : State n :=
  { s with
    socket := Function.update s.socket ep
      { s.socket ep with endpoint := { s.endpoint ep with asyncContext := ctx } } }

def setDescriptor (s : State n) (ep : ℕ) (d : Descriptor) : State n :=
  { s with
    socket := Function.update s.socket ep { s.socket ep with descriptor := d } }

def openSocket (s : State n) (status : EStatus) : State n :=
  { s with
    socket := Function.update s.socket s.nextEp
      (Socket.joined { status := status, lastPlatformErrno := 0, asyncContext := none })
    nextEp := s.nextEp + 1 }

/-- Only `performIoLocked` sets the statuses `connecting` and `accepting`, so no
endpoint joins with one of them. -/
def join (s : State n) (status : EStatus) : State n :=
  if status = .connecting ∨ status = .accepting then s else s.openSocket status

end State

/-- The queues and the flag after `appendAsyncOpLocked`. -/
def AsyncContext.append (ctx : AsyncContext) (mode : Mode) (o : Overlapped) : AsyncContext :=
  match mode with
  | .read => { ctx with rdqueue := ctx.rdqueue ++ [o], ready := true }
  | .write => { ctx with wrqueue := ctx.wrqueue ++ [o], ready := true }

namespace State

variable {n : ℕ}

/-- What an `async` function does once it has the context: it makes the operation
and calls `appendAsyncOpLocked`. -/
def submit (s : State n) (ep : ℕ) (ctx : AsyncContext) (call : AsyncCall) : State n :=
  let o := call.overlapped s.nextOp ep
  { s.setContext ep (some (ctx.append call.mode o)) with
    mReadyList := if ctx.ready then s.mReadyList else s.mReadyList ++ [ep]
    nextOp := s.nextOp + 1
    submitted := s.submitted ++ [o] }

def async (s : State n) (ep : ℕ) (call : AsyncCall) : State n :=
  match s.context ep with
  | none => { s with failed := s.failed ++ ["ctx != 0"] }
  | some ctx => s.submit ep ctx call

def popCompletion (s : State n) (w : Fin n) : State n :=
  match s.worker w, s.mCompletionList with
  | .idle, [] => s.setWorker w .polled
  | .idle, co :: rest =>
    { s.setWorker w .polled with mCompletionList := rest, popped := s.popped ++ [co] }
  | _, _ => s

def popReady (s : State n) (w : Fin n) : State n :=
  match s.worker w, s.mReadyList with
  | .polled, [] => s.setWorker w (.waiting 0)
  | .polled, ep :: rest => { s.setWorker w (.popped ep rest.length) with mReadyList := rest }
  | _, _ => s

def getContext (s : State n) (w : Fin n) : State n :=
  match s.worker w with
  | .popped ep pendingCnt =>
    s.setWorker w (if s.context ep = none then .waiting pendingCnt else .fetched ep pendingCnt)
  | _ => s

/-- What the loops over the queues of a locked context leave behind: the
operations that wait on, and the progress made. -/
structure Served where
  rdqueue : List Overlapped
  wrqueue : List Overlapped
  progress : Progress

/-- The progress before the loops. -/
def start (s : State n) (ep : ℕ) : Progress :=
  { ep := s.endpoint ep, connection := (s.descriptor ep).connection
    completed := [], accepted := [], failed := [] }

def performQueues (s : State n) (ep : ℕ) (ctx : AsyncContext) (results : ℕ → IoResult) : Served :=
  let rd := performQueue results s.nextEp ctx.rdqueue (s.start ep)
  let wr := performQueue results s.nextEp ctx.wrqueue rd.2
  { rdqueue := rd.1, wrqueue := wr.1, progress := wr.2 }

/-- The ready section of `runOnce` once the lock is taken. -/
def ready (b : Backend) (s : State n) (ep : ℕ) (ctx : AsyncContext) (results : ℕ → IoResult) :
    State n :=
  let q := s.performQueues ep ctx results
  let p := q.progress
  { s with
    socket := Function.update (joinAll s.nextEp p.accepted s.socket) ep
      { endpoint :=
          { p.ep with
            asyncContext := some { rdqueue := q.rdqueue, wrqueue := q.wrqueue, ready := false } }
        descriptor :=
          ({ s.descriptor ep with connection := p.connection }).arm b
            (!q.rdqueue.isEmpty) (!q.wrqueue.isEmpty) }
    mCompletionList := s.mCompletionList ++ p.completed.map Prod.fst
    entered := s.entered ++ p.completed
    nextEp := s.nextEp + p.accepted.length
    failed := s.failed ++ asserting "Expecting ready flag on for all " (ctx.ready = true) ++ p.failed }

def processReady (b : Backend) (s : State n) (w : Fin n) (results : ℕ → IoResult) :
    Except Fault (State n) :=
  match s.worker w with
  | .fetched ep pendingCnt =>
    match s.context ep with
    | none => .error .useAfterFree
    | some ctx => .ok ((s.ready b ep ctx results).setWorker w (.waiting pendingCnt))
  | _ => .ok s

/-- The place after the events left to a worker. -/
def afterEvents : List Event → Pc
  | [] => .idle
  | e :: rest => .handling (e :: rest)

def wait (b : Backend) (s : State n) (w : Fin n) (evts : Option (List Event)) : State n :=
  match s.worker w with
  | .waiting pendingCnt =>
    if pendingCnt < MAX_READY_LIST_LEN then
      match evts with
      | none => { s.setWorker w .idle with failed := s.failed ++ ["Failed on calling epoll_wait"] }
      | some evts =>
        match harvest b s.socket evts with
        | some socket =>
          if evts.length ≤ MAX_EVENTS_AT_ONCE then
            { s.setWorker w (afterEvents evts) with socket := socket }
          else s
        | none => s
    else s.setWorker w .idle
  | _ => s

def getEventContext (s : State n) (w : Fin n) : State n :=
  match s.worker w with
  | .handling (evt :: rest) => s.setWorker w (.holding (s.context evt.ep).isNone evt rest)
  | _ => s

end State

/-- What the event loop makes of a context: the context itself, the operations it
aborts, and whether the endpoint goes to the ready list. -/
structure Handled where
  ctx : AsyncContext
  aborted : List Overlapped
  listed : Bool

def Overlapped.abort (o : Overlapped) : Overlapped := { o with errorcode := ECONNABORTED }

/-- The body of the event loop once the lock is taken. -/
def AsyncContext.handle (b : Backend) (e : Event) (ctx : AsyncContext) : Handled :=
  match b with
  | .epoll =>
    if e.error then
      { ctx := AsyncContext.empty
        aborted := (ctx.rdqueue ++ ctx.wrqueue).map Overlapped.abort, listed := false }
    else if e.readable || e.writable then
      { ctx := { ctx with ready := true }, aborted := [], listed := true }
    else { ctx := { ctx with ready := false }, aborted := [], listed := false }
  | .kqueue =>
    if e.error then
      if e.readable then
        { ctx := { ctx with rdqueue := [], ready := false }
          aborted := ctx.rdqueue.map Overlapped.abort, listed := false }
      else
        { ctx := { ctx with wrqueue := [], ready := false }
          aborted := ctx.wrqueue.map Overlapped.abort, listed := false }
    else { ctx := { ctx with ready := true }, aborted := [], listed := true }

def nonReadyMessage : Backend → String
  | .epoll => "Expecting non-ready ep in epoll_wait."
  | .kqueue => "Expecting non-ready ep in kqueue."

namespace State

variable {n : ℕ}

def handle (b : Backend) (s : State n) (e : Event) (ctx : AsyncContext) : State n :=
  let h := ctx.handle b e
  { s.setContext e.ep (some h.ctx) with
    mCompletionList := s.mCompletionList ++ h.aborted
    mReadyList := if h.listed then s.mReadyList ++ [e.ep] else s.mReadyList
    entered := s.entered ++ h.aborted.map (fun o => (o, (s.descriptor e.ep).connection))
    failed := s.failed ++ asserting (nonReadyMessage b) (ctx.ready = false) }

def processEvent (b : Backend) (s : State n) (w : Fin n) : Except Fault (State n) :=
  match s.worker w with
  | .holding true _ _ => .error .nullDereference
  | .holding false evt rest =>
    match s.context evt.ep with
    | none => .error .useAfterFree
    | some ctx => .ok ((s.handle b evt ctx).setWorker w (afterEvents rest))
  | _ => .ok s

def settle (s : State n) (ep : ℕ) (success : Bool) : State n :=
  if (s.descriptor ep).connection = .inProgress then
    s.setDescriptor ep
      { s.descriptor ep with connection := if success then .established else .failed }
  else s

/-- `depart` up to the removal from the kernel. A kqueue change list stops at its
first failure, so the write filter stays when there is no read filter. -/
def departKernel (b : Backend) (s : State n) (ep : ℕ) : State n :=
  let d := s.descriptor ep
  if ep < s.nextEp ∧ s.departing ep = none then
    match b with
    | .epoll =>
      { s.setDescriptor ep { d with registered := false, armedIn := false, armedOut := false } with
        departing := Function.update s.departing ep (some d.registered) }
    | .kqueue =>
      { s.setDescriptor ep
          { d with armedIn := false, armedOut := if d.armedIn then false else d.armedOut } with
        departing := Function.update s.departing ep (some (d.armedIn && d.armedOut)) }
  else s

/-- The rest of `depart`. -/
def departContext (s : State n) (ep : ℕ) : State n :=
  match s.departing ep with
  | none => s
  | some removed =>
    match s.context ep with
    | none =>
      { s with
        departing := Function.update s.departing ep none
        departed := s.departed ++ [(ep, false)]
        failed := s.failed ++ ["ctx != 0"] }
    | some ctx =>
      { s.setContext ep none with
        mReadyList := if ctx.ready then s.mReadyList.erase ep else s.mReadyList
        departing := Function.update s.departing ep none
        departed := s.departed ++ [(ep, removed)] }

def initial (n : ℕ) : State n where
  socket := fun _ => Socket.unused
  mCompletionList := []
  mReadyList := []
  worker := fun _ => .idle
  nextOp := 0
  nextEp := 0
  departing := fun _ => none
  submitted := []
  entered := []
  popped := []
  departed := []
  failed := []

end State

def step (b : Backend) {n : ℕ} (s : State n) : Label n → Except Fault (State n)
  | .join status => .ok (s.join status)
  | .async ep call => .ok (s.async ep call)
  | .popCompletion w => .ok (s.popCompletion w)
  | .popReady w => .ok (s.popReady w)
  | .getContext w => .ok (s.getContext w)
  | .processReady w results => s.processReady b w results
  | .wait w evts => .ok (s.wait b w evts)
  | .getEventContext w => .ok (s.getEventContext w)
  | .processEvent w => s.processEvent b w
  | .settle ep success => .ok (s.settle ep success)
  | .departKernel ep => .ok (s.departKernel b ep)
  | .departContext ep => .ok (s.departContext ep)

end LibXpf.NetIoMux
