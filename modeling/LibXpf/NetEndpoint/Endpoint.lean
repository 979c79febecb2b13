import LibXpf.NetIoMux.Operations

/-! # `NetEndpoint` on POSIX

An endpoint makes its system calls one after the other and keeps the `errno` of the
last that failed. What each call makes of its arguments comes from outside. The calls
of an endpoint report an error code, where the caller wants one.
-/
namespace LibXpf.NetEndpoint
open NetIoMux (EStatus EError)

/-- Assertions are checked unless `NDEBUG` is defined. -/
inductive Build where
  | debug
  | ndebug
  deriving DecidableEq

def Build.xpfAssert (build : Build) (message : String) (condition : Prop) [Decidable condition] : Except Fault Unit :=
  match build with
  | .debug => LibXpf.xpfAssert message condition
  | .ndebug => .ok ()

def maxAddrLen : ℕ := 128

def invalidSocket : ℤ := -1

def protocolTCP : ℕ := 0x1
def protocolUDP : ℕ := 0x2
def protocolIPv4 : ℕ := 0x100
def protocolIPv6 : ℕ := 0x200

/-- An address in the form of the system, and its length. -/
structure Peer where
  data : List UInt8
  length : ℕ
  deriving DecidableEq

/-- `address` is the text in front of the first null, or all of the array. -/
structure NetEndpointImpl where
  address : List UInt8
  sockInfo : Peer
  port : ℕ
  protocol : ℕ
  status : EStatus
  socket : ℤ
  errno : ℤ
  deriving DecidableEq

section Outcomes

/-- A call that returns zero if it succeeds. `errno` is what it is after the call. -/
structure SysResult where
  ec : ℤ
  errno : ℤ
  deriving DecidableEq

/-- A call that returns a socket. -/
structure SocketResult where
  socket : ℤ
  errno : ℤ
  deriving DecidableEq

/-- `getaddrinfo`, with the first address of its results. -/
structure Resolution extends SysResult where
  aiAddr : List UInt8
  deriving DecidableEq

/-- `getnameinfo`, with the numeric host and the number that `lexical_cast` reads from the
numeric service. -/
structure NameInfo extends SysResult where
  host : List UInt8
  port : ℕ
  deriving DecidableEq

/-- `getsockname`, with what it stores. -/
structure SockName extends SysResult where
  sockInfo : Peer
  deriving DecidableEq

/-- The calls of `connect`. -/
structure ConnectOutcome where
  resolution : Resolution
  connect : SysResult
  name : NameInfo
  deriving DecidableEq

/-- The calls of `listen`. -/
structure ListenOutcome where
  resolution : Resolution
  bind : SysResult
  listen : SysResult
  name : NameInfo
  deriving DecidableEq

/-- The calls that are made for an accepted socket. -/
structure Provisioning where
  sockname : SockName
  name : NameInfo
  shutdown : SysResult
  deriving DecidableEq

/-- The calls of `accept`. -/
structure AcceptOutcome where
  accept : SocketResult
  provisioning : Provisioning
  deriving DecidableEq

end Outcomes

namespace NetEndpointImpl

section Closing

def saveLastError (e : NetEndpointImpl) (errno : ℤ) : NetEndpointImpl := { e with errno := errno }

def reset (e : NetEndpointImpl) : NetEndpointImpl :=
  { e with
    port := 0
    status := .invalid
    socket := invalidSocket
    errno := 0
    sockInfo := ⟨[], 0⟩
    address := [] }

/-- `shutdown` in one of its directions, which only the system call tells apart. -/
def shutdown (e : NetEndpointImpl) (r : SysResult) : EError × NetEndpointImpl :=
  let e := if r.ec ≠ 0 then e.saveLastError r.errno else e
  (if 0 = r.ec then .success else .shutdown, e)

def close (e : NetEndpointImpl) (r : SysResult) : NetEndpointImpl :=
  let e := { e with status := .closing }
  let e := if e.socket ≠ invalidSocket then (e.shutdown r).2 else e
  e.reset

end Closing

section Construction

/-- The fields before the constructors assign them. -/
def blank (protocol : ℕ) : NetEndpointImpl := ⟨[], ⟨[], 0⟩, 0, protocol, .invalid, invalidSocket, 0⟩

/-- The constructor for a protocol. -/
def create (build : Build) (protocol : ℕ) (r : SocketResult) : Except Fault NetEndpointImpl := do
  let e := { (blank protocol).reset with status := .init }
  let family := protocol &&& protocolIPv4 ≠ 0 ∨ protocol &&& protocolIPv6 ≠ 0
  build.xpfAssert "Invalid procotol specified." family
  if ¬ family then
    return { e with status := .invalid }
  let type := protocol &&& protocolTCP ≠ 0 ∨ protocol &&& protocolUDP ≠ 0
  build.xpfAssert "Invalid procotol specified." type
  if ¬ type then
    return { e with status := .invalid }
  let e := { e with socket := r.socket }
  if invalidSocket = r.socket then
    return { e.saveLastError r.errno with status := .invalid }
  return e

/-- The constructor for a socket that there is. -/
def ofSocket (build : Build) (protocol : ℕ) (socket : ℤ) (status : EStatus) (p : Provisioning) :
    Except Fault NetEndpointImpl := do
  let e := { (blank protocol).reset with status := status, socket := socket, sockInfo := p.sockname.sockInfo }
  build.xpfAssert "Valid socket provisioning." (p.sockname.ec = 0 ∧ p.sockname.sockInfo.length < maxAddrLen)
  if p.sockname.ec = 0 then
    if p.name.ec = 0 then
      return { e with address := p.name.host, port := p.name.port }
    return (e.saveLastError p.name.errno).close p.shutdown
  return (e.saveLastError p.sockname.errno).close p.shutdown

end Construction

section Calls

/-- `memcpy` of an address into a `Peer`. -/
def copyPeer (addr : List UInt8) : Except Fault Peer :=
  if addr.length ≤ maxAddrLen then .ok ⟨addr, addr.length⟩ else .error .outOfBounds

def resolvePeer (r : Resolution) : Except Fault (Option Peer) := do
  if r.ec ≠ 0 then
    return none
  let peer ← copyPeer r.aiAddr
  return some peer

def connect (build : Build) (e : NetEndpointImpl) (addr serviceOrPort : Option (List UInt8)) (o : ConnectOutcome) :
    Except Fault (Bool × EError × NetEndpointImpl) := do
  let addr := addr.getD (chars "localhost")
  build.xpfAssert "Stale endpoint." (EStatus.init = e.status)
  if serviceOrPort = none ∨ EStatus.init ≠ e.status then
    return (false, .invalidOp, e)
  match ← resolvePeer o.resolution with
  | none => return (false, .resolve, e)
  | some peer =>
    build.xpfAssert "Expecting valid results from getaddrinfo()." (peer.length > 0 ∧ peer.length ≤ maxAddrLen)
    if o.connect.ec ≠ 0 then
      return (false, .connect, e.saveLastError o.connect.errno)
    let e := { e with sockInfo := peer, status := .connected }
    if o.name.ec ≠ 0 then
      build.xpfAssert "Expecting getnameinfo succeed after connect." False
      return (true, .success, { e.saveLastError o.name.errno with address := addr.take maxAddrLen, port := 0 })
    return (true, .success, { e with address := o.name.host, port := o.name.port })

/-- Without a host the address is not there to be copied from. -/
def listen (build : Build) (e : NetEndpointImpl) (addr serviceOrPort : Option (List UInt8)) (o : ListenOutcome) :
    Except Fault (Bool × EError × NetEndpointImpl) := do
  build.xpfAssert "Stale endpoint." (EStatus.init = e.status)
  if EStatus.init ≠ e.status ∨ serviceOrPort = none then
    return (false, .invalidOp, e)
  if o.resolution.ec ≠ 0 then
    return (false, .resolve, e.saveLastError o.resolution.errno)
  let results := o.resolution.aiAddr
  build.xpfAssert "Expecting valid results from getaddrinfo()." (results.length > 0 ∧ results.length ≤ maxAddrLen)
  if o.bind.ec ≠ 0 then
    return (false, .bind, e.saveLastError o.bind.errno)
  if e.protocol &&& protocolTCP ≠ 0 ∧ o.listen.ec ≠ 0 then
    return (false, .listen, { e with status := .invalid }.saveLastError o.listen.errno)
  let peer ← copyPeer results
  let e := { e with sockInfo := peer }
  if o.name.ec ≠ 0 then
    build.xpfAssert "Expecting getnameinfo succeed after listen." False
    match addr with
    | none => .error .nullDereference
    | some addr =>
      return (true, .success,
        { e.saveLastError o.name.errno with address := addr.take maxAddrLen, port := 0, status := .listening })
  return (true, .success, { e with address := o.name.host, port := o.name.port, status := .listening })

def accept (build : Build) (e : NetEndpointImpl) (o : AcceptOutcome) :
    Except Fault (Option NetEndpointImpl × EError × NetEndpointImpl) := do
  let isTcp := e.protocol &&& protocolTCP ≠ 0
  build.xpfAssert "Expecting TCP endpoint." isTcp
  build.xpfAssert "Not a listening endpoint." (e.status = .listening)
  if ¬ isTcp ∨ e.status ≠ .listening then
    return (none, .invalidOp, e)
  if o.accept.socket = invalidSocket then
    return (none, .accept, e.saveLastError o.accept.errno)
  let peer ← ofSocket build e.protocol o.accept.socket .connected o.provisioning
  return (some peer, .success, e)

end Calls
end NetEndpointImpl

/-- A call on an endpoint, with what the system makes of it. -/
inductive Call where
  | connect (addr serviceOrPort : Option (List UInt8)) (o : ConnectOutcome)
  | listen (addr serviceOrPort : Option (List UInt8)) (o : ListenOutcome)
  | accept (o : AcceptOutcome)
  | close (r : SysResult)

/-- The endpoint after a call. -/
def step (build : Build) (e : NetEndpointImpl) : Call → Except Fault NetEndpointImpl
  | .connect addr serviceOrPort o => do
    let (_, _, e) ← e.connect build addr serviceOrPort o
    return e
  | .listen addr serviceOrPort o => do
    let (_, _, e) ← e.listen build addr serviceOrPort o
    return e
  | .accept o => do
    let (_, _, e) ← e.accept build o
    return e
  | .close r => return e.close r

end LibXpf.NetEndpoint
