import LibXpf.Foundation.Holdings
import LibXpf.NetEndpoint.Transfers

/-! # The descriptors of a process

A process makes endpoints and releases them. The system opens a descriptor for a socket, and
`::close` gives it back. The endpoints are known by the addresses of their objects.
-/
namespace LibXpf.NetEndpoint
open NetIoMux (EStatus EError)
open GuardedRuns Holdings

/-- Why a run stops: a fault within an endpoint, `::close` of a descriptor that is not open, or a call
on an object that is not there. -/
inductive Stop where
  | fault (f : Fault)
  | badDescriptor
  | noEndpoint
  deriving DecidableEq

structure Process where
  opened : List ℤ
  endpoints : ℕ → Option NetEndpointImpl

inductive Action where
  | create (id protocol : ℕ) (r : SocketResult)
  | createListening (id protocol : ℕ) (r : SocketResult) (addr serviceOrPort : Option (List UInt8)) (o : ListenOutcome)
    (shutdown : SysResult)
  /-- The constructor for a socket, which is accepted elsewhere. -/
  | adopt (id protocol : ℕ) (socket : ℤ) (status : EStatus) (p : Provisioning)
  | connect (id : ℕ) (addr serviceOrPort : Option (List UInt8)) (o : ConnectOutcome)
  | listen (id : ℕ) (addr serviceOrPort : Option (List UInt8)) (o : ListenOutcome)
  | accept (id peer : ℕ) (o : AcceptOutcome)
  | transfer (id : ℕ) (c : Transfer) (r : TransferResult)
  | shutdown (id : ℕ) (r : SysResult)
  | close (id : ℕ) (r : SysResult)
  | release (id : ℕ) (r : SysResult)

namespace Process

def init : Process := ⟨[], fun _ => none⟩

section Steps
variable (build : Build)

def lift {α : Type} : Except Fault α → Except Stop α
  | .ok a => .ok a
  | .error f => .error (.fault f)

/-- `::close`. -/
def closeDescriptor (opened : List ℤ) (fd : ℤ) : Except Stop (List ℤ) :=
  if fd ∈ opened then .ok (opened.erase fd) else .error .badDescriptor

/-- The descriptors after `close` of an endpoint. -/
def closeSocket (opened : List ℤ) (e : NetEndpointImpl) : Except Stop (List ℤ) :=
  if e.socket ≠ invalidSocket then closeDescriptor opened e.socket else .ok opened

/-- The descriptors after the constructor for an accepted socket, which closes it where it is of no use. -/
def provision (opened : List ℤ) (socket : ℤ) (p : Provisioning) : Except Stop (List ℤ) :=
  if p.sockname.ec = 0 ∧ p.name.ec = 0 then .ok (socket :: opened) else closeDescriptor (socket :: opened) socket

/-- The constructor for a protocol comes to `::socket`. -/
def Asks (protocol : ℕ) : Prop :=
  (protocol &&& protocolIPv4 ≠ 0 ∨ protocol &&& protocolIPv6 ≠ 0) ∧
    (protocol &&& protocolTCP ≠ 0 ∨ protocol &&& protocolUDP ≠ 0)

instance (protocol : ℕ) : Decidable (Asks protocol) := inferInstanceAs (Decidable (_ ∧ _))

/-- The descriptors after `::socket`, if the constructor comes to it. -/
def openSocket (opened : List ℤ) (protocol : ℕ) (r : SocketResult) : List ℤ :=
  if Asks protocol ∧ r.socket ≠ invalidSocket then r.socket :: opened else opened

def find (s : Process) (id : ℕ) : Except Stop NetEndpointImpl :=
  match s.endpoints id with
  | some e => .ok e
  | none => .error .noEndpoint

def put (s : Process) (id : ℕ) (e : Option NetEndpointImpl) : Process :=
  { s with endpoints := Function.update s.endpoints id e }

def step (s : Process) : Action → Except Stop Process
  | .create id protocol r => do
    let e ← lift (NetEndpointImpl.create build protocol r)
    return { s with opened := openSocket s.opened protocol r }.put id (some e)
  | .createListening id protocol r addr serviceOrPort o _ => do
    let e ← lift (NetEndpointImpl.create build protocol r)
    let opened := openSocket s.opened protocol r
    let (ok, _, e) ← lift (e.listen build addr serviceOrPort o)
    if ok then
      return { s with opened := opened }.put id (some e)
    let opened ← closeSocket opened e
    return { s with opened := opened }
  | .adopt id protocol socket status p => do
    let e ← lift (NetEndpointImpl.ofSocket build protocol socket status p)
    let opened ← provision s.opened socket p
    return { s with opened := opened }.put id (some e)
  | .connect id addr serviceOrPort o => do
    let e ← s.find id
    let (_, _, e) ← lift (e.connect build addr serviceOrPort o)
    return s.put id (some e)
  | .listen id addr serviceOrPort o => do
    let e ← s.find id
    let (_, _, e) ← lift (e.listen build addr serviceOrPort o)
    return s.put id (some e)
  | .accept id peer o => do
    let e ← s.find id
    let (accepted, _, e) ← lift (e.accept build o)
    match accepted with
    | none => return s.put id (some e)
    | some impl =>
      let opened ← provision s.opened o.accept.socket o.provisioning
      return ({ s with opened := opened }.put id (some e)).put peer (some impl)
  | .transfer id c r => do
    let e ← s.find id
    let (_, _, e) ← lift (c.call build e r)
    return s.put id (some e)
  | .shutdown id r => do
    let e ← s.find id
    return s.put id (some (e.shutdown r).2)
  | .close id r => do
    let e ← s.find id
    let opened ← closeSocket s.opened e
    return { s with opened := opened }.put id (some (e.close r))
  | .release id _ => do
    let e ← s.find id
    let opened ← closeSocket s.opened e
    return { s with opened := opened }.put id none

end Steps

section Promises

/-- A descriptor that the system hands out is not open. -/
def Unused (s : Process) (fd : ℤ) : Prop := fd = invalidSocket ∨ fd ∉ s.opened

instance (s : Process) (fd : ℤ) : Decidable (s.Unused fd) := inferInstanceAs (Decidable (_ ∨ _))

/-- New objects are new, calls are on objects that are there, and the system keeps its promise. -/
def Admits (s : Process) : Action → Prop
  | .create id _ r => s.endpoints id = none ∧ s.Unused r.socket
  | .createListening id _ r _ _ _ _ => s.endpoints id = none ∧ s.Unused r.socket
  | .adopt id _ socket _ _ => s.endpoints id = none ∧ socket ≠ invalidSocket ∧ s.Unused socket
  | .accept id peer o => s.endpoints id ≠ none ∧ s.endpoints peer = none ∧ s.Unused o.accept.socket
  | .connect id _ _ _ | .listen id _ _ _ | .transfer id _ _ | .shutdown id _ | .close id _ | .release id _ =>
    s.endpoints id ≠ none

instance (s : Process) : (a : Action) → Decidable (Admits s a)
  | .create .. | .createListening .. | .adopt .. | .accept .. => inferInstanceAs (Decidable (_ ∧ _))
  | .connect .. | .listen .. | .transfer .. | .shutdown .. | .close .. | .release .. => inferInstanceAs (Decidable (_ ≠ _))

/-- The descriptor that an endpoint has. -/
def descriptor (e : NetEndpointImpl) : Option ℤ := if e.socket = invalidSocket then none else some e.socket

def held (s : Process) (id : ℕ) : Option ℤ := (s.endpoints id).bind descriptor

/-- The call comes to its system calls on the socket. Without one `shutdown` passes
`INVALID_SOCKET`, which is no descriptor, and the other two make no call. -/
def Reaches (e : NetEndpointImpl) : Action → Prop
  | .connect _ _ serviceOrPort _ => serviceOrPort ≠ none ∧ e.status = .init
  | .listen _ _ serviceOrPort _ => serviceOrPort ≠ none ∧ e.status = .init
  | .accept _ _ _ => e.protocol &&& protocolTCP ≠ 0 ∧ e.status = .listening
  | .transfer _ c _ => c.Ready e
  | .shutdown _ _ | .close _ _ | .release _ _ => e.socket ≠ invalidSocket
  | .create .. | .createListening .. | .adopt .. => False

/-- The endpoint that an action is on. -/
def Action.endpoint : Action → Option ℕ
  | .connect id _ _ _ | .listen id _ _ _ | .accept id _ _ | .transfer id _ _ | .shutdown id _ | .close id _ | .release id _ => some id
  | .create .. | .createListening .. | .adopt .. => none

/-- A call that comes to its system calls makes them with an open descriptor. -/
def UsesOwn (s : Process) (a : Action) : Prop :=
  ∀ id ∈ Action.endpoint a, ∀ e ∈ s.endpoints id, Reaches e a → s.held id = some e.socket ∧ e.socket ∈ s.opened

end Promises
section Stopping
variable {α β : Type} {build : Build} {x : Except Fault α}

/-- What goes wrong within an endpoint: an assertion, an address that is longer than its array, and
the host that is missing behind an assertion which is not checked. -/
def Stops (build : Build) : Fault → Prop
  | .assertion _ => build = .debug
  | .outOfBounds => True
  | .nullDereference => build = .ndebug
  | .diverges | .useAfterFree => False

/-- The result is one of these faults, if it is a fault. -/
def Stopping (build : Build) (x : Except Fault α) : Prop := ∀ f, x = .error f → Stops build f

theorem stopping_ok (a : α) : Stopping build (.ok a) := by rintro f ⟨⟩

theorem Stopping.bind {f : α → Except Fault β} (hx : Stopping build x) (hf : ∀ a, x = .ok a → Stopping build (f a)) :
    Stopping build (x >>= f) := by
  cases x with
  | ok a => exact hf a rfl
  | error e =>
    rintro _ ⟨⟩
    exact hx e rfl

theorem stopping_assert (message : String) (condition : Prop) [Decidable condition] :
    Stopping build (build.xpfAssert message condition) := by
  intro f hf
  cases build with
  | ndebug => cases hf
  | debug =>
    rw [Build.xpfAssert, xpfAssert] at hf
    split at hf
    · cases hf
    · cases hf
      rfl

/-- Only an assertion that is not checked lets a call go on that should not. -/
theorem ndebug_of_assert {message : String} {u : Unit} (h : build.xpfAssert message False = .ok u) : build = .ndebug := by
  cases build with
  | ndebug => rfl
  | debug => cases h

theorem stopping_copyPeer (addr : List UInt8) : Stopping build (NetEndpointImpl.copyPeer addr) := by
  intro f hf
  rw [NetEndpointImpl.copyPeer] at hf
  split at hf
  · cases hf
  · cases hf
    trivial

theorem stopping_create (protocol : ℕ) (r : SocketResult) :
    Stopping build (NetEndpointImpl.create build protocol r) := by
  refine (stopping_assert _ _).bind fun _ _ => ?_
  split
  · exact stopping_ok _
  refine (stopping_assert _ _).bind fun _ _ => ?_
  split
  · exact stopping_ok _
  dsimp only
  split <;> exact stopping_ok _

theorem stopping_ofSocket (protocol : ℕ) (socket : ℤ) (status : EStatus) (p : Provisioning) :
    Stopping build (NetEndpointImpl.ofSocket build protocol socket status p) := by
  rw [ofSocket_eq]
  refine (stopping_assert _ _).bind fun _ _ => stopping_ok _

theorem stopping_connect (e : NetEndpointImpl) (addr serviceOrPort : Option (List UInt8)) (o : ConnectOutcome) :
    Stopping build (e.connect build addr serviceOrPort o) := by
  refine (stopping_assert _ _).bind fun _ _ => ?_
  split
  · exact stopping_ok _
  have hresolve : Stopping build (NetEndpointImpl.resolvePeer o.resolution) := by
    rw [NetEndpointImpl.resolvePeer]
    split
    · exact stopping_ok _
    · exact (stopping_copyPeer _).bind fun _ _ => stopping_ok _
  refine hresolve.bind fun peer _ => ?_
  cases peer with
  | none => exact stopping_ok _
  | some peer =>
    refine (stopping_assert _ _).bind fun _ _ => ?_
    split
    · exact stopping_ok _
    dsimp only
    split
    · exact (stopping_assert _ _).bind fun _ _ => stopping_ok _
    · exact stopping_ok _

theorem stopping_listen (e : NetEndpointImpl) (addr serviceOrPort : Option (List UInt8)) (o : ListenOutcome) :
    Stopping build (e.listen build addr serviceOrPort o) := by
  refine (stopping_assert _ _).bind fun _ _ => ?_
  split
  · exact stopping_ok _
  split
  · exact stopping_ok _
  refine (stopping_assert _ _).bind fun _ _ => ?_
  split
  · exact stopping_ok _
  split
  · exact stopping_ok _
  refine (stopping_copyPeer _).bind fun _ _ => ?_
  dsimp only
  split
  · refine (stopping_assert _ _).bind fun _ hasserted => ?_
    cases addr with
    | none =>
      rintro _ ⟨⟩
      exact ndebug_of_assert hasserted
    | some addr => exact stopping_ok _
  · exact stopping_ok _

theorem stopping_accept (e : NetEndpointImpl) (o : AcceptOutcome) : Stopping build (e.accept build o) := by
  refine (stopping_assert _ _).bind fun _ _ => (stopping_assert _ _).bind fun _ _ => ?_
  split
  · exact stopping_ok _
  split
  · exact stopping_ok _
  exact (stopping_ofSocket _ _ _ _).bind fun _ _ => stopping_ok _

/-- The calls for data only assert. -/
theorem stopping_transfer (c : Transfer) (e : NetEndpointImpl) (r : TransferResult) :
    Stopping build (c.call build e r) := by
  have hended : ∀ (refused : Prop) [Decidable refused] (code : EError), Stopping build (do
      if refused then
        return (0, .invalidOp, e)
      return e.moved code r : Except Fault (ℤ × EError × NetEndpointImpl)) := by
    intro refused _ code
    split <;> exact stopping_ok _
  cases c with
  | recv =>
    unfold Transfer.call NetEndpointImpl.recv
    dsimp only
    split <;> exact (stopping_assert _ _).bind fun _ _ => hended _ _
  | recvFrom peer =>
    exact (stopping_assert _ _).bind fun _ _ => (stopping_assert _ _).bind fun _ _ =>
      (stopping_assert _ _).bind fun _ _ => hended _ _
  | send => exact (stopping_assert _ _).bind fun _ _ => hended _ _
  | sendTo peer =>
    exact (stopping_assert _ _).bind fun _ _ => (stopping_assert _ _).bind fun _ _ =>
      (stopping_assert _ _).bind fun _ _ => hended _ _

end Stopping

section Kept
variable {α β : Type} {P : α → Prop} {Q : β → Prop} {build : Build}

/-- A result satisfies a predicate, or is a fault within an endpoint. -/
def Kept (build : Build) (P : α → Prop) : Except Stop α → Prop
  | .ok a => P a
  | .error e => ∃ f, e = .fault f ∧ Stops build f

theorem Kept.bind {x : Except Stop α} {f : α → Except Stop β} (hx : Kept build P x)
    (hf : ∀ a, P a → Kept build Q (f a)) : Kept build Q (x >>= f) := by
  cases x with
  | ok a => exact hf a hx
  | error e => exact hx

theorem kept_lift {x : Except Fault α} (hx : Stopping build x) (h : IfReturns x P) : Kept build P (lift x) := by
  cases x with
  | ok a => exact h a rfl
  | error f => exact ⟨f, rfl, hx f rfl⟩

end Kept

section Descriptors
variable {build : Build} {s : Process} {id : ℕ} {e e' : NetEndpointImpl} {fd : ℤ} {held : ℕ → Option ℤ} {opened : List ℤ}

theorem descriptor_invalid (h : e.socket = invalidSocket) : descriptor e = none := if_pos h

theorem descriptor_valid (h : e.socket ≠ invalidSocket) : descriptor e = some e.socket := if_neg h

theorem endpoints_put (s : Process) (id : ℕ) (e : Option NetEndpointImpl) :
    (s.put id e).endpoints = Function.update s.endpoints id e := rfl

theorem held_put (s : Process) (id : ℕ) (e : Option NetEndpointImpl) :
    (s.put id e).held = Function.update s.held id (e.bind descriptor) := by
  funext k
  by_cases heq : k = id
  · rw [heq, Function.update_self, Process.held, endpoints_put, Function.update_self]
  · rw [Function.update_of_ne heq, Process.held, endpoints_put, Function.update_of_ne heq, Process.held]

theorem held_none (h : s.endpoints id = none) : s.held id = none := by rw [Process.held, h, Option.bind_none]

theorem held_some (h : s.endpoints id = some e) : s.held id = descriptor e := by rw [Process.held, h, Option.bind_some]

theorem closeSocket_kept (h : Exact held opened) (hid : held id = descriptor e) :
    Kept build (Exact (Function.update held id none)) (closeSocket opened e) := by
  by_cases hsocket : e.socket = invalidSocket
  · rw [descriptor_invalid hsocket] at hid
    rw [closeSocket, if_neg (not_not.mpr hsocket), ← hid, Function.update_eq_self]
    exact h
  · rw [descriptor_valid hsocket] at hid
    rw [closeSocket, if_pos hsocket, closeDescriptor, if_pos (h.opened_of_held hid)]
    exact h.drop hid

theorem provision_kept (h : Exact held opened) (hid : held id = none) (hfd : fd ∉ opened) (p : Provisioning) :
    Kept build (Exact (Function.update held id (if p.failure = none then some fd else none))) (provision opened fd p) := by
  have hfailure : p.failure = none ↔ p.sockname.ec = 0 ∧ p.name.ec = 0 := by
    rw [Provisioning.failure]
    split_ifs with hsockname hname
    · exact iff_of_false (by rintro ⟨⟩) fun h => hsockname h.1
    · exact iff_of_false (by rintro ⟨⟩) fun h => hname h.2
    · exact iff_of_true rfl ⟨not_not.mp hsockname, not_not.mp hname⟩
  by_cases hgood : p.sockname.ec = 0 ∧ p.name.ec = 0
  · rw [provision, if_pos hgood, if_pos (hfailure.mpr hgood)]
    exact h.acquire hid hfd
  · rw [provision, if_neg hgood, if_neg (hfailure.not.mpr hgood), closeDescriptor, if_pos List.mem_cons_self,
      List.erase_cons_head, ← hid, Function.update_eq_self]
    exact h

theorem create_socket (protocol : ℕ) (r : SocketResult) :
    IfReturns (NetEndpointImpl.create build protocol r) fun e =>
      e.socket = if Asks protocol then r.socket else invalidSocket := by
  refine IfReturns.bind fun _ _ => ?_
  split
  next hfamily => exact ifReturns_ok.mpr (if_neg fun h => hfamily h.1).symm
  next hfamily =>
    refine IfReturns.bind fun _ _ => ?_
    split
    next htype => exact ifReturns_ok.mpr (if_neg fun h => htype h.2).symm
    next htype =>
      have hasks : Asks protocol := ⟨not_not.mp hfamily, not_not.mp htype⟩
      dsimp only
      rw [if_pos hasks]
      split
      · exact ifReturns_ok.mpr rfl
      · exact ifReturns_ok.mpr rfl

theorem ofSocket_descriptor (protocol : ℕ) (socket : ℤ) (status : EStatus) (p : Provisioning) (h : socket ≠ invalidSocket) :
    IfReturns (NetEndpointImpl.ofSocket build protocol socket status p) fun e =>
      descriptor e = (if p.failure = none then some socket else none) ∧ Usable e := by
  rw [ofSocket_eq]
  refine IfReturns.bind fun _ _ => ifReturns_ok.mpr ?_
  split
  · exact ⟨descriptor_valid h, fun _ => h⟩
  · exact ⟨descriptor_invalid rfl, by simp [Usable, NetEndpointImpl.blank]⟩

/-- `accept` comes back with an endpoint for the new descriptor, or with none. -/
theorem accept_descriptor (o : AcceptOutcome) :
    IfReturns (e.accept build o) fun r =>
      r.2.2.socket = e.socket ∧ r.2.2.status = e.status ∧
        ∀ peer ∈ r.1, o.accept.socket ≠ invalidSocket ∧
          descriptor peer = (if o.provisioning.failure = none then some o.accept.socket else none) ∧ Usable peer := by
  refine IfReturns.bind fun _ _ => IfReturns.bind fun _ _ => ?_
  split
  · exact ifReturns_ok.mpr ⟨rfl, rfl, by rintro peer ⟨⟩⟩
  split
  · exact ifReturns_ok.mpr ⟨rfl, rfl, by rintro peer ⟨⟩⟩
  next hsocket =>
    refine IfReturns.bind fun peer hpeer => ifReturns_ok.mpr ⟨rfl, rfl, ?_⟩
    rintro _ ⟨⟩
    exact ⟨hsocket, ofSocket_descriptor _ _ _ _ hsocket peer hpeer⟩

end Descriptors

section Runs
variable {build : Build} {s : Process} {id : ℕ} {e e' : NetEndpointImpl}

/-- The descriptors that are open are held by the endpoints, one each. -/
structure Sound (s : Process) : Prop where
  exact : Exact s.held s.opened
  usable : ∀ id, ∀ e ∈ s.endpoints id, Usable e

theorem usable_put (h : ∀ id, ∀ e ∈ s.endpoints id, Usable e) {x : Option NetEndpointImpl} (hx : ∀ e ∈ x, Usable e) :
    ∀ k, ∀ e ∈ (s.put id x).endpoints k, Usable e := by
  intro k e he
  by_cases heq : k = id
  · rw [heq, endpoints_put, Function.update_self] at he
    exact hx e he
  · rw [endpoints_put, Function.update_of_ne heq] at he
    exact h k e he

/-- A call on an endpoint that leaves its socket alone. -/
theorem Sound.keep (h : Sound s) (hid : s.endpoints id = some e) (hsocket : e'.socket = e.socket) (husable : Usable e') :
    Sound (s.put id (some e')) := by
  have hheld : (s.put id (some e')).held = s.held := by
    rw [held_put, Option.bind_some, descriptor, hsocket, ← descriptor, ← held_some hid, Function.update_eq_self]
  refine ⟨?_, usable_put h.usable fun _ hmem => Option.some.inj hmem ▸ husable⟩
  rw [hheld]
  exact h.exact

theorem kept_find {Q : Process → Prop} {f : NetEndpointImpl → Except Stop Process} (hid : s.endpoints id ≠ none)
    (h : ∀ e, s.endpoints id = some e → Kept build Q (f e)) : Kept build Q (s.find id >>= f) := by
  rw [find]
  cases he : s.endpoints id with
  | none => exact absurd he hid
  | some e => exact h e he

theorem blank_usable (protocol : ℕ) : Usable (NetEndpointImpl.blank protocol) := by simp [Usable, NetEndpointImpl.blank]

theorem reached_socket {status : EStatus} {r : Bool × EError × NetEndpointImpl} (h : Reached e status r) :
    r.2.2.socket = e.socket := by
  cases h with
  | failed code e' hcode hsocket hstatus => exact hsocket
  | succeeded e' hinit hsocket hstatus => exact hsocket

theorem usable_of_same (h : Usable e) (hsocket : e'.socket = e.socket) (hstatus : e'.status = e.status) : Usable e' := by
  rw [Usable, hsocket, hstatus]
  exact h

/-- A new endpoint has the descriptor that its constructor has opened. -/
theorem open_exact (h : Exact s.held s.opened) (hid : s.endpoints id = none) {protocol : ℕ} {r : SocketResult}
    (hr : s.Unused r.socket) (he : e.socket = if Asks protocol then r.socket else invalidSocket) :
    Exact (Function.update s.held id (descriptor e)) (openSocket s.opened protocol r) := by
  by_cases hasks : Asks protocol ∧ r.socket ≠ invalidSocket
  · rw [if_pos hasks.1] at he
    rw [openSocket, if_pos hasks, descriptor_valid (he ▸ hasks.2), he]
    exact h.acquire (held_none hid) (hr.resolve_left hasks.2)
  · have hinvalid : e.socket = invalidSocket := by
      rw [he]
      split
      next h => exact not_not.mp fun hne => hasks ⟨h, hne⟩
      next => rfl
    rw [openSocket, if_neg hasks, descriptor_invalid hinvalid, ← held_none hid, Function.update_eq_self]
    exact h

theorem create_sound (h : Sound s) (hid : s.endpoints id = none) {protocol : ℕ} {r : SocketResult} (hr : s.Unused r.socket) :
    Kept build Sound (step build s (.create id protocol r)) := by
  refine (kept_lift (stopping_create protocol r) fun e he => And.intro (create_socket protocol r e he) (create_usable protocol r e he)).bind ?_
  rintro e ⟨hsocket, husable⟩
  refine ⟨?_, usable_put (s := { s with opened := _ }) h.usable fun _ hmem => Option.some.inj hmem ▸ husable⟩
  rw [held_put]
  exact open_exact h.exact hid hr hsocket

/-- The endpoint that does not come to listen is released at once. -/
theorem createListening_sound (h : Sound s) (hid : s.endpoints id = none) {protocol : ℕ} {r : SocketResult}
    (hr : s.Unused r.socket) (addr serviceOrPort : Option (List UInt8)) (o : ListenOutcome) (shutdown : SysResult) :
    Kept build Sound (step build s (.createListening id protocol r addr serviceOrPort o shutdown)) := by
  refine (kept_lift (stopping_create protocol r) fun e he => And.intro (create_socket protocol r e he) (create_usable protocol r e he)).bind ?_
  rintro e ⟨hsocket, husable⟩
  refine (kept_lift (stopping_listen _ addr serviceOrPort o) (listen_reached addr serviceOrPort o)).bind fun q hq => ?_
  have hexact := open_exact h.exact hid hr hsocket
  have hdescriptor : descriptor q.2.2 = descriptor e := by rw [descriptor, reached_socket hq, descriptor]
  rw [← hdescriptor] at hexact
  dsimp only
  split
  · refine ⟨?_, usable_put (s := { s with opened := _ }) h.usable fun _ hmem => Option.some.inj hmem ▸ hq.usable husable⟩
    rw [held_put]
    exact hexact
  · have hclose : Kept build _ (closeSocket _ q.2.2) := closeSocket_kept hexact (Function.update_self id _ s.held)
    rw [Function.update_idem, ← held_none hid, Function.update_eq_self] at hclose
    exact hclose.bind fun opened hopened => ⟨hopened, h.usable⟩

theorem adopt_sound (h : Sound s) (hid : s.endpoints id = none) {socket : ℤ} (hvalid : socket ≠ invalidSocket)
    (hunused : s.Unused socket) (protocol : ℕ) (status : EStatus) (p : Provisioning) :
    Kept build Sound (step build s (.adopt id protocol socket status p)) := by
  refine (kept_lift (stopping_ofSocket protocol socket status p) (ofSocket_descriptor protocol socket status p hvalid)).bind ?_
  rintro e ⟨hdescriptor, husable⟩
  refine (provision_kept h.exact (held_none hid) (hunused.resolve_left hvalid) p).bind fun opened hopened => ?_
  refine ⟨?_, usable_put (s := { s with opened := _ }) h.usable fun _ hmem => Option.some.inj hmem ▸ husable⟩
  rw [held_put, Option.bind_some, hdescriptor]
  exact hopened

theorem accept_sound (h : Sound s) (hid : s.endpoints id ≠ none) {peer : ℕ} (hpeer : s.endpoints peer = none) {o : AcceptOutcome}
    (hunused : s.Unused o.accept.socket) : Kept build Sound (step build s (.accept id peer o)) := by
  refine kept_find hid fun e he => ?_
  refine (kept_lift (stopping_accept e o) fun r hr => And.intro (accept_descriptor o r hr) (accept_usable o (h.usable id e he) r hr)).bind ?_
  rintro ⟨accepted, code, e'⟩ ⟨⟨hsocket, hstatus, hpeers⟩, husable⟩
  cases accepted with
  | none => exact h.keep he hsocket husable
  | some impl =>
    obtain ⟨hvalid, hdescriptor, husable'⟩ := hpeers impl rfl
    have hkeep := h.keep he hsocket husable
    have hnone : (s.put id (some e')).endpoints peer = none := by
      have hne : peer ≠ id := by
        rintro rfl
        exact hid hpeer
      rw [endpoints_put, Function.update_of_ne hne]
      exact hpeer
    refine (provision_kept hkeep.exact (held_none hnone) (hunused.resolve_left hvalid) o.provisioning).bind fun opened hopened => ?_
    refine ⟨?_, usable_put (s := { s.put id (some e') with opened := _ }) hkeep.usable
      fun _ hmem => Option.some.inj hmem ▸ husable'⟩
    rw [held_put, Option.bind_some, hdescriptor]
    exact hopened

theorem moved_same (e : NetEndpointImpl) (code : EError) (r : TransferResult) :
    (e.moved code r).2.2.socket = e.socket ∧ (e.moved code r).2.2.status = e.status := by
  rw [NetEndpointImpl.moved]
  split <;> exact ⟨rfl, rfl⟩

theorem transfer_same (c : Transfer) (r : TransferResult) :
    IfReturns (c.call build e r) fun q => q.2.2.socket = e.socket ∧ q.2.2.status = e.status := by
  intro q hq
  rw [transfer_eq c q hq]
  split
  · exact moved_same e c.error r
  · exact ⟨rfl, rfl⟩

theorem shutdown_same (e : NetEndpointImpl) (r : SysResult) :
    (e.shutdown r).2.socket = e.socket ∧ (e.shutdown r).2.status = e.status := by
  rw [NetEndpointImpl.shutdown]
  dsimp only
  split <;> exact ⟨rfl, rfl⟩

/-- Every action keeps the descriptors with the endpoints, and closes none that is not open. -/
theorem step_sound (h : Sound s) {a : Action} (ha : Admits s a) : Kept build Sound (step build s a) := by
  cases a with
  | create id protocol r => exact create_sound h ha.1 ha.2
  | createListening id protocol r addr serviceOrPort o shutdown =>
    exact createListening_sound h ha.1 ha.2 addr serviceOrPort o shutdown
  | adopt id protocol socket status p => exact adopt_sound h ha.1 ha.2.1 ha.2.2 protocol status p
  | connect id addr serviceOrPort o =>
    refine kept_find ha fun e he => (kept_lift (stopping_connect e addr serviceOrPort o) (connect_reached addr serviceOrPort o)).bind fun r hr => ?_
    exact h.keep he (reached_socket hr) (hr.usable (h.usable id e he))
  | listen id addr serviceOrPort o =>
    refine kept_find ha fun e he => (kept_lift (stopping_listen _ addr serviceOrPort o) (listen_reached addr serviceOrPort o)).bind fun r hr => ?_
    exact h.keep he (reached_socket hr) (hr.usable (h.usable id e he))
  | accept id peer o => exact accept_sound h ha.1 ha.2.1 ha.2.2
  | transfer id c r =>
    refine kept_find ha fun e he => (kept_lift (stopping_transfer c e r) (transfer_same c r)).bind fun q hq => ?_
    exact h.keep he hq.1 (usable_of_same (h.usable id e he) hq.1 hq.2)
  | shutdown id r =>
    refine kept_find ha fun e he => ?_
    have hsame := shutdown_same e r
    exact h.keep he hsame.1 (usable_of_same (h.usable id e he) hsame.1 hsame.2)
  | close id r =>
    refine kept_find ha fun e he => (closeSocket_kept h.exact (held_some he)).bind fun opened hopened => ?_
    rw [close_eq]
    refine ⟨?_, usable_put (s := { s with opened := _ }) h.usable fun _ hmem => Option.some.inj hmem ▸ blank_usable e.protocol⟩
    rw [held_put]
    exact hopened
  | release id r =>
    refine kept_find ha fun e he => (closeSocket_kept h.exact (held_some he)).bind fun opened hopened => ?_
    refine ⟨?_, usable_put (s := { s with opened := _ }) h.usable fun _ hmem => absurd hmem (Option.not_mem_none _)⟩
    rw [held_put]
    exact hopened

theorem reaches_socket {a : Action} (husable : Usable e) (h : Reaches e a) : e.socket ≠ invalidSocket := by
  cases a with
  | connect id addr serviceOrPort o => exact husable (.inl h.2)
  | listen id addr serviceOrPort o => exact husable (.inl h.2)
  | accept id peer o => exact husable (.inr (.inl h.2))
  | transfer id c r =>
    apply husable
    cases c with
    | recv =>
      change (if e.protocol &&& protocolTCP ≠ 0 then e.status = .connected else e.status = .listening) at h
      split at h
      · exact .inr (.inr h)
      · exact .inr (.inl h)
    | recvFrom peer => exact .inr h.2.2.symm
    | send => exact .inr (.inr h)
    | sendTo peer => exact .inr (.inr h.2.2)
  | shutdown id r => exact h
  | close id r => exact h
  | release id r => exact h
  | _ => cases h

theorem uses_own (h : Sound s) (a : Action) : UsesOwn s a := by
  intro id _ e he hreaches
  have hvalid := reaches_socket (h.usable id e he) hreaches
  have hheld : s.held id = some e.socket := (held_some he).trans (descriptor_valid hvalid)
  exact ⟨hheld, h.exact.opened_of_held hheld⟩

theorem sound_init : Sound init := ⟨exact_none, by rintro id e ⟨⟩⟩

/-- In every state of a process the open descriptors are the sockets of its endpoints, one for each of
them. Calls use the descriptor of their endpoint, and no descriptor is closed that is not open. -/
theorem descriptors_untilFault (build : Build) (as : List Action) (h : Along (step build) Admits init as) :
    UntilFault (step build) (fun s => Exact s.held s.opened) init as ∧ Along (step build) UsesOwn init as ∧
      ∀ e, final (step build) init as = .error e → ∃ f, e = .fault f ∧ Stops build f := by
  have hkeep : ∀ s a t, Sound s → Admits s a → step build s a = .ok t → Sound t := by
    intro s a t hs ha ht
    have hkept : Kept build Sound (step build s a) := step_sound hs ha
    rwa [ht] at hkept
  have hfault : ∀ s a e, Sound s → Admits s a → step build s a = .error e → ∃ f, e = .fault f ∧ Stops build f := by
    intro s a e hs ha he
    have hkept : Kept build Sound (step build s a) := step_sound hs ha
    rwa [he] at hkept
  refine ⟨?_, along_of_preserved hkeep (fun s a hs _ => uses_own hs a) sound_init h, fun e he => final_error hkeep hfault sound_init h he⟩
  exact (untilFault_of_preserved hkeep sound_init h).mono fun s hs => hs.exact

/-- A server, a client that it closes, and one whose name it does not learn. -/
def serverRun : List Action :=
  [.createListening 0 (protocolTCP ||| protocolIPv4) ⟨3, 0⟩ none (some (chars "7"))
      ⟨⟨⟨0, 0⟩, [2]⟩, ⟨0, 0⟩, ⟨0, 0⟩, ⟨⟨0, 0⟩, chars "0.0.0.0", 7⟩⟩ ⟨0, 0⟩,
   .accept 0 1 ⟨⟨4, 0⟩, ⟨⟨⟨0, 0⟩, ⟨[2], 1⟩⟩, ⟨⟨0, 0⟩, chars "127.0.0.1", 9⟩, ⟨0, 0⟩⟩⟩,
   .transfer 1 .recv ⟨12, 0⟩,
   .accept 0 2 ⟨⟨5, 0⟩, ⟨⟨⟨0, 0⟩, ⟨[2], 1⟩⟩, ⟨⟨-11, 105⟩, [], 0⟩, ⟨0, 105⟩⟩⟩,
   .shutdown 1 ⟨0, 0⟩, .close 1 ⟨0, 0⟩, .release 1 ⟨0, 0⟩, .release 2 ⟨0, 0⟩, .release 0 ⟨0, 0⟩]

theorem descriptors_untilFault_serverRun :
    UntilFault (step .debug) (fun s => Exact s.held s.opened) init serverRun ∧ Along (step .debug) UsesOwn init serverRun ∧
      ∀ e, final (step .debug) init serverRun = .error e → ∃ f, e = .fault f ∧ Stops .debug f :=
  descriptors_untilFault .debug serverRun (by decide)

end Runs
end Process
end LibXpf.NetEndpoint
