import LibXpf.NetEndpoint.Success

/-! # Sending and receiving

The calls for data check the protocol and the status, and hand the buffer to the system. A failure
is kept in `errno`.
-/
namespace LibXpf.NetEndpoint
open NetIoMux (EStatus EError)
open GuardedRuns

/-- What a call for data returns, and `errno` after it. -/
structure TransferResult where
  cnt : ℤ
  errno : ℤ
  deriving DecidableEq

namespace NetEndpointImpl

/-- What is left to do behind the system call. -/
def moved (e : NetEndpointImpl) (code : EError) (r : TransferResult) : ℤ × EError × NetEndpointImpl :=
  if r.cnt < 0 then (0, code, e.saveLastError r.errno) else (r.cnt, .success, e)

def recv (build : Build) (e : NetEndpointImpl) (r : TransferResult) : Except Fault (ℤ × EError × NetEndpointImpl) := do
  let isTcp := e.protocol &&& protocolTCP ≠ 0
  if isTcp then
    build.xpfAssert "Not a connected TCP endpoint." (e.status = .connected)
  else
    build.xpfAssert "Not a listening UDP endpoint." (e.status = .listening)
  if isTcp ∧ e.status ≠ .connected ∨ ¬ isTcp ∧ e.status ≠ .listening then
    return (0, .invalidOp, e)
  return e.moved .recv r

/-- `peer` says whether there is one to be filled in. -/
def recvFrom (build : Build) (e : NetEndpointImpl) (peer : Bool) (r : TransferResult) :
    Except Fault (ℤ × EError × NetEndpointImpl) := do
  let isUdp := e.protocol &&& protocolUDP ≠ 0
  build.xpfAssert "Expecting a valid peer." (peer = true)
  build.xpfAssert "Expecting an UDP endpoint." isUdp
  build.xpfAssert "Neither a connected nor a listening endpoint." (e.status = .connected ∨ e.status = .listening)
  if ¬ isUdp ∨ peer = false ∨ e.status ≠ .connected ∧ e.status ≠ .listening then
    return (0, .invalidOp, e)
  return e.moved .recv r

def send (build : Build) (e : NetEndpointImpl) (r : TransferResult) : Except Fault (ℤ × EError × NetEndpointImpl) := do
  build.xpfAssert "Not a connected endpoint." (e.status = .connected)
  if e.status ≠ .connected then
    return (0, .invalidOp, e)
  return e.moved .send r

def sendTo (build : Build) (e : NetEndpointImpl) (peer : Bool) (r : TransferResult) :
    Except Fault (ℤ × EError × NetEndpointImpl) := do
  let isUdp := e.protocol &&& protocolUDP ≠ 0
  build.xpfAssert "Expecting a valid peer." (peer = true)
  build.xpfAssert "Expecting an UDP endpoint." isUdp
  build.xpfAssert "Not a connected endpoint." (e.status = .connected)
  if ¬ isUdp ∨ peer = false ∨ e.status ≠ .connected then
    return (0, .invalidOp, e)
  return e.moved .send r

end NetEndpointImpl

inductive Transfer where
  | recv
  | recvFrom (peer : Bool)
  | send
  | sendTo (peer : Bool)

def Transfer.call (build : Build) (e : NetEndpointImpl) (r : TransferResult) :
    Transfer → Except Fault (ℤ × EError × NetEndpointImpl)
  | .recv => e.recv build r
  | .recvFrom peer => e.recvFrom build peer r
  | .send => e.send build r
  | .sendTo peer => e.sendTo build peer r

/-- The error of a failure. -/
def Transfer.error : Transfer → EError
  | .recv | .recvFrom _ => .recv
  | .send | .sendTo _ => .send

/-- The condition for the system call. -/
def Transfer.Ready (e : NetEndpointImpl) : Transfer → Prop
  | .recv => if e.protocol &&& protocolTCP ≠ 0 then e.status = .connected else e.status = .listening
  | .recvFrom peer => e.protocol &&& protocolUDP ≠ 0 ∧ peer = true ∧ (e.status = .connected ∨ e.status = .listening)
  | .send => e.status = .connected
  | .sendTo peer => e.protocol &&& protocolUDP ≠ 0 ∧ peer = true ∧ e.status = .connected

instance (e : NetEndpointImpl) (c : Transfer) : Decidable (c.Ready e) :=
  match c with
  | .recv => inferInstanceAs (Decidable (ite _ _ _))
  | .recvFrom _ => inferInstanceAs (Decidable (_ ∧ _))
  | .send => inferInstanceAs (Decidable (_ = _))
  | .sendTo _ => inferInstanceAs (Decidable (_ ∧ _))

section Spec
variable {build : Build} {e : NetEndpointImpl} {r : TransferResult}

theorem refused_or_moved (e : NetEndpointImpl) (r : TransferResult) (code : EError) {refused ready : Prop} [Decidable refused]
    [Decidable ready] (h : refused ↔ ¬ ready) :
    IfReturns (do
      if refused then
        return (0, .invalidOp, e)
      return e.moved code r : Except Fault (ℤ × EError × NetEndpointImpl))
      fun q => q = if ready then e.moved code r else (0, .invalidOp, e) := by
  by_cases hready : ready
  · rw [if_neg (h.not.mpr (not_not.mpr hready)), if_pos hready]
    exact ifReturns_ok.mpr rfl
  · rw [if_pos (h.mpr hready), if_neg hready]
    exact ifReturns_ok.mpr rfl

/-- A call for data is refused or made. -/
theorem transfer_eq (c : Transfer) :
    IfReturns (c.call build e r) fun q => q = if c.Ready e then e.moved c.error r else (0, .invalidOp, e) := by
  cases c with
  | recv =>
    have hrefused : (e.protocol &&& protocolTCP ≠ 0 ∧ e.status ≠ .connected ∨
        ¬ (e.protocol &&& protocolTCP ≠ 0) ∧ e.status ≠ .listening) ↔ ¬ Transfer.recv.Ready e := by
      by_cases htcp : e.protocol &&& protocolTCP ≠ 0
      · rw [Transfer.Ready, if_pos htcp, and_iff_right htcp, or_iff_left fun h => h.1 htcp]
      · rw [Transfer.Ready, if_neg htcp, and_iff_right htcp, or_iff_right fun h => htcp h.1]
    have hmoved := refused_or_moved e r .recv hrefused
    unfold Transfer.call NetEndpointImpl.recv
    dsimp only
    split
    · exact IfReturns.bind fun _ _ => hmoved
    · exact IfReturns.bind fun _ _ => hmoved
  | recvFrom peer =>
    refine IfReturns.bind fun _ _ => IfReturns.bind fun _ _ => IfReturns.bind fun _ _ => refused_or_moved e r _ ?_
    rw [Transfer.Ready, not_and_or, not_and_or, not_or, Bool.not_eq_true]
  | send =>
    refine IfReturns.bind fun _ _ => ?_
    have hrefused : e.status ≠ .connected ↔ ¬ Transfer.send.Ready e := Iff.rfl
    exact refused_or_moved e r .send hrefused
  | sendTo peer =>
    refine IfReturns.bind fun _ _ => IfReturns.bind fun _ _ => IfReturns.bind fun _ _ => refused_or_moved e r _ ?_
    rw [Transfer.Ready, not_and_or, not_and_or, Bool.not_eq_true]

end Spec
end LibXpf.NetEndpoint
