import LibXpf.Foundation.GuardedRuns
import LibXpf.NetEndpoint.Endpoint

/-! # What the success of a call means

`connect` and `listen` leave the endpoint as they report. `accept` reports success
before the endpoint for the new socket is known to be of use: if it is not, its
constructor closes it, and with it goes the `errno` it has kept.
-/
namespace LibXpf.NetEndpoint
open NetIoMux (EStatus EError)
open GuardedRuns

section Promises

/-- The `errno` of the call that fails for an accepted socket. -/
def Provisioning.failure (p : Provisioning) : Option ℤ :=
  if p.sockname.ec ≠ 0 then some p.sockname.errno
  else if p.name.ec ≠ 0 then some p.name.errno
  else none

/-- What is asserted of `getsockname`. -/
def Provisioning.Asserted (p : Provisioning) : Prop :=
  p.sockname.ec = 0 ∧ p.sockname.sockInfo.length < maxAddrLen

instance (p : Provisioning) : Decidable p.Asserted := inferInstanceAs (Decidable (_ ∧ _))

/-- The endpoint listens, and a socket is accepted. -/
def Accepts (e : NetEndpointImpl) (o : AcceptOutcome) : Prop :=
  e.protocol &&& protocolTCP ≠ 0 ∧ e.status = .listening ∧ o.accept.socket ≠ invalidSocket

instance (e : NetEndpointImpl) (o : AcceptOutcome) : Decidable (Accepts e o) :=
  inferInstanceAs (Decidable (_ ∧ _ ∧ _))

def ValidPeer (peer : NetEndpointImpl) : Prop := peer.status = .connected ∧ peer.socket ≠ invalidSocket

instance (peer : NetEndpointImpl) : Decidable (ValidPeer peer) := inferInstanceAs (Decidable (_ ∧ _))

/-- The failure for which an endpoint is closed. -/
def closedFor (e : NetEndpointImpl) (o : AcceptOutcome) : Option ℤ :=
  if Accepts e o then o.provisioning.failure else none

/-- What the results of `accept` should be: success comes with a connected endpoint, and a
failure is an error that leaves its `errno` with one of the two endpoints. -/
def AcceptPromise (e : NetEndpointImpl) (o : AcceptOutcome)
    (r : Option NetEndpointImpl × EError × NetEndpointImpl) : Prop :=
  (r.2.1 = .success → ∃ peer ∈ r.1, ValidPeer peer) ∧
    ∀ errno ∈ closedFor e o, r.2.1 ≠ .success ∧ (r.2.2.errno = errno ∨ ∃ peer ∈ r.1, peer.errno = errno)

instance (e : NetEndpointImpl) (o : AcceptOutcome) (r : Option NetEndpointImpl × EError × NetEndpointImpl) :
    Decidable (AcceptPromise e o r) := inferInstanceAs (Decidable ((_ → _) ∧ _))

/-- Success of a call means what it says, and the failures behind `accept` are reported. -/
def Honest (build : Build) (e : NetEndpointImpl) : Call → Prop
  | .connect addr serviceOrPort o =>
    IfReturns (e.connect build addr serviceOrPort o) fun r =>
      r.1 = true ∨ r.2.1 = .success → r.2.2.status = .connected
  | .listen addr serviceOrPort o =>
    IfReturns (e.listen build addr serviceOrPort o) fun r =>
      r.1 = true ∨ r.2.1 = .success → r.2.2.status = .listening
  | .accept o => IfReturns (e.accept build o) (AcceptPromise e o)
  | .close _ => True

instance (build : Build) (e : NetEndpointImpl) (c : Call) : Decidable (Honest build e c) :=
  match c with
  | .connect .. => inferInstanceAs (Decidable (IfReturns _ _))
  | .listen .. => inferInstanceAs (Decidable (IfReturns _ _))
  | .accept _ => inferInstanceAs (Decidable (IfReturns _ _))
  | .close _ => isTrue trivial

/-- No call fails for an accepted socket, but where the program is stopped for it. -/
def Provisioned (build : Build) (e : NetEndpointImpl) : Call → Prop
  | .accept o => Accepts e o → o.provisioning.failure = none ∨ build = .debug ∧ ¬ o.provisioning.Asserted
  | _ => True

end Promises

section Spec
variable {build : Build} {e : NetEndpointImpl}

/-- Nothing is left of a closed endpoint but its protocol. -/
theorem close_eq (e : NetEndpointImpl) (r : SysResult) : e.close r = NetEndpointImpl.blank e.protocol := by
  unfold NetEndpointImpl.close
  dsimp only
  split
  · unfold NetEndpointImpl.shutdown
    dsimp only
    split <;> rfl
  · rfl

/-- What `connect` and `listen` can do to an endpoint. -/
inductive Reached (e : NetEndpointImpl) (status : EStatus) : Bool × EError × NetEndpointImpl → Prop
  | failed (code : EError) (e' : NetEndpointImpl) (hcode : code ≠ .success) (hsocket : e'.socket = e.socket)
      (hstatus : e'.status = e.status ∨ e'.status = .invalid) : Reached e status (false, code, e')
  | succeeded (e' : NetEndpointImpl) (hinit : e.status = .init) (hsocket : e'.socket = e.socket)
      (hstatus : e'.status = status) : Reached e status (true, .success, e')

theorem connect_reached (addr serviceOrPort : Option (List UInt8)) (o : ConnectOutcome) :
    IfReturns (e.connect build addr serviceOrPort o) (Reached e .connected) := by
  refine IfReturns.bind fun _ _ => ?_
  split
  · exact ifReturns_ok.mpr (.failed _ _ (by decide) rfl (Or.inl rfl))
  next hfresh =>
    have hinit : e.status = .init := (not_not.mp (not_or.mp hfresh).2).symm
    refine IfReturns.bind fun resolved _ => ?_
    cases resolved with
    | none => exact ifReturns_ok.mpr (.failed _ _ (by decide) rfl (Or.inl rfl))
    | some peer =>
      refine IfReturns.bind fun _ _ => ?_
      split
      · exact ifReturns_ok.mpr (.failed _ _ (by decide) rfl (Or.inl rfl))
      dsimp only
      split
      · refine IfReturns.bind fun _ _ => ?_
        exact ifReturns_ok.mpr (.succeeded _ hinit rfl rfl)
      · exact ifReturns_ok.mpr (.succeeded _ hinit rfl rfl)

theorem listen_reached (addr serviceOrPort : Option (List UInt8)) (o : ListenOutcome) :
    IfReturns (e.listen build addr serviceOrPort o) (Reached e .listening) := by
  refine IfReturns.bind fun _ _ => ?_
  split
  · exact ifReturns_ok.mpr (.failed _ _ (by decide) rfl (Or.inl rfl))
  next hfresh =>
    have hinit : e.status = .init := (not_not.mp (not_or.mp hfresh).1).symm
    split
    · exact ifReturns_ok.mpr (.failed _ _ (by decide) rfl (Or.inl rfl))
    refine IfReturns.bind fun _ _ => ?_
    split
    · exact ifReturns_ok.mpr (.failed _ _ (by decide) rfl (Or.inl rfl))
    split
    · -- only here the endpoint is lost
      exact ifReturns_ok.mpr (.failed _ _ (by decide) rfl (Or.inr rfl))
    refine IfReturns.bind fun peer _ => ?_
    dsimp only
    split
    · refine IfReturns.bind fun _ _ => ?_
      cases addr with
      | none => exact ifReturns_error
      | some addr => exact ifReturns_ok.mpr (.succeeded _ hinit rfl rfl)
    · exact ifReturns_ok.mpr (.succeeded _ hinit rfl rfl)

theorem Reached.honest {status : EStatus} {r : Bool × EError × NetEndpointImpl} (h : Reached e status r)
    (hsuccess : r.1 = true ∨ r.2.1 = .success) : r.2.2.status = status := by
  cases h with
  | failed code e' hcode =>
    rcases hsuccess with htrue | heq
    · cases htrue
    · exact absurd heq hcode
  | succeeded e' hinit hsocket hstatus => exact hstatus

theorem xpfAssert_of {message : String} {condition : Prop} [Decidable condition] (h : condition) :
    build.xpfAssert message condition = .ok () := by
  cases build with
  | debug => exact LibXpf.xpfAssert_ok h
  | ndebug => rfl

/-- The endpoint for an accepted socket with which nothing is wrong. -/
def provisioned (protocol : ℕ) (socket : ℤ) (status : EStatus) (p : Provisioning) : NetEndpointImpl where
  address := p.name.host
  sockInfo := p.sockname.sockInfo
  port := p.name.port
  protocol := protocol
  status := status
  socket := socket
  errno := 0

/-- The constructor ends with an endpoint in order or with a closed one. -/
theorem ofSocket_eq (protocol : ℕ) (socket : ℤ) (status : EStatus) (p : Provisioning) :
    NetEndpointImpl.ofSocket build protocol socket status p = do
      build.xpfAssert "Valid socket provisioning." p.Asserted
      return if p.failure = none then provisioned protocol socket status p else NetEndpointImpl.blank protocol := by
  unfold NetEndpointImpl.ofSocket
  refine congrArg (build.xpfAssert "Valid socket provisioning." p.Asserted >>= ·) (funext fun _ => ?_)
  by_cases hsockname : p.sockname.ec = 0
  · by_cases hname : p.name.ec = 0
    · simp only [Provisioning.failure, hsockname, hname, ne_eq, not_true_eq_false, if_true, if_false]
      rfl
    · simp only [Provisioning.failure, hsockname, hname, ne_eq, not_true_eq_false, not_false_eq_true, if_true,
        if_false, reduceCtorEq, close_eq]
      rfl
  · simp only [Provisioning.failure, hsockname, ne_eq, not_false_eq_true, if_true, if_false, reduceCtorEq, close_eq]
    rfl

theorem accept_of_accepts {o : AcceptOutcome} (h : Accepts e o) :
    e.accept build o = do
      let peer ← NetEndpointImpl.ofSocket build e.protocol o.accept.socket .connected o.provisioning
      return (some peer, .success, e) := by
  obtain ⟨htcp, hlistening, hsocket⟩ := h
  have hopen : ¬ (¬ (e.protocol &&& protocolTCP ≠ 0) ∨ e.status ≠ .listening) := by
    rw [not_or, not_not, not_not]
    exact ⟨htcp, hlistening⟩
  unfold NetEndpointImpl.accept
  dsimp only
  rw [xpfAssert_of htcp, xpfAssert_of hlistening, ok_bind, ok_bind, if_neg hopen, if_neg hsocket]

theorem accept_of_not_accepts {o : AcceptOutcome} (h : ¬ Accepts e o) :
    IfReturns (e.accept build o) fun r => r.2.1 ≠ .success := by
  refine IfReturns.bind fun _ _ => IfReturns.bind fun _ _ => ?_
  split
  · exact ifReturns_ok.mpr (by simp)
  next hopen =>
    split
    · exact ifReturns_ok.mpr (by simp)
    next hsocket =>
      rw [not_or, not_not, not_not] at hopen
      exact absurd ⟨hopen.1, hopen.2, hsocket⟩ h

/-- The promise of `accept` is kept unless the endpoint for the new socket has been closed. -/
theorem accept_honest_iff (o : AcceptOutcome) :
    IfReturns (e.accept build o) (AcceptPromise e o) ↔
      (Accepts e o → o.provisioning.failure = none ∨ build = .debug ∧ ¬ o.provisioning.Asserted) := by
  by_cases haccepts : Accepts e o
  · rw [accept_of_accepts haccepts, ofSocket_eq, imp_iff_right haccepts]
    by_cases hstopped : build = .debug ∧ ¬ o.provisioning.Asserted
    · obtain ⟨rfl, hasserted⟩ := hstopped
      refine iff_of_true ?_ (Or.inr ⟨rfl, hasserted⟩)
      rw [Build.xpfAssert, xpfAssert, if_neg hasserted]
      exact ifReturns_error
    · have hpass : build.xpfAssert "Valid socket provisioning." o.provisioning.Asserted = .ok () := by
        cases build with
        | debug => exact LibXpf.xpfAssert_ok (by simpa using hstopped)
        | ndebug => rfl
      rw [hpass, or_iff_left hstopped]
      change IfReturns (.ok _) _ ↔ _
      rw [ifReturns_ok]
      constructor
      · rintro ⟨-, hfailures⟩
        rw [closedFor, if_pos haccepts] at hfailures
        rw [Option.eq_none_iff_forall_not_mem]
        intro errno herrno
        exact (hfailures errno herrno).1 rfl
      · intro hnone
        rw [if_pos hnone, AcceptPromise, closedFor, if_pos haccepts, hnone]
        refine ⟨fun _ => ⟨_, rfl, rfl, haccepts.2.2⟩, ?_⟩
        rintro errno ⟨⟩
  · refine iff_of_true ?_ fun h => absurd h haccepts
    intro r hr
    have herror := accept_of_not_accepts haccepts r hr
    refine ⟨fun h => absurd h herror, ?_⟩
    rw [closedFor, if_neg haccepts]
    rintro errno ⟨⟩

theorem honest_step_iff (c : Call) : Honest build e c ↔ Provisioned build e c := by
  cases c with
  | connect addr serviceOrPort o =>
    exact iff_of_true (fun r hr => (connect_reached addr serviceOrPort o r hr).honest) trivial
  | listen addr serviceOrPort o =>
    exact iff_of_true (fun r hr => (listen_reached addr serviceOrPort o r hr).honest) trivial
  | accept o => exact accept_honest_iff o
  | close r => exact Iff.rfl

end Spec

section Runs
variable {build : Build} {e e' : NetEndpointImpl}

/-- An endpoint that can still be used has a socket. -/
def Usable (e : NetEndpointImpl) : Prop :=
  e.status = .init ∨ e.status = .listening ∨ e.status = .connected → e.socket ≠ invalidSocket

theorem create_usable (protocol : ℕ) (r : SocketResult) :
    IfReturns (NetEndpointImpl.create build protocol r) Usable := by
  refine IfReturns.bind fun _ _ => ?_
  split
  · exact ifReturns_ok.mpr (by simp [Usable])
  refine IfReturns.bind fun _ _ => ?_
  split
  · exact ifReturns_ok.mpr (by simp [Usable])
  dsimp only
  split
  · exact ifReturns_ok.mpr (by simp [Usable])
  next hsocket => exact ifReturns_ok.mpr fun _ => Ne.symm hsocket

/-- A call that succeeds has started where a socket is, and one that fails leaves it where it is. -/
theorem Reached.usable {status : EStatus} {r : Bool × EError × NetEndpointImpl} (hr : Reached e status r)
    (h : Usable e) : Usable r.2.2 := by
  cases hr with
  | failed code e' hcode hsocket hstatus =>
    intro hlive
    rw [hsocket]
    rcases hstatus with hsame | hinvalid
    · rw [hsame] at hlive
      exact h hlive
    · simp [hinvalid] at hlive
  | succeeded e' hinit hsocket hstatus =>
    intro _
    rw [hsocket]
    exact h (Or.inl hinit)

/-- `accept` keeps the listening endpoint, but for its `errno`. -/
theorem accept_usable (o : AcceptOutcome) (h : Usable e) :
    IfReturns (e.accept build o) fun r => Usable r.2.2 := by
  refine IfReturns.bind fun _ _ => IfReturns.bind fun _ _ => ?_
  split
  · exact ifReturns_ok.mpr h
  split
  · exact ifReturns_ok.mpr h
  refine IfReturns.bind fun _ _ => ?_
  exact ifReturns_ok.mpr h

theorem step_usable (h : Usable e) (c : Call) (hstep : step build e c = .ok e') : Usable e' := by
  cases c with
  | connect addr serviceOrPort o =>
    obtain ⟨r, hr, hrest⟩ := ok_of_bind hstep
    cases hrest
    exact (connect_reached addr serviceOrPort o r hr).usable h
  | listen addr serviceOrPort o =>
    obtain ⟨r, hr, hrest⟩ := ok_of_bind hstep
    cases hrest
    exact (listen_reached addr serviceOrPort o r hr).usable h
  | accept o =>
    obtain ⟨r, hr, hrest⟩ := ok_of_bind hstep
    cases hrest
    exact accept_usable o h r hr
  | close r =>
    obtain rfl := Except.ok.inj hstep
    rw [close_eq]
    simp [Usable, NetEndpointImpl.blank]

/-- Whatever is called on an endpoint, its status says whether it has a socket. -/
theorem usable_untilFault {protocol : ℕ} {r : SocketResult}
    (h : NetEndpointImpl.create build protocol r = .ok e) (calls : List Call) :
    UntilFault (step build) Usable e calls :=
  untilFault_of_invariant (fun _ c _ hs hstep => step_usable hs c hstep) (create_usable protocol r e h) calls

/-- The reports along a run are right exactly if no call fails for a socket that was accepted. -/
theorem honest_iff (build : Build) (e : NetEndpointImpl) (calls : List Call) :
    Along (step build) (Honest build) e calls ↔ Along (step build) (Provisioned build) e calls := by
  have hstep : Honest build = Provisioned build := by
    funext e c
    exact propext (honest_step_iff c)
  rw [hstep]

/-- A server that accepts a connection for whose address there is no name. -/
def namelessRun : List Call :=
  [.listen none (some (chars "7")) ⟨⟨⟨0, 0⟩, [2]⟩, ⟨0, 0⟩, ⟨0, 0⟩, ⟨⟨0, 0⟩, chars "0.0.0.0", 7⟩⟩,
   .accept ⟨⟨4, 0⟩, ⟨⟨⟨0, 0⟩, ⟨[2], 1⟩⟩, ⟨⟨-11, 105⟩, [], 0⟩, ⟨0, 105⟩⟩⟩]

theorem not_honest : ¬ ∀ (build : Build) (e : NetEndpointImpl) (protocol : ℕ) (r : SocketResult) (calls : List Call),
    NetEndpointImpl.create build protocol r = .ok e → Along (step build) (Honest build) e calls := by
  intro h
  have hrun := h .debug _ (protocolTCP ||| protocolIPv4) ⟨3, 0⟩ namelessRun rfl
  exact absurd hrun (by decide)

end Runs
end LibXpf.NetEndpoint
