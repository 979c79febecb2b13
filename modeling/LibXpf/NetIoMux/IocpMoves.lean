import LibXpf.NetIoMux.IocpMachine

/-! # The moves of the IOCP machine

Every step that does not fault is one of the moves below. Invariants go through the
moves and never unfold the step.
-/
namespace LibXpf.NetIoMux.Iocp

variable {n : ℕ} {s t : State n}

/-- The function pointers an `async` function needs, once it has loaded them. -/
def IocpAsyncContext.Loads : IocpAsyncContext → EIoType → IocpAsyncContext → Prop
  | .live _ connectEx, .accept, ctx => ctx = .live true connectEx
  | .live acceptEx _, .connect, ctx => ctx = .live acceptEx true
  | _, _, _ => False

/-- What `join` and the `async` functions assert. -/
def callMessages : List String :=
  ["Unable to join a netendpoint to mux.", "Unprovisioned netendpoint.",
    "Unable to retrieve AcceptEx func ptr.", "Unable to retrieve ConnectEx func ptr."]

inductive Move (s : State n) : Label n → State n → Prop
  | stutter (l : Label n) : Move s l s
  | failed (l : Label n) (message : String) (h : message ∈ callMessages) : Move s l (s.fail [message])
  | created (status : EStatus) (h : status ≠ .connecting ∧ status ≠ .accepting) :
    Move s (.create status)
      { s with socket := Function.update s.socket s.nextEp ⟨status, .null⟩, nextEp := s.nextEp + 1 }
  | joined (ep : ℕ) (h : (s.socket ep).context = .null) (hep : ep < s.nextEp) :
    Move s (.join ep true) (s.setContext ep (.live false false))
  | departed (ep : ℕ) (acceptEx connectEx : Bool) (h : (s.socket ep).context = .live acceptEx connectEx) :
    Move s (.depart ep) ((s.setContext ep .deleted).writeStatus ep (some .invalid))
  | posted (ep : ℕ) (call : AsyncCall) (ioctl queued : Bool)
      (hep : ep < s.nextEp) (h : AsyncCall.ioType call ≠ .accept ∧ AsyncCall.ioType call ≠ .connect) :
    Move s (.async ep call ioctl queued) (s.post ep call queued)
  | loaded (ep : ℕ) (call : AsyncCall) (ioctl queued : Bool) (ctx : IocpAsyncContext) (hep : ep < s.nextEp)
      (h : (s.socket ep).context.Loads (AsyncCall.ioType call) ctx) :
    Move s (.async ep call ioctl queued) ((s.setContext ep ctx).post ep call queued)
  | dequeued (w : Fin n) (p : Packet) (rest : List Packet) (h : s.worker w = .idle) (hport : s.port = p :: rest)
      (hret : p.ret = true) :
    Move s (.dequeue w) ({ s with port := rest }.setWorker w (.dequeued p))
  | lost (w : Fin n) (p : Packet) (rest : List Packet) (hport : s.port = p :: rest) (hret : p.ret = false) :
    Move s (.dequeue w) { s with port := rest, lost := s.lost ++ [p.odata] }
  | observed (w : Fin n) (result : Option ℕ) (p : Packet) (o : NetIoMuxOverlapped)
      (h : s.worker w = .dequeued p) (ho : s.record p.odata = some o) :
    Move s (.observe w result)
      (s.setWorker w (.observed p (s.socket p.key).status (if o.fired then result else none)))
  | concluded (w : Fin n) (c : Winsock) (provisioning handle : Bool) (p : Packet) (st : EStatus)
      (result : Option ℕ) (o : NetIoMuxOverlapped) (h : s.worker w = .observed p st result)
      (ho : s.record p.odata = some o) (hfired : o.fired = true) (hio : o.ioType ≠ .invalid) :
    Move s (.act w c provisioning handle) (s.conclude w p st result o c provisioning handle)
  | initiated (w : Fin n) (c : Winsock) (provisioning handle : Bool) (p : Packet) (st : EStatus)
      (result : Option ℕ) (o : NetIoMuxOverlapped) (h : s.worker w = .observed p st result)
      (ho : s.record p.odata = some o) (hfresh : o.ioType ≠ .invalid → o.fired = false) :
    Move s (.act w c provisioning handle) ((s.freed p st o).initiate w p st o c)
  | submitted (w : Fin n) (c : Winsock) (key odata : ℕ) (o : NetIoMuxOverlapped)
      (h : s.worker w = .launching key odata) (ho : s.record odata = some o) :
    Move s (.launch w c)
      (((s.toKernel key odata).logged key odata (.submit true)).setWorker w .idle)
  | refused (w : Fin n) (c : Winsock) (key odata : ℕ) (h : s.worker w = .launching key odata) :
    Move s (.launch w c) ((s.logged key odata (.submit false)).setWorker w (.rejected key odata))
  | rejected (w : Fin n) (key odata : ℕ) (o : NetIoMuxOverlapped) (h : s.worker w = .rejected key odata)
      (ho : s.record odata = some o) :
    Move s (.reject w)
      (((s.writeStatus key (failingStatus o.ioType)).logged key odata
        (o.report (failingError o.ioType) (failingPeer o.ioType) (failingBuf o) 0)).setWorker w
          (.reported key odata))
  | recycled (w : Fin n) (key odata : ℕ) (o : NetIoMuxOverlapped) (h : s.worker w = .reported key odata)
      (ho : s.record odata = some o) :
    Move s (.recycle w) (((s.setRecord odata none).logged key odata .recycle).setWorker w .idle)
  | completed (k : ℕ × ℕ) (ret : Bool) (bytes : ℕ) (h : k ∈ s.kernel) :
    Move s (.complete k.2 ret bytes)
      { s with
        kernel := s.kernel.erase k
        port := s.port ++ [⟨k.1, k.2, ret, bytes⟩]
        succeeded := if ret then s.succeeded ++ [k.2] else s.succeeded }

theorem async_move {ep : ℕ} {call : AsyncCall} {ioctl queued : Bool} (h : s.async ep call ioctl queued = .ok t) :
    Move s (.async ep call ioctl queued) t := by
  by_cases hep : s.nextEp ≤ ep
  · rw [State.async.eq_def, if_pos hep] at h
    exact Except.ok.inj h ▸ .stutter _
  rw [State.async.eq_def, if_neg hep] at h
  rw [not_le] at hep
  cases call with
  | accept cb =>
    dsimp only at h
    split at h
    · exact Except.ok.inj h ▸ .failed _ _ (by decide)
    · cases h
    · next acceptEx connectEx hctx =>
      split at h
      · exact Except.ok.inj h ▸ .failed _ _ (by decide)
      · exact Except.ok.inj h ▸ .loaded ep (.accept cb) ioctl queued _ hep (by rw [hctx]; rfl)
  | connect host cb =>
    dsimp only at h
    split at h
    · exact Except.ok.inj h ▸ .failed _ _ (by decide)
    · cases h
    · next acceptEx connectEx hctx =>
      split at h
      · exact Except.ok.inj h ▸ .failed _ _ (by decide)
      · exact Except.ok.inj h ▸ .loaded ep (.connect host cb) ioctl queued _ hep (by rw [hctx]; rfl)
  | _ => exact Except.ok.inj h ▸ .posted ep _ ioctl queued hep ⟨EIoType.noConfusion, EIoType.noConfusion⟩

theorem act_move {w : Fin n} {c : Winsock} {provisioning handle : Bool}
    (h : s.act w c provisioning handle = .ok t) : Move s (.act w c provisioning handle) t := by
  simp only [State.act] at h
  split at h
  · next p st result hpc =>
    split at h
    · cases h
    · next o ho =>
      split at h
      · next hfired => exact Except.ok.inj h ▸ .concluded w c provisioning handle p st result o hpc ho hfired.1 hfired.2
      · next hfresh =>
        have hnot : o.ioType ≠ .invalid → o.fired = false :=
          fun hio => Bool.eq_false_iff.mpr (fun hfired => hfresh ⟨hfired, hio⟩)
        split at h
        · cases h
        · exact Except.ok.inj h ▸ .initiated w c provisioning handle p st result o hpc ho hnot
  · exact Except.ok.inj h ▸ .stutter _

theorem launch_move {w : Fin n} {c : Winsock} (h : s.launch w c = .ok t) : Move s (.launch w c) t := by
  simp only [State.launch] at h
  split at h
  · next key odata hpc =>
    split at h
    · cases h
    · next o ho =>
      split at h
      · cases h
      · split at h
        · exact Except.ok.inj h ▸ .submitted w c key odata o hpc ho
        · exact Except.ok.inj h ▸ .refused w c key odata hpc
  · exact Except.ok.inj h ▸ .stutter _

theorem step_move {l : Label n} (h : step s l = .ok t) : Move s l t := by
  cases l with
  | create status =>
    simp only [step, State.create, Except.ok.injEq] at h
    split at h
    · exact h ▸ .stutter _
    · next hstatus => exact h ▸ .created status (not_or.mp hstatus)
  | join ep handle =>
    simp only [step, State.join, Except.ok.injEq] at h
    split at h
    · next hep =>
      split at h
      · next hctx =>
        split at h
        · next hhandle =>
          subst hhandle
          exact h ▸ .joined ep hctx hep
        · exact h ▸ .failed _ _ (by decide)
      · exact h ▸ .stutter _
    · exact h ▸ .stutter _
  | depart ep =>
    simp only [step, State.depart] at h
    split at h
    · exact Except.ok.inj h ▸ .stutter _
    · cases h
    · next acceptEx connectEx hctx => exact Except.ok.inj h ▸ .departed ep acceptEx connectEx hctx
  | async ep call ioctl queued => exact async_move h
  | dequeue w =>
    simp only [step, State.dequeue, Except.ok.injEq] at h
    split at h
    · next p rest hpc hport =>
      split at h
      · next hret => exact h ▸ .dequeued w p rest hpc hport hret
      · next hret => exact h ▸ .lost w p rest hport (Bool.eq_false_iff.mpr hret)
    · exact h ▸ .stutter _
  | observe w result =>
    simp only [step, State.observe] at h
    split at h
    · next p hpc =>
      split at h
      · cases h
      · next o ho => exact Except.ok.inj h ▸ .observed w result p o hpc ho
    · exact Except.ok.inj h ▸ .stutter _
  | act w c provisioning handle => exact act_move h
  | launch w c => exact launch_move h
  | reject w =>
    simp only [step, State.reject] at h
    split at h
    · next key odata hpc =>
      split at h
      · cases h
      · next o ho => exact Except.ok.inj h ▸ .rejected w key odata o hpc ho
    · exact Except.ok.inj h ▸ .stutter _
  | recycle w =>
    simp only [step, State.recycle] at h
    split at h
    · next key odata hpc =>
      split at h
      · cases h
      · next o ho => exact Except.ok.inj h ▸ .recycled w key odata o hpc ho
    · exact Except.ok.inj h ▸ .stutter _
  | complete odata ret bytes =>
    simp only [step, State.complete, Except.ok.injEq] at h
    split at h
    · exact h ▸ .stutter _
    · next k hfind =>
      have hodata : k.2 = odata := of_decide_eq_true (List.find?_some (p := fun k : ℕ × ℕ => k.2 = odata) hfind)
      subst hodata
      exact h ▸ .completed k ret bytes (List.mem_of_find?_eq_some hfind)

end LibXpf.NetIoMux.Iocp
