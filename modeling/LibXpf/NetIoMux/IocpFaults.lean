import LibXpf.NetIoMux.IocpReports

/-! # Where the IOCP multiplexer can fault

`depart` deletes the context of an endpoint and leaves the pointer to it. Records and
buffers are never used after they are released, so the steps that go through such a
pointer are the only ones that fault.
-/
namespace LibXpf.NetIoMux.Iocp
open GuardedRuns Custody

variable {n : ℕ} {s t : State n} {i e : ℕ} {l : Label n}

section Contexts

/-- The operations that go through a function pointer of the context. -/
def throughContext : EIoType → Bool
  | .accept => true
  | .connect => true
  | _ => false

/-- The context has the function an operation needs, or had it when it was deleted. -/
def IocpAsyncContext.Provides (ctx : IocpAsyncContext) (type : EIoType) : Prop :=
  match ctx, type with
  | .live acceptEx _, .accept => acceptEx = true
  | .live _ connectEx, .connect => connectEx = true
  | .null, .accept => False
  | .null, .connect => False
  | _, _ => True

/-- The requests that were posted have what they need in the contexts of their endpoints. -/
structure Provisioned (s : State n) : Prop where
  unknown : ∀ e, s.nextEp ≤ e → (s.socket e).context = .null
  known : ∀ x ∈ s.posted, x.1 < s.nextEp
  provides : ∀ x ∈ s.posted, (s.socket x.1).context.Provides x.2.ioType

theorem provides_data {type : EIoType} (h : throughContext type = false) (ctx : IocpAsyncContext) :
    ctx.Provides type := by
  cases type with
  | accept => cases h
  | connect => cases h
  | _ => cases ctx <;> exact trivial

theorem throughContext_of_null {type : EIoType} (h : IocpAsyncContext.null.Provides type) :
    throughContext type = false := by
  cases type with
  | accept => cases h
  | connect => cases h
  | _ => rfl

theorem setContext_context (s : State n) (ep e : ℕ) (ctx : IocpAsyncContext) :
    ((s.setContext ep ctx).socket e).context = if e = ep then ctx else (s.socket e).context := by
  change (Function.update s.socket ep _ e).context = _
  rw [Function.update_apply]
  split <;> rfl

theorem writeStatus_context (s : State n) (ep e : ℕ) (status : Option EStatus) :
    ((s.writeStatus ep status).socket e).context = (s.socket e).context := by
  change (Function.update s.socket ep _ e).context = _
  rw [Function.update_apply]
  split
  · next he => rw [he]
  · rfl

theorem conclude_context {w : Fin n} {p : Packet} {st : EStatus} {result : Option ℕ} {o : NetIoMuxOverlapped}
    {c : Winsock} {provisioning handle : Bool} (he : e ≠ s.nextEp) :
    ((s.conclude w p st result o c provisioning handle).socket e).context = (s.socket e).context := by
  simp only [State.conclude]
  split
  · rw [Function.update_of_ne he]
    exact writeStatus_context ..
  · exact writeStatus_context ..

theorem loads_provides {ctx ctx' : IocpAsyncContext} {type : EIoType} (h : ctx.Loads type ctx') :
    ctx'.Provides type ∧ ∀ type', ctx.Provides type' → ctx'.Provides type' := by
  cases ctx with
  | null => cases type <;> cases h
  | deleted => cases type <;> cases h
  | live acceptEx connectEx =>
    cases type with
    | accept =>
      cases h
      refine ⟨rfl, fun type' htype => ?_⟩
      cases type' with
      | accept => exact rfl
      | _ => exact htype
    | connect =>
      cases h
      refine ⟨rfl, fun type' htype => ?_⟩
      cases type' with
      | connect => exact rfl
      | _ => exact htype
    | _ => cases h

/-- A context never loses what it provides. -/
theorem provides_move (hmove : Move s l t) (he : e < s.nextEp) {type : EIoType}
    (h : (s.socket e).context.Provides type) : (t.socket e).context.Provides type := by
  have hne : e ≠ s.nextEp := he.ne
  cases hmove with
  | created status =>
    change (Function.update s.socket s.nextEp _ e).context.Provides type
    rwa [Function.update_of_ne hne]
  | joined ep hctx =>
    rw [setContext_context]
    split
    · next hep =>
      rw [hep, hctx] at h
      exact provides_data (throughContext_of_null h) _
    · exact h
  | departed ep acceptEx connectEx hctx =>
    rw [writeStatus_context, setContext_context]
    split
    · cases type <;> exact trivial
    · exact h
  | loaded ep call ioctl queued ctx hep hloads =>
    change ((s.setContext ep ctx).socket e).context.Provides type
    rw [setContext_context]
    split
    · next heq =>
      rw [heq] at h
      exact (loads_provides hloads).2 type h
    · exact h
  | concluded w c provisioning handle p st result o =>
    rwa [conclude_context hne]
  | initiated w c provisioning handle p st result o =>
    rw [State.initiate]
    split
    · exact h
    · exact h
    · change (((s.freed p st o).writeStatus p.key _).socket e).context.Provides type
      rwa [writeStatus_context]
  | rejected w key odata o =>
    change ((s.writeStatus key _).socket e).context.Provides type
    rwa [writeStatus_context]
  | _ => exact h

theorem nextEp_move (hmove : Move s l t) : s.nextEp ≤ t.nextEp := by
  cases hmove with
  | created => exact Nat.le_succ _
  | concluded =>
    simp only [State.conclude]
    split
    · exact Nat.le_succ _
    · exact le_rfl
  | initiated =>
    rw [State.initiate]
    split <;> exact le_rfl
  | _ => exact le_rfl

theorem unknown_move (hprovisioned : Provisioned s) (hmove : Move s l t) (he : t.nextEp ≤ e) :
    (t.socket e).context = .null := by
  have hle := nextEp_move hmove
  have hnull := hprovisioned.unknown e (hle.trans he)
  cases hmove with
  | created status =>
    have hlt : s.nextEp + 1 ≤ e := he
    change (Function.update s.socket s.nextEp _ e).context = .null
    rwa [Function.update_of_ne (by omega)]
  | joined ep hctx hep =>
    have hlt : s.nextEp ≤ e := he
    rwa [setContext_context, if_neg (by omega)]
  | departed ep acceptEx connectEx hctx =>
    rw [writeStatus_context, setContext_context]
    split
    · next heq =>
      rw [← heq, hnull] at hctx
      cases hctx
    · exact hnull
  | loaded ep call ioctl queued ctx hep hloads =>
    have hlt : s.nextEp ≤ e := he
    change ((s.setContext ep ctx).socket e).context = .null
    rwa [setContext_context, if_neg (by omega)]
  | concluded w c provisioning handle p st result o =>
    by_cases haccepts : Accepts result o
    · have hlt : s.nextEp + 1 ≤ e := by
        simpa only [State.conclude, if_pos haccepts] using he
      rw [conclude_context (by omega)]
      exact hnull
    · simp only [State.conclude, if_neg haccepts]
      exact (writeStatus_context ..).trans hnull
  | initiated w c provisioning handle p st result o =>
    rw [State.initiate]
    split
    · exact hnull
    · exact hnull
    · exact (writeStatus_context ..).trans hnull
  | rejected w key odata o => exact (writeStatus_context ..).trans hnull
  | _ => exact hnull

namespace Provisioned

theorem initial (n : ℕ) : Provisioned (State.initial n) where
  unknown _ _ := rfl
  known _ hx := absurd hx List.not_mem_nil
  provides _ hx := absurd hx List.not_mem_nil

theorem move (h : Provisioned s) (hmove : Move s l t) : Provisioned t := by
  have hle := nextEp_move hmove
  -- What is posted now has its context in order, what was posted before keeps it.
  have hnew : ∀ x ∈ t.posted, x ∈ s.posted ∨ x.1 < s.nextEp ∧ (t.socket x.1).context.Provides x.2.ioType := by
    intro x hx
    have hpost : ∀ {u : State n} {ep : ℕ} {call : AsyncCall} {queued : Bool}, u.posted = s.posted →
        ep < s.nextEp → (u.socket ep).context.Provides (AsyncCall.ioType call) →
        x ∈ (u.post ep call queued).posted → x ∈ s.posted ∨
          x.1 < s.nextEp ∧ (u.socket x.1).context.Provides x.2.ioType := by
      intro u ep call queued hposted hep hprovides hmem
      rcases List.mem_append.mp hmem with hmem | hmem
      · exact .inl (hposted ▸ hmem)
      · rw [List.mem_singleton.mp hmem, record_ioType]
        exact .inr ⟨hep, hprovides⟩
    cases hmove with
    | posted ep call ioctl queued hep hcall =>
      refine hpost (u := s) rfl hep ?_ hx
      apply provides_data
      cases call with
      | accept => exact absurd rfl hcall.1
      | connect => exact absurd rfl hcall.2
      | _ => rfl
    | loaded ep call ioctl queued ctx hep hloads =>
      refine hpost (u := s.setContext ep ctx) rfl hep ?_ hx
      rw [setContext_context, if_pos rfl]
      exact (loads_provides hloads).1
    | initiated w c provisioning handle p st result o =>
      rw [State.initiate] at hx
      split at hx <;> exact .inl hx
    | _ => exact .inl hx
  refine ⟨fun e he => unknown_move h hmove he, ?_, ?_⟩
  · intro x hx
    rcases hnew x hx with hold | ⟨hlt, _⟩
    · exact (h.known x hold).trans_le hle
    · exact hlt.trans_le hle
  · intro x hx
    rcases hnew x hx with hold | ⟨_, hprovides⟩
    · exact provides_move hmove (h.known x hold) (h.provides x hold)
    · exact hprovides

end Provisioned
end Contexts

section Buffers

/-- The error a callback is called with. -/
def Action.error : Action → Option EError
  | .callback _ _ ec _ _ _ => some ec
  | _ => none

/-- The buffer of a `connect` is allocated until the switch resolves the host. A request
that is refused before that keeps it for good. -/
structure Buffered (s : State n) : Prop where
  launched : ∀ w key odata o, s.worker w = .launching key odata ∨ s.worker w = .rejected key odata →
    s.record odata = some o → o.fired = true
  owed : ∀ i o, s.record i = some o → o.ioType = .connect → o.fired = false → s.reports i = 0 → s.host i = true
  fired : ∀ i o, s.record i = some o → o.ioType = .connect → o.fired = true → s.host i = false
  told : ∀ e ∈ s.log, ∀ key q, s.posted[e.odata]? = some (key, q) → q.ioType = .connect →
    e.action.isCallback = true → (s.host e.odata = true ↔ e.action.error = some .invalidOp)

variable {c : Winsock} {o : NetIoMuxOverlapped} {st : EStatus} {hasContext : Bool}

theorem prepare_resolves (hresolves : Resolves st hasContext o) {ec : EError} {tepOrPeer : TepOrPeer}
    {buf : Option ℕ} {messages : List String}
    (h : prepare c st hasContext o = .refused ec tepOrPeer buf messages) : ec ≠ .invalidOp := by
  obtain ⟨hio, hctx, hst⟩ := hresolves
  unfold prepare at h
  simp only [hio, hctx, hst, Bool.true_eq_false, if_false, ne_eq, not_true_eq_false] at h
  repeat' split at h
  all_goals cases h
  all_goals exact EError.noConfusion

theorem prepare_unresolved (hresolves : ¬ Resolves st hasContext o) (hio : o.ioType = .connect) :
    ∃ messages, prepare c st hasContext o = .refused .invalidOp .null none messages := by
  unfold prepare
  simp only [hio]
  split
  · exact ⟨_, rfl⟩
  · next hctx =>
    split
    · exact ⟨_, rfl⟩
    · next hst =>
      rw [Bool.not_eq_false] at hctx
      exact absurd ⟨hio, hctx, not_not.mp hst⟩ hresolves

theorem failingError_ne_invalidOp (type : EIoType) : failingError type ≠ .invalidOp := by
  cases type <;> exact EError.noConfusion

/-- A worker that has not reported its record finds no callback for it in the log. -/
theorem Counted.unreported (h : Counted s) {w : Fin n} (howed : (s.worker w).owed = some i) :
    s.reports i = 0 ∧ ∀ e ∈ s.log, e.odata = i → e.action.isCallback = false := by
  have hpos : 0 < holding (fun v => (s.worker v).owed) i := holding_pos howed
  have hcounted := h i
  have hzero : s.reports i = 0 := by
    rw [State.found] at hcounted
    split at hcounted <;> omega
  refine ⟨hzero, ?_⟩
  intro e he hodata
  rw [State.reports, List.countP_eq_zero] at hzero
  have hnot := hzero e he
  rw [decide_eq_true_eq, not_and, Bool.not_eq_true] at hnot
  exact hnot hodata

namespace Buffered

theorem initial (n : ℕ) : Buffered (State.initial n) where
  launched _ _ _ _ h := by rcases h with h | h <;> cases h
  owed _ o h := absurd h (Option.some_ne_none o).symm
  fired _ o h := absurd h (Option.some_ne_none o).symm
  told _ he := absurd he List.not_mem_nil

/-- A move that touches no buffer and calls no callback. -/
theorem of_plain (h : Buffered s) {es : List Entry} (hhost : t.host = s.host) (hlog : t.log = s.log ++ es)
    (hsilent : ∀ e ∈ es, e.action.isCallback = false)
    (hrecord : ∀ i o, t.record i = some o → s.record i = some o) (hposted : t.posted = s.posted)
    (hworker : ∀ w key odata, t.worker w = .launching key odata ∨ t.worker w = .rejected key odata →
      s.worker w = .launching key odata ∨ s.worker w = .rejected key odata) : Buffered t where
  launched w key odata o hw ho := h.launched w key odata o (hworker w key odata hw) (hrecord odata o ho)
  owed i o ho hio hfresh hreports := by
    rw [hhost]
    apply h.owed i o (hrecord i o ho) hio hfresh
    rw [State.reports, hlog, List.countP_append, Nat.add_eq_zero_iff] at hreports
    exact hreports.1
  fired i o ho := by
    rw [hhost]
    exact h.fired i o (hrecord i o ho)
  told e he key q hq hio hcallback := by
    rw [hlog] at he
    rw [hhost]
    rcases List.mem_append.mp he with he | he
    · exact h.told e he key q (hposted ▸ hq) hio hcallback
    · cases (hsilent e he).symm.trans hcallback

/-- The worker calls the callback of a record that was fired, with another error. -/
theorem of_fired (h : Buffered s) (hmatched : Matched s) {w : Fin n} {key odata : ℕ} {action : Action}
    (hhost : t.host = s.host) (hlog : t.log = s.log ++ [⟨odata, key, action⟩]) (hrecord : t.record = s.record)
    (hposted : t.posted = s.posted) (hworker : t.worker = Function.update s.worker w (.reported key odata))
    (ho : s.record odata = some o) (hfired : o.fired = true)
    (hcarries : (s.worker w).carries = some (key, odata)) (hec : action.error ≠ some .invalidOp) :
    Buffered t where
  launched v key' odata' q hv hq := by
    rw [hworker, Function.update_apply] at hv
    split at hv
    · rcases hv with hv | hv <;> cases hv
    · exact h.launched v key' odata' q hv (hrecord ▸ hq)
  owed i q hq hio hfresh hreports := by
    rw [hhost]
    apply h.owed i q (hrecord ▸ hq) hio hfresh
    rw [reports_append hlog, Nat.add_eq_zero_iff] at hreports
    exact hreports.1
  fired i q hq := by
    rw [hhost]
    exact h.fired i q (hrecord ▸ hq)
  told e he key' q hq hio hcallback := by
    rw [hlog] at he
    rw [hhost]
    rw [hposted] at hq
    rcases List.mem_append.mp he with he | he
    · exact h.told e he key' q hq hio hcallback
    · rw [List.mem_singleton.mp he] at hq ⊢
      obtain ⟨r, hr, hsame⟩ := hmatched.request (.inr (.inr ⟨w, hcarries⟩)) ho
      rw [hr] at hq
      cases hq
      have hbuffer := h.fired odata o ho (hsame.ioType.trans hio) hfired
      exact iff_of_false (by rw [hbuffer]; exact Bool.false_ne_true) hec

/-- A new record has its buffer, if it needs one. -/
theorem post (h : Buffered s) (hplaced : Placed s) (hmatched : Matched s) (hcounted : Counted s) {ep : ℕ}
    {call : AsyncCall} {queued : Bool} : Buffered (s.post ep call queued) := by
  have hhost : ∀ i, i ≠ s.nextRecord → (s.post ep call queued).host i = s.host i :=
    fun i hi => Function.update_of_ne hi _ _
  have hne : ∀ {i o}, s.record i = some o → i ≠ s.nextRecord := by
    rintro i o ho rfl
    rw [hplaced.fresh _ le_rfl] at ho
    cases ho
  constructor
  · intro w key odata o hw ho
    rcases record_post ho with ho | ⟨rfl, _⟩
    · exact h.launched w key odata o hw ho
    · have hheld : (s.worker w).held = some s.nextRecord := by
        rcases hw with hw | hw
        · exact (congrArg Pc.held (show s.worker w = _ from hw)).trans rfl
        · exact (congrArg Pc.held (show s.worker w = _ from hw)).trans rfl
      obtain ⟨q, hq⟩ := hplaced.held_record hheld
      exact absurd rfl (hne hq)
  · intro i o ho hio hfresh hreports
    rcases record_post ho with ho | ⟨rfl, rfl⟩
    · rw [hhost i (hne ho)]
      exact h.owed i o ho hio hfresh hreports
    · change Function.update s.host s.nextRecord _ s.nextRecord = true
      rw [Function.update_self]
      exact decide_eq_true hio
  · intro i o ho hio hfired
    rcases record_post ho with ho | ⟨rfl, rfl⟩
    · rw [hhost i (hne ho)]
      exact h.fired i o ho hio hfired
    · cases call <;> cases hfired
  · intro e he key q hq hio hcallback
    have hne' : e.odata ≠ s.nextRecord := by
      intro heq
      have hzero := hcounted s.nextRecord
      rw [if_neg (lt_irrefl _), Nat.add_eq_zero_iff, State.reports, List.countP_eq_zero] at hzero
      exact hzero.1 e he (decide_eq_true ⟨heq, hcallback⟩)
    have hq' : (s.posted ++ [(ep, AsyncCall.record s.nextRecord call)])[e.odata]? = some (key, q) := hq
    rw [hhost _ hne']
    refine h.told e he key q ?_ hio hcallback
    rcases Nat.lt_or_ge e.odata s.posted.length with hlt | hge
    · rwa [List.getElem?_append_left hlt] at hq'
    · rw [List.getElem?_append_right hge, List.getElem?_eq_none] at hq'
      · cases hq'
      · rw [List.length_singleton]
        have hnumbered := hmatched.numbered
        omega

theorem freed_host (p : Packet) (st : EStatus) (o : NetIoMuxOverlapped) (i : ℕ) :
    (s.freed p st o).host i =
      if i = p.odata ∧ Resolves st (s.socket p.key).endpoint.hasContext o then false else s.host i := by
  simp only [State.freed]
  by_cases hresolves : Resolves st (s.socket p.key).endpoint.hasContext o
  · simp only [hresolves, and_true]
    exact Function.update_apply ..
  · simp only [hresolves, and_false, if_false]

/-- The requests that have been told are not the one whose buffer the switch may free. -/
theorem told_freed (h : Buffered s) (hcounted : Counted s) {w : Fin n} {p : Packet} {result : Option ℕ}
    (hpc : s.worker w = .observed p st result) : ∀ e ∈ s.log, ∀ key q, s.posted[e.odata]? = some (key, q) →
      q.ioType = .connect → e.action.isCallback = true →
        ((s.freed p st o).host e.odata = true ↔ e.action.error = some .invalidOp) := by
  obtain ⟨_, hnone⟩ := hcounted.unreported (w := w) (i := p.odata) (by rw [hpc]; rfl)
  intro e he key q hq hio hcallback
  have hne : e.odata ≠ p.odata := fun heq => Bool.noConfusion ((hnone e he heq).symm.trans hcallback)
  rw [freed_host, if_neg (fun hand => hne hand.1)]
  exact h.told e he key q hq hio hcallback

theorem fired_freed (h : Buffered s) {p : Packet} {q : NetIoMuxOverlapped} (hq : s.record i = some q)
    (hio : q.ioType = .connect) (hfired : q.fired = true) : (s.freed p st o).host i = false := by
  rw [freed_host]
  split
  · rfl
  · exact h.fired i q hq hio hfired

theorem calling_update {w v : Fin n} {pc : Pc} {key odata : ℕ} (hpc : ∀ key odata, pc ≠ .rejected key odata)
    (hv : Function.update s.worker w pc v = .launching key odata ∨
      Function.update s.worker w pc v = .rejected key odata) :
    v = w ∧ pc = .launching key odata ∨
      v ≠ w ∧ (s.worker v = .launching key odata ∨ s.worker v = .rejected key odata) := by
  rw [Function.update_apply] at hv
  split at hv
  · next hvw => exact .inl ⟨hvw, hv.resolve_right (hpc key odata)⟩
  · next hvw => exact .inr ⟨hvw, hv⟩

/-- A request that is refused as invalid keeps its buffer, and another one has lost it. -/
theorem refuse (h : Buffered s) (hmatched : Matched s) (hcounted : Counted s) {w : Fin n} {p : Packet}
    {result : Option ℕ} (hpc : s.worker w = .observed p st result) (ho : s.record p.odata = some o)
    (hfresh : o.fired = false) {ec : EError} {tepOrPeer : TepOrPeer} {buf : Option ℕ} {messages : List String}
    (hprepare : prepare c st (s.socket p.key).endpoint.hasContext o = .refused ec tepOrPeer buf messages) :
    Buffered ((((s.freed p st o).fail messages).logged p.key p.odata (o.report ec tepOrPeer buf 0)).setWorker w
      (.reported p.key p.odata)) := by
  have hcarries : (s.worker w).carries = some (p.key, p.odata) := by rw [hpc]; rfl
  obtain ⟨hzero, _⟩ := hcounted.unreported (w := w) (i := p.odata) (by rw [hpc]; rfl)
  constructor
  · intro v key odata q hv hq
    rcases calling_update (fun _ _ => Pc.noConfusion) hv with ⟨_, hpc'⟩ | ⟨_, hv⟩
    · cases hpc'
    · exact h.launched v key odata q hv hq
  · intro i q hq hio hq' hreports
    change (s.freed p st o).host i = true
    have hlog : ((((s.freed p st o).fail messages).logged p.key p.odata
        (o.report ec tepOrPeer buf 0)).setWorker w (.reported p.key p.odata)).log =
          s.log ++ [⟨p.odata, p.key, o.report ec tepOrPeer buf 0⟩] := rfl
    rw [reports_append hlog, Nat.add_eq_zero_iff] at hreports
    have hne : i ≠ p.odata := by
      rintro rfl
      exact absurd hreports.2 (by rw [if_pos ⟨rfl, rfl⟩]; exact Nat.one_ne_zero)
    rw [freed_host, if_neg (fun hand => hne hand.1)]
    exact h.owed i q hq hio hq' hreports.1
  · exact fun i q hq hio hq' => h.fired_freed hq hio hq'
  · intro e he key q hq hio hcallback
    rcases List.mem_append.mp he with he | he
    · exact h.told_freed hcounted hpc e he key q hq hio hcallback
    · rw [List.mem_singleton.mp he] at hq ⊢
      obtain ⟨r, hr, hsame⟩ := hmatched.request (.inr (.inr ⟨w, hcarries⟩)) ho
      have hposted : s.posted[p.odata]? = some (key, q) := hq
      rw [hr] at hposted
      cases hposted
      have hconnect : o.ioType = .connect := hsame.ioType.trans hio
      change (s.freed p st o).host p.odata = true ↔ some ec = some .invalidOp
      rw [freed_host]
      by_cases hresolves : Resolves st (s.socket p.key).endpoint.hasContext o
      · rw [if_pos ⟨rfl, hresolves⟩]
        refine iff_of_false Bool.false_ne_true ?_
        intro hec
        exact prepare_resolves hresolves hprepare (Option.some.inj hec)
      · rw [if_neg (fun hand => hresolves hand.2)]
        obtain ⟨messages', hrefused⟩ := prepare_unresolved (c := c) hresolves hconnect
        rw [hrefused] at hprepare
        cases hprepare
        exact iff_of_true (h.owed p.odata o ho hconnect hfresh hzero) rfl

/-- A request that comes to the overlapped call is fired, and has lost its buffer. -/
theorem fire (h : Buffered s) (hcounted : Counted s) {w : Fin n} {p : Packet} {result : Option ℕ}
    (hpc : s.worker w = .observed p st result) {pending : Option EStatus}
    (hprepare : prepare c st (s.socket p.key).endpoint.hasContext o = .ready pending) :
    Buffered ((((s.freed p st o).writeStatus p.key pending).setRecord p.odata (some (o.fire c))).setWorker w
      (.launching p.key p.odata)) := by
  have hrecord : ∀ i q, Function.update s.record p.odata (some (o.fire c)) i = some q →
      i = p.odata ∧ q = o.fire c ∨ i ≠ p.odata ∧ s.record i = some q := by
    intro i q hq
    rw [Function.update_apply] at hq
    split at hq
    · next hi => exact .inl ⟨hi, (Option.some.inj hq).symm⟩
    · next hi => exact .inr ⟨hi, hq⟩
  constructor
  · intro v key odata q hv hq
    rcases hrecord odata q hq with ⟨_, rfl⟩ | ⟨hne, hq⟩
    · rfl
    · rcases calling_update (fun _ _ => Pc.noConfusion) hv with ⟨_, hpc'⟩ | ⟨_, hv⟩
      · cases hpc'
        exact absurd rfl hne
      · exact h.launched v key odata q hv hq
  · intro i q hq hio hq' hreports
    rcases hrecord i q hq with ⟨_, rfl⟩ | ⟨hne, hq⟩
    · cases hq'
    · change (s.freed p st o).host i = true
      rw [freed_host, if_neg (fun hand => hne hand.1)]
      exact h.owed i q hq hio hq' hreports
  · intro i q hq hio hq'
    rcases hrecord i q hq with ⟨rfl, rfl⟩ | ⟨_, hq⟩
    · change (s.freed p st o).host p.odata = false
      rw [freed_host]
      by_cases hresolves : Resolves st (s.socket p.key).endpoint.hasContext o
      · rw [if_pos ⟨rfl, hresolves⟩]
      · obtain ⟨messages, hrefused⟩ := prepare_unresolved (c := c) hresolves hio
        cases hrefused.symm.trans hprepare
    · exact h.fired_freed hq hio hq'
  · exact h.told_freed hcounted hpc

/-- The switch of a record that was not fired frees the buffer, or refuses the request. -/
theorem initiate (h : Buffered s) (hmatched : Matched s) (hcounted : Counted s) {w : Fin n} {p : Packet}
    {result : Option ℕ} (hpc : s.worker w = .observed p st result) (ho : s.record p.odata = some o)
    (hfresh : o.fired = false) : Buffered ((s.freed p st o).initiate w p st o c) := by
  rw [State.initiate]
  split
  · next ec tepOrPeer buf messages hprepare => exact h.refuse hmatched hcounted hpc ho hfresh hprepare
  · next hprepare => exact absurd hprepare (prepare_ne_unrecognized (hmatched.ioType_ne ho))
  · next pending hprepare => exact h.fire hcounted hpc hprepare

theorem move (h : Buffered s) (hplaced : Placed s) (hmatched : Matched s) (hcounted : Counted s)
    (hmove : Move s l t) : Buffered t := by
  have hnil : s.log = s.log ++ [] := (List.append_nil _).symm
  have hsilent : ∀ e ∈ ([] : List Entry), e.action.isCallback = false := fun e he => absurd he List.not_mem_nil
  have hsingle : ∀ x : Entry, x.action.isCallback = false → ∀ e ∈ [x], e.action.isCallback = false := by
    intro x hx e he
    rwa [List.mem_singleton.mp he]
  have hworkers : ∀ {w : Fin n} {pc : Pc}, pc.calling = false → ∀ v key odata,
      Function.update s.worker w pc v = .launching key odata ∨
        Function.update s.worker w pc v = .rejected key odata →
          s.worker v = .launching key odata ∨ s.worker v = .rejected key odata := by
    intro w pc hpc v key odata hv
    rw [Function.update_apply] at hv
    split at hv
    · rcases hv with rfl | rfl <;> cases hpc
    · exact hv
  cases hmove with
  | stutter => exact h
  | failed => exact h.of_plain rfl hnil hsilent (fun _ _ => id) rfl (fun _ _ _ => id)
  | created => exact h.of_plain rfl hnil hsilent (fun _ _ => id) rfl (fun _ _ _ => id)
  | joined => exact h.of_plain rfl hnil hsilent (fun _ _ => id) rfl (fun _ _ _ => id)
  | departed => exact h.of_plain rfl hnil hsilent (fun _ _ => id) rfl (fun _ _ _ => id)
  | posted => exact h.post hplaced hmatched hcounted
  | loaded ep call ioctl queued ctx =>
    have hloaded : Buffered (s.setContext ep ctx) :=
      h.of_plain rfl hnil hsilent (fun _ _ => id) rfl (fun _ _ _ => id)
    exact hloaded.post (hplaced.of_same rfl rfl rfl rfl rfl rfl)
      ⟨hmatched.numbered, hmatched.recognized, hmatched.records, hmatched.keys⟩ hcounted
  | dequeued w p rest hpc hport =>
    exact h.of_plain rfl hnil hsilent (fun _ _ => id) rfl (hworkers rfl)
  | lost w p rest hport => exact h.of_plain rfl hnil hsilent (fun _ _ => id) rfl (fun _ _ _ => id)
  | observed w result p o hpc =>
    exact h.of_plain rfl hnil hsilent (fun _ _ => id) rfl (hworkers rfl)
  | concluded w c provisioning handle p st result o hpc ho hfired =>
    refine h.of_fired hmatched rfl rfl rfl rfl rfl ho hfired (by rw [hpc]; rfl) ?_
    obtain ⟨tepOrPeer, buf, len, heq⟩ := endReport_eq result p.bytes o
    rw [heq]
    intro hec
    have hec' := Option.some.inj hec
    split at hec'
    · exact failingError_ne_invalidOp o.ioType hec'
    · cases hec'
  | initiated w c provisioning handle p st result o hpc ho hfresh =>
    exact h.initiate hmatched hcounted hpc ho (hfresh (hmatched.ioType_ne ho))
  | submitted w c key odata o hpc =>
    exact h.of_plain rfl rfl (hsingle _ rfl) (fun _ _ => id) rfl (hworkers rfl)
  | refused w c key odata hpc =>
    refine h.of_plain rfl rfl (hsingle _ rfl) (fun _ _ => id) rfl ?_
    -- The worker was at the overlapped call before.
    intro v key' odata' hv
    have hv' : Function.update s.worker w (.rejected key odata) v = .launching key' odata' ∨
        Function.update s.worker w (.rejected key odata) v = .rejected key' odata' := hv
    rw [Function.update_apply] at hv'
    split at hv'
    · next hvw =>
      subst hvw
      rcases hv' with hv' | hv' <;> cases hv'
      exact .inl hpc
    · exact hv'
  | rejected w key odata o hpc ho =>
    have hfired := h.launched w key odata o (.inr hpc) ho
    refine h.of_fired hmatched rfl rfl rfl rfl rfl ho hfired (by rw [hpc]; rfl) ?_
    exact fun hec => failingError_ne_invalidOp o.ioType (Option.some.inj hec)
  | recycled w key odata o hpc =>
    refine h.of_plain rfl rfl (hsingle _ rfl) ?_ rfl (hworkers rfl)
    intro i q hq
    have hupdate : Function.update s.record odata none i = some q := hq
    rw [Function.update_apply] at hupdate
    split at hupdate
    · cases hupdate
    · exact hupdate
  | completed k ret bytes hk => exact h.of_plain rfl hnil hsilent (fun _ _ => id) rfl (fun _ _ _ => id)

end Buffered
end Buffers

section Faults

/-- The endpoint whose context a step goes through. -/
def State.touched (s : State n) : Label n → Option ℕ
  | .depart ep => some ep
  | .async ep call _ _ => if ep < s.nextEp ∧ throughContext (AsyncCall.ioType call) then some ep else none
  | .launch w _ =>
    match s.worker w with
    | .launching key odata => if (s.record odata).any (fun o => throughContext o.ioType) then some key else none
    | _ => none
  | _ => none

/-- The step goes through the context of an endpoint that has departed. -/
def TouchesDeparted (s : State n) (l : Label n) : Prop :=
  ∃ ep, s.touched l = some ep ∧ (s.socket ep).context = .deleted

instance (s : State n) (l : Label n) : Decidable (TouchesDeparted s l) :=
  match h : s.touched l with
  | none => isFalse (by rintro ⟨ep, hep, _⟩; cases h.symm.trans hep)
  | some ep => decidable_of_iff ((s.socket ep).context = .deleted)
      ⟨fun hctx => ⟨ep, h, hctx⟩, by rintro ⟨ep', hep, hctx⟩; cases h.symm.trans hep; exact hctx⟩

/-- The invariant. -/
structure Sound (s : State n) : Prop where
  kept : Kept s
  provisioned : Provisioned s
  buffered : Buffered s

namespace Sound

theorem initial (n : ℕ) : Sound (State.initial n) := ⟨.initial n, .initial n, .initial n⟩

theorem move (h : Sound s) (hmove : Move s l t) : Sound t :=
  ⟨h.kept.move hmove, h.provisioned.move hmove,
    h.buffered.move h.kept.placed h.kept.matched h.kept.counted hmove⟩

/-- The function an overlapped call goes through is there. -/
theorem pointer_ok (h : Sound s) {w : Fin n} {key odata : ℕ} {o : NetIoMuxOverlapped}
    (hpc : s.worker w = .launching key odata) (ho : s.record odata = some o)
    (hctx : throughContext o.ioType = true → (s.socket key).context ≠ .deleted) :
    s.pointer key o.ioType = .ok () := by
  obtain ⟨q, hq, hsame⟩ := h.kept.matched.request (.inr (.inr ⟨w, by rw [hpc]; rfl⟩)) ho
  have hprovides := h.provisioned.provides _ (List.mem_of_getElem? hq)
  rw [← hsame.ioType] at hprovides
  unfold State.pointer
  cases hio : o.ioType with
  | accept =>
    rw [hio] at hprovides hctx
    cases hcontext : (s.socket key).context with
    | null =>
      simp only [hcontext, IocpAsyncContext.Provides] at hprovides
    | deleted => exact absurd hcontext (hctx rfl)
    | live acceptEx connectEx =>
      simp only [hcontext, IocpAsyncContext.Provides] at hprovides
      rw [hprovides]
  | connect =>
    rw [hio] at hprovides hctx
    cases hcontext : (s.socket key).context with
    | null =>
      simp only [hcontext, IocpAsyncContext.Provides] at hprovides
    | deleted => exact absurd hcontext (hctx rfl)
    | live acceptEx connectEx =>
      simp only [hcontext, IocpAsyncContext.Provides] at hprovides
      rw [hprovides]
  | _ => rfl

/-- The switch never finds the buffer of a request freed. -/
theorem buffer_ok (h : Sound s) {w : Fin n} {p : Packet} {st : EStatus} {result : Option ℕ}
    {o : NetIoMuxOverlapped} (hpc : s.worker w = .observed p st result) (ho : s.record p.odata = some o)
    (hfresh : o.fired = false) (hio : o.ioType = .connect) : s.host p.odata = true :=
  h.buffered.owed p.odata o ho hio hfresh
    (h.kept.counted.unreported (w := w) (i := p.odata) (by rw [hpc]; rfl)).1

theorem step_ok (h : Sound s) (hl : ¬ TouchesDeparted s l) : ∃ t, step s l = .ok t := by
  have hdeparted : ∀ ep, s.touched l = some ep → (s.socket ep).context ≠ .deleted :=
    fun ep hep hctx => hl ⟨ep, hep, hctx⟩
  have hheld : ∀ w i, (s.worker w).held = some i → ∃ o, s.record i = some o :=
    fun w i => h.kept.placed.held_record
  cases l with
  | depart ep =>
    have hctx := hdeparted ep rfl
    simp only [step, State.depart]
    split
    · exact ⟨_, rfl⟩
    · next hdeleted => exact absurd hdeleted hctx
    · exact ⟨_, rfl⟩
  | async ep call ioctl queued =>
    simp only [step]
    by_cases hep : s.nextEp ≤ ep
    · rw [State.async.eq_def, if_pos hep]
      exact ⟨_, rfl⟩
    rw [State.async.eq_def, if_neg hep]
    have hlt : ep < s.nextEp := not_le.mp hep
    cases call with
    | accept cb =>
      have hctx := hdeparted ep (if_pos ⟨hlt, rfl⟩)
      dsimp only
      split
      · exact ⟨_, rfl⟩
      · next hdeleted => exact absurd hdeleted hctx
      · split <;> exact ⟨_, rfl⟩
    | connect host cb =>
      have hctx := hdeparted ep (if_pos ⟨hlt, rfl⟩)
      dsimp only
      split
      · exact ⟨_, rfl⟩
      · next hdeleted => exact absurd hdeleted hctx
      · split <;> exact ⟨_, rfl⟩
    | _ => exact ⟨_, rfl⟩
  | observe w result =>
    simp only [step, State.observe]
    split
    · next p hpc =>
      obtain ⟨o, ho⟩ := hheld w p.odata (by rw [hpc]; rfl)
      simp only [ho]
      exact ⟨_, rfl⟩
    · exact ⟨_, rfl⟩
  | act w c provisioning handle =>
    simp only [step, State.act]
    split
    · next p st result hpc =>
      obtain ⟨o, ho⟩ := hheld w p.odata (by rw [hpc]; rfl)
      simp only [ho]
      split
      · exact ⟨_, rfl⟩
      · next hfresh =>
        split
        · next hfreed =>
          have hio := h.kept.matched.ioType_ne ho
          have hnot : o.fired = false := Bool.eq_false_iff.mpr (fun hfired => hfresh ⟨hfired, hio⟩)
          cases (h.buffer_ok hpc ho hnot hfreed.1.1).symm.trans hfreed.2
        · exact ⟨_, rfl⟩
    · exact ⟨_, rfl⟩
  | launch w c =>
    simp only [step, State.launch]
    split
    · next key odata hpc =>
      obtain ⟨o, ho⟩ := hheld w odata (by rw [hpc]; rfl)
      have hpointer := h.pointer_ok hpc ho (fun hthrough => hdeparted key (by
        simp only [State.touched, hpc, ho, Option.any_some, hthrough, if_true]))
      simp only [ho, hpointer]
      split <;> exact ⟨_, rfl⟩
    · exact ⟨_, rfl⟩
  | reject w =>
    simp only [step, State.reject]
    split
    · next key odata hpc =>
      obtain ⟨o, ho⟩ := hheld w odata (by rw [hpc]; rfl)
      simp only [ho]
      exact ⟨_, rfl⟩
    · exact ⟨_, rfl⟩
  | recycle w =>
    simp only [step, State.recycle]
    split
    · next key odata hpc =>
      obtain ⟨o, ho⟩ := hheld w odata (by rw [hpc]; rfl)
      simp only [ho]
      exact ⟨_, rfl⟩
    · exact ⟨_, rfl⟩
  | _ => exact ⟨_, rfl⟩

end Sound

/-- A step through a deleted context faults. -/
theorem step_fails (hl : TouchesDeparted s l) : step s l = .error .useAfterFree := by
  obtain ⟨ep, hep, hctx⟩ := hl
  cases l with
  | depart ep' =>
    cases hep
    simp only [step, State.depart, hctx]
  | async ep' call ioctl queued =>
    simp only [State.touched] at hep
    split at hep
    · next hthrough =>
      cases hep
      simp only [step]
      rw [State.async.eq_def, if_neg (not_le.mpr hthrough.1)]
      cases call with
      | accept cb => simp only [hctx]
      | connect host cb => simp only [hctx]
      | _ => cases hthrough.2
    · cases hep
  | launch w c =>
    simp only [State.touched] at hep
    split at hep
    · next key odata hpc =>
      split at hep
      · next hany =>
        cases hep
        cases ho : s.record odata with
        | none =>
          rw [ho] at hany
          cases hany
        | some o =>
          rw [ho, Option.any_some] at hany
          simp only [step, State.launch, hpc, ho, State.pointer]
          cases hio : o.ioType with
          | accept => simp only [hctx]
          | connect => simp only [hctx]
          | _ =>
            rw [hio] at hany
            cases hany
      · cases hep
    · cases hep
  | _ => cases hep

/-- A run faults at the first step that goes through the context of an endpoint that has
departed, and only there. Until then the books are in order. -/
theorem settled_throughout_iff (n : ℕ) (labels : List (Label n)) :
    Throughout step Settled (State.initial n) labels ↔
      Along step (fun s l => ¬ TouchesDeparted s l) (State.initial n) labels := by
  have hgood : ∀ (s : State n) (l : Label n), Sound s → True → ¬ TouchesDeparted s l →
      ∃ t, step s l = .ok t ∧ Sound t := by
    intro s l hs _ hl
    obtain ⟨t, ht⟩ := hs.step_ok hl
    exact ⟨t, ht, hs.move (step_move ht)⟩
  apply throughout_iff_along (fun s hs => hs.kept.settled) hgood ?_ (Sound.initial n) (along_of_forall fun _ _ => trivial)
  intro s l t _ _ hl ht
  rw [step_fails (not_not.mp hl)] at ht
  cases ht

/-- What becomes of the buffer of a `connect`: it outlives its record exactly where the
request was refused as invalid. -/
def BufferOutlives (s : State n) : Prop :=
  ∀ i key q, s.posted[i]? = some (key, q) → q.ioType = .connect → s.record i = none →
    (s.host i = true ↔ ∃ e ∈ s.log, e.odata = i ∧ e.action.error = some .invalidOp)

theorem Sound.bufferOutlives (h : Sound s) : BufferOutlives s := by
  intro i key q hq hio hnone
  have hlt : i < s.nextRecord := by
    rw [← h.kept.matched.numbered]
    exact (List.getElem?_eq_some_iff.mp hq).1
  have hone := h.kept.reports_of_recycled hlt hnone
  have hpos : 0 < s.reports i := by
    rw [hone]
    exact Nat.one_pos
  rw [State.reports, List.countP_pos_iff] at hpos
  obtain ⟨e, he, hcallback⟩ := hpos
  have hentry : e.odata = i ∧ e.action.isCallback = true := of_decide_eq_true hcallback
  obtain ⟨rfl, hcalled⟩ := hentry
  constructor
  · intro hhost
    exact ⟨e, he, rfl, (h.buffered.told e he key q hq hio hcalled).mp hhost⟩
  · rintro ⟨e', he', hodata, herror⟩
    have hcallback' : e'.action.isCallback = true := by
      cases haction : e'.action with
      | callback => rfl
      | _ =>
        rw [haction] at herror
        cases herror
    have htold := h.buffered.told e' he' key q (by rw [hodata]; exact hq) hio hcallback'
    rw [← hodata]
    exact htold.mpr herror

theorem bufferOutlives_untilFault (n : ℕ) (labels : List (Label n)) :
    UntilFault step BufferOutlives (State.initial n) labels := by
  have hsound : UntilFault step Sound (State.initial n) labels :=
    untilFault_of_invariant (fun s l t hs hstep => hs.move (step_move hstep)) (Sound.initial n) labels
  exact hsound.mono (fun _ => Sound.bufferOutlives)

end Faults
end LibXpf.NetIoMux.Iocp
