import LibXpf.NetIoMux.IocpCalls

/-! # The status of an endpoint

`runOnce` reads the status of an endpoint and writes it later, and nothing locks the
endpoint meanwhile. Where no two workers are between the reading and the writing for one
endpoint, it has at most one `AcceptEx` or `ConnectEx` in progress, and its status
says which.
-/
namespace LibXpf.NetIoMux.Iocp
open GuardedRuns

variable {n : ℕ} {s t : State n} {i ep key odata : ℕ} {l : Label n}

section Observers

variable {w : Fin n} {pc : Pc} {p : Packet} {st : EStatus} {result : Option ℕ} {o : NetIoMuxOverlapped}

/-- Whether the worker has read a status that it has not used. -/
def Pc.observes : Pc → Bool
  | .observed _ _ _ => true
  | _ => false

/-- What a worker has read is still so when it comes to write the status. -/
structure Watching (s : State n) : Prop where
  current : ∀ w p st result o, s.worker w = .observed p st result → s.record p.odata = some o →
    throughContext o.ioType = true → o.fired = false → failingStatus o.ioType = some st →
    (s.socket p.key).status = st
  awaited : ∀ w p st result o, s.worker w = .observed p st result → s.record p.odata = some o →
    throughContext o.ioType = true → o.fired = true → some st = busyStatus o.ioType
  alone : ∀ w v ep, s.reading w = some ep → s.reading v = some ep → w = v

theorem reading_of_observed (hpc : s.worker w = .observed p st result) (ho : s.record p.odata = some o)
    (hthrough : throughContext o.ioType = true) (hfresh : o.fired = false) : s.reading w = some p.key := by
  simp only [State.reading, hpc, State.fires, ho, Option.any_some, hthrough, hfresh, Bool.not_false, Bool.and_self,
    if_true]

theorem observed_of_reading (h : s.reading w = some ep) :
    ∃ p st result o, s.worker w = .observed p st result ∧ s.record p.odata = some o ∧
      throughContext o.ioType = true ∧ o.fired = false ∧ p.key = ep := by
  unfold State.reading at h
  split at h
  · next p st result hpc =>
    cases ho : s.record p.odata with
    | none => simp only [State.fires, ho, Option.any_none, Bool.false_eq_true, if_false, reduceCtorEq] at h
    | some o =>
      simp only [State.fires, ho, Option.any_some, Bool.and_eq_true, Bool.not_eq_true', Option.ite_none_right_eq_some,
        Option.some.injEq] at h
      exact ⟨p, st, result, o, hpc, ho, h.1.1, h.1.2, h.2⟩
  · cases h

/-- Where no worker reads a status, those that read one did so before. -/
theorem reading_of_kept
    (hkept : ∀ v p st result, t.worker v = .observed p st result →
      s.worker v = .observed p st result ∧ t.record p.odata = s.record p.odata)
    (h : t.reading w = some ep) : s.reading w = some ep := by
  obtain ⟨p, st, result, o, hpc, ho, hthrough, hfresh, rfl⟩ := observed_of_reading h
  obtain ⟨hpc', hrecord⟩ := hkept w p st result hpc
  exact reading_of_observed hpc' (hrecord ▸ ho) hthrough hfresh

namespace Watching

/-- No worker reads a status, and the statuses that are read stay. -/
theorem of_kept (h : Watching s)
    (hkept : ∀ v p st result, t.worker v = .observed p st result →
      s.worker v = .observed p st result ∧ t.record p.odata = s.record p.odata)
    (hstatus : ∀ ep, (t.socket ep).status = (s.socket ep).status ∨ (∀ v, t.reading v ≠ some ep) ∨
      ∃ type, some (s.socket ep).status = busyStatus type) : Watching t where
  current v p st result o hv ho hthrough hfresh hst := by
    obtain ⟨hv', hrecord⟩ := hkept v p st result hv
    have hcurrent := h.current v p st result o hv' (hrecord ▸ ho) hthrough hfresh hst
    rcases hstatus p.key with hsame | hnone | ⟨type, hbusy⟩
    · rw [hsame, hcurrent]
    · exact absurd (reading_of_observed hv ho hthrough hfresh) (hnone v)
    · rw [hcurrent] at hbusy
      exact absurd hbusy (failingStatus_not_busy hst)
  awaited v p st result o hv ho := by
    obtain ⟨hv', hrecord⟩ := hkept v p st result hv
    exact h.awaited v p st result o hv' (hrecord ▸ ho)
  alone v v' ep hv hv' := h.alone v v' ep (reading_of_kept hkept hv) (reading_of_kept hkept hv')

end Watching

/-- The hand of one worker changes, and perhaps the record in it. -/
theorem kept_hand (hplaced : Placed s) (hworker : t.worker = Function.update s.worker w pc)
    (hpc : pc.observes = false)
    (hrecord : ∀ i, (s.worker w).held ≠ some i → t.record i = s.record i) :
    ∀ v p st result, t.worker v = .observed p st result →
      s.worker v = .observed p st result ∧ t.record p.odata = s.record p.odata := by
  intro v p st result hv
  rw [hworker, Function.update_apply] at hv
  split at hv
  · subst hv
    cases hpc
  · next hvw =>
    refine ⟨hv, hrecord p.odata (fun hheld => hvw ?_)⟩
    exact hplaced.holder_unique (by rw [hv]; rfl) hheld

end Observers

section Moves

variable {w : Fin n} {pc : Pc} {p : Packet} {st : EStatus} {result : Option ℕ} {o : NetIoMuxOverlapped}
  {c : Winsock} {provisioning handle : Bool}

/-- The invariant. -/
structure Orderly (s : State n) : Prop where
  sound : Sound s
  agree : StatusesAgree s
  watching : Watching s

theorem asserting_mem (message : String) {m : String} {condition : Prop} [Decidable condition]
    (h : m ∈ asserting message condition) : m = message ∧ ¬ condition := by
  unfold asserting at h
  split at h
  · cases h
  · next hnot => exact ⟨List.mem_singleton.mp h, hnot⟩

/-- Where the status is the one of the call, a call that has ended fails no assertion about it. -/
theorem endMessages_expected (hst : throughContext o.ioType = true → some st = busyStatus o.ioType) :
    ∀ m ∈ endMessages c st result o, m ∉ statusMessages := by
  intro m hm
  unfold endMessages at hm
  cases hio : o.ioType with
  | accept =>
    rw [hio] at hst
    obtain rfl := Option.some.inj (hst rfl)
    simp only [hio, asserting, if_true, List.nil_append] at hm
    split at hm
    · cases hm
    · rcases List.mem_append.mp hm with hm | hm
      · obtain ⟨rfl, _⟩ := asserting_mem "Expecting valid peer socket." hm
        decide
      · obtain ⟨rfl, _⟩ := asserting_mem
          "Failed to update accepted context on newly connected socket." hm
        decide
  | connect =>
    rw [hio] at hst
    obtain rfl := Option.some.inj (hst rfl)
    simp only [hio, asserting, if_true, List.nil_append] at hm
    split at hm
    · cases hm
    · obtain ⟨rfl, _⟩ := asserting_mem
          "Failed to update connected context on outgoing socket." hm
      decide
  | _ =>
    rw [hio] at hm
    cases hm

theorem refused_expected {hasContext : Bool} {ec : EError} {tepOrPeer : TepOrPeer} {buf : Option ℕ}
    {messages : List String} (h : prepare c st hasContext o = .refused ec tepOrPeer buf messages) :
    ∀ m ∈ messages, m ∉ statusMessages := by
  have htransfer : ∀ initiated, prepareTransfer st initiated o = .refused ec tepOrPeer buf messages →
      ∀ m ∈ messages, m ∉ statusMessages := by
    intro initiated hrefused
    rw [prepareTransfer] at hrefused
    split at hrefused <;> cases hrefused
    decide
  unfold prepare at h
  cases hio : o.ioType with
  | invalid =>
    rw [hio] at h
    cases h
  | accept =>
    simp only [hio] at h
    repeat' split at h
    all_goals cases h
    all_goals decide
  | connect =>
    simp only [hio] at h
    repeat' split at h
    all_goals cases h
    all_goals decide
  | recv => exact htransfer .null (by rwa [hio] at h)
  | recvFrom => exact htransfer .null (by rwa [hio] at h)
  | send => exact htransfer .null (by rwa [hio] at h)
  | sendTo => exact htransfer .peerData (by rwa [hio] at h)

theorem setContext_status (s : State n) (key ep : ℕ) (ctx : IocpAsyncContext) :
    ((s.setContext key ctx).socket ep).status = (s.socket ep).status := by
  simp only [State.setContext, Function.update_apply]
  split
  · next hep => rw [hep]
  · rfl

theorem post_expected {call : AsyncCall} {queued : Bool} :
    ∀ m ∈ (s.post key call queued).failed, m ∈ s.failed ∨ m ∉ statusMessages := by
  intro m hm
  refine (List.mem_append.mp hm).imp_right (fun hm => ?_)
  obtain ⟨rfl, _⟩ := asserting_mem "Failed on PostQueuedCompletionStatus()" hm
  decide

theorem writeStatus_status (s : State n) (key ep : ℕ) (status : Option EStatus) :
    ((s.writeStatus key status).socket ep).status =
      if ep = key then status.getD (s.socket key).status else (s.socket ep).status := by
  simp only [State.writeStatus, Function.update_apply]
  split <;> rfl

theorem conclude_status (hep : ep ≠ s.nextEp) :
    ((s.conclude w p st result o c provisioning handle).socket ep).status =
      if ep = p.key then (endStatus result o.ioType).getD (s.socket p.key).status else (s.socket ep).status := by
  rw [← writeStatus_status]
  simp only [State.conclude]
  split
  · rw [Function.update_of_ne hep]
  · rfl

/-- The endpoint that is made is in no call. -/
theorem conclude_next (hkey : p.key ≠ s.nextEp) :
    ((s.conclude w p st result o c provisioning handle).socket s.nextEp).status = (s.socket s.nextEp).status ∨
      ∀ type, some ((s.conclude w p st result o c provisioning handle).socket s.nextEp).status ≠ busyStatus type := by
  by_cases haccepts : Accepts result o
  · right
    intro type heq
    simp only [State.conclude, if_pos haccepts, Function.update_self] at heq
    cases provisioning <;> cases type <;> cases heq
  · left
    simp only [State.conclude, if_neg haccepts]
    exact (writeStatus_status ..).trans (if_neg (Ne.symm hkey))

theorem conclude_expected (hst : throughContext o.ioType = true → some st = busyStatus o.ioType) :
    ∀ m ∈ (s.conclude w p st result o c provisioning handle).failed, m ∈ s.failed ∨ m ∉ statusMessages := by
  intro m hm
  rcases List.mem_append.mp hm with hm | hm
  · rcases List.mem_append.mp hm with hm | hm
    · exact .inl hm
    · exact .inr (endMessages_expected hst m hm)
  · right
    split at hm
    · obtain ⟨rfl, _⟩ := asserting_mem "Unable to join a netendpoint to mux." hm
      decide
    · cases hm

namespace Orderly

/-- A worker that has not reported a record that it fired is in a call. -/
theorem inCall (h : Orderly s) (hcarries : (s.worker w).carries = some (key, odata))
    (howed : (s.worker w).owed = some odata) (ho : s.record odata = some o) (hfired : o.fired = true) :
    InCall s key o.ioType odata where
  fired := ⟨o, ho, hfired, rfl⟩
  key := h.sound.kept.matched.keys key odata (.inr (.inr ⟨w, hcarries⟩))
  unreported := (h.sound.kept.counted.unreported howed).1

/-- An endpoint that was not made has no call. -/
theorem inCall_lt (h : Orderly s) {type : EIoType} (hin : InCall s ep type i) : ep < s.nextEp := by
  obtain ⟨q, hq⟩ := hin.key
  exact h.sound.provisioned.known _ (List.mem_of_getElem? hq)

theorem reading_lt (h : Orderly s) (hw : s.reading w = some ep) : ep < s.nextEp := by
  obtain ⟨p, st, result, o, hpc, _, _, _, rfl⟩ := observed_of_reading hw
  obtain ⟨q, hq⟩ := h.sound.kept.matched.keys p.key p.odata (.inr (.inr ⟨w, by rw [hpc]; rfl⟩))
  exact h.sound.provisioned.known _ (List.mem_of_getElem? hq)

/-- The status of an endpoint that nobody calls is free to change. -/
theorem none_of_status (h : Orderly s) (hidle : ∀ type, some (s.socket ep).status ≠ busyStatus type) :
    ∀ type i, throughContext type = true → ¬ InCall s ep type i :=
  fun type i hthrough hin => hidle type ((h.agree.status ep type hthrough).mpr ⟨i, hin⟩)

theorem agree_concluded (h : Orderly s) (hpc : s.worker w = .observed p st result)
    (ho : s.record p.odata = some o) (hfired : o.fired = true) :
    StatusesAgree (s.conclude w p st result o c provisioning handle) := by
  have hin : InCall s p.key o.ioType p.odata := h.inCall (w := w) (by rw [hpc]; rfl) (by rw [hpc]; rfl) ho hfired
  have hkey : p.key ≠ s.nextEp := (h.inCall_lt hin).ne
  have hcall : ∀ ep type i, throughContext type = true →
      (InCall (s.conclude w p st result o c provisioning handle) ep type i ↔ InCall s ep type i ∧ i ≠ p.odata) := by
    intro ep type i _
    refine inCall_reported rfl rfl rfl ?_
    obtain ⟨tepOrPeer, buf, len, heq⟩ := endReport_eq result p.bytes o
    rw [heq]
    rfl
  have hfailed : ∀ m ∈ (s.conclude w p st result o c provisioning handle).failed, m ∈ s.failed ∨ m ∉ statusMessages :=
    conclude_expected (fun hthrough => h.watching.awaited w p st result o hpc ho hthrough hfired)
  -- Apart from the endpoint of the call, only the one that is made may change.
  have hothers : ∀ ep, ep ≠ p.key →
      ((s.conclude w p st result o c provisioning handle).socket ep).status = (s.socket ep).status ∨
      (∀ type, some ((s.conclude w p st result o c provisioning handle).socket ep).status ≠ busyStatus type) ∧
        ∀ type i, throughContext type = true → ¬ InCall s ep type i := by
    intro ep hep
    by_cases hnext : ep = s.nextEp
    · subst hnext
      rcases conclude_next hkey with hsame | hidle
      · exact .inl hsame
      · exact .inr ⟨hidle, fun type i _ hin => (h.inCall_lt hin).false⟩
    · left
      rw [conclude_status hnext, if_neg hep]
  by_cases hthrough : throughContext o.ioType = true
  · apply h.agree.release hthrough hin hcall ?_ hothers hfailed
    intro type
    rw [conclude_status hkey, if_pos rfl]
    cases hend : endStatus result o.ioType with
    | none =>
      cases hio : o.ioType with
      | accept =>
        rw [hio] at hend
        cases hend
      | connect =>
        rw [hio] at hend
        cases hend
      | _ =>
        rw [hio] at hthrough
        cases hthrough
    | some status => exact endStatus_not_busy result hend type
  · rw [Bool.not_eq_true] at hthrough
    refine h.agree.of_same ?_ ?_ hfailed
    · intro ep type i htype
      refine (hcall ep type i htype).trans (and_iff_left_of_imp ?_)
      rintro ⟨⟨q, hq, _, rfl⟩, _, _⟩ rfl
      rw [ho] at hq
      obtain rfl := Option.some.inj hq
      rw [htype] at hthrough
      cases hthrough
    · intro ep
      by_cases hep : ep = p.key
      · left
        rw [hep, conclude_status hkey, if_pos rfl, endStatus_data result hthrough]
        rfl
      · exact hothers ep hep

theorem agree_initiated (h : Orderly s) (hpc : s.worker w = .observed p st result)
    (ho : s.record p.odata = some o) (hfresh : o.fired = false) :
    StatusesAgree ((s.freed p st o).initiate w p st o c) := by
  have hnotin : ∀ ep type i, InCall s ep type i → i ≠ p.odata := by
    rintro ep type i ⟨⟨q, hq, hfired, _⟩, _, _⟩ rfl
    rw [ho] at hq
    obtain rfl := Option.some.inj hq
    rw [hfresh] at hfired
    cases hfired
  rw [State.initiate]
  split
  · next ec tepOrPeer buf messages hprepare =>
    apply h.agree.of_same
    · intro ep type i _
      have hlog : (((s.freed p st o).fail messages).logged p.key p.odata (o.report ec tepOrPeer buf 0)).log =
          s.log ++ [⟨p.odata, p.key, o.report ec tepOrPeer buf 0⟩] := rfl
      refine Iff.trans (inCall_reported (s := s) rfl rfl hlog ?_) (and_iff_left_of_imp (hnotin ep type i))
      rfl
    · exact fun ep => .inl rfl
    · intro m hm
      exact (List.mem_append.mp hm).imp_right (refused_expected hprepare m)
  · next hprepare =>
    exact absurd hprepare (prepare_ne_unrecognized (h.sound.kept.matched.ioType_ne ho))
  · next pending hprepare =>
    have hkey : ∃ q, s.posted[p.odata]? = some (p.key, q) :=
      h.sound.kept.matched.keys p.key p.odata (.inr (.inr ⟨w, by rw [hpc]; rfl⟩))
    have hnone : s.reports p.odata = 0 :=
      (h.sound.kept.counted.unreported (w := w) (i := p.odata) (by rw [hpc]; rfl)).1
    have hcall : ∀ ep type i, InCall ((((s.freed p st o).writeStatus p.key pending).setRecord p.odata
        (some (o.fire c))).setWorker w (.launching p.key p.odata)) ep type i ↔
        InCall s ep type i ∨ ep = p.key ∧ type = o.ioType ∧ i = p.odata :=
      fun ep type i => inCall_fired rfl rfl rfl ho hfresh hkey hnone
    have hstatus : ∀ ep, (((((s.freed p st o).writeStatus p.key pending).setRecord p.odata
        (some (o.fire c))).setWorker w (.launching p.key p.odata)).socket ep).status =
        if ep = p.key then pending.getD (s.socket p.key).status else (s.socket ep).status :=
      fun ep => writeStatus_status (s.freed p st o) p.key ep pending
    by_cases hthrough : throughContext o.ioType = true
    · obtain ⟨hst, rfl⟩ := prepare_ready hthrough hprepare
      have hcurrent := h.watching.current w p st result o hpc ho hthrough hfresh hst
      apply h.agree.fire hthrough (fun ep type i _ => hcall ep type i)
      · intro type
        rw [hcurrent]
        exact failingStatus_not_busy hst
      · rw [hstatus p.key, if_pos rfl]
        exact Option.getD_of_ne_none (busyStatus_ne_none hthrough) _
      · intro ep hep
        rw [hstatus ep, if_neg hep]
      · rfl
    · rw [Bool.not_eq_true] at hthrough
      obtain rfl := prepare_data hthrough hprepare
      refine h.agree.of_same ?_ ?_ (fun m => .inl)
      · intro ep type i htype
        refine (hcall ep type i).trans (or_iff_left ?_)
        rintro ⟨_, rfl, _⟩
        rw [htype] at hthrough
        cases hthrough
      · intro ep
        left
        rw [hstatus ep]
        split
        · next hep => rw [hep]; rfl
        · rfl

/-- The overlapped call of a fired record fails. -/
theorem agree_rejected (h : Orderly s) (hpc : s.worker w = .rejected key odata) (ho : s.record odata = some o) :
    StatusesAgree (((s.writeStatus key (failingStatus o.ioType)).logged key odata
      (o.report (failingError o.ioType) (failingPeer o.ioType) (failingBuf o) 0)).setWorker w
        (.reported key odata)) := by
  have hfired : o.fired = true := h.sound.buffered.launched w key odata o (.inr hpc) ho
  have hin : InCall s key o.ioType odata := h.inCall (w := w) (by rw [hpc]; rfl) (by rw [hpc]; rfl) ho hfired
  have hlog : ((s.writeStatus key (failingStatus o.ioType)).logged key odata
      (o.report (failingError o.ioType) (failingPeer o.ioType) (failingBuf o) 0)).log =
      s.log ++ [⟨odata, key, o.report (failingError o.ioType) (failingPeer o.ioType) (failingBuf o) 0⟩] := rfl
  have hstatus : ∀ ep, ((s.writeStatus key (failingStatus o.ioType)).socket ep).status =
      if ep = key then (failingStatus o.ioType).getD (s.socket key).status else (s.socket ep).status :=
    fun ep => writeStatus_status s key ep _
  by_cases hthrough : throughContext o.ioType = true
  · refine h.agree.release hthrough hin ?_ ?_ ?_ (fun m => .inl)
    · intro ep type i _
      refine inCall_reported (s := s) rfl rfl hlog ?_
      rfl
    · intro type
      change some ((s.writeStatus key (failingStatus o.ioType)).socket key).status ≠ busyStatus type
      rw [hstatus key, if_pos rfl]
      cases hfailing : failingStatus o.ioType with
      | none =>
        cases hio : o.ioType with
        | accept =>
          rw [hio] at hfailing
          cases hfailing
        | connect =>
          rw [hio] at hfailing
          cases hfailing
        | _ =>
          rw [hio] at hthrough
          cases hthrough
      | some status => exact failingStatus_not_busy hfailing
    · intro ep hep
      left
      exact (hstatus ep).trans (if_neg hep)
  · rw [Bool.not_eq_true] at hthrough
    refine h.agree.of_same ?_ ?_ (fun m => .inl)
    · intro ep type i htype
      refine Iff.trans (inCall_reported (s := s) rfl rfl hlog ?_) (and_iff_left_of_imp ?_)
      · rfl
      · rintro ⟨⟨q, hq, _, rfl⟩, _, _⟩ rfl
        rw [ho] at hq
        obtain rfl := Option.some.inj hq
        rw [htype] at hthrough
        cases hthrough
    · intro ep
      left
      refine (hstatus ep).trans ?_
      rw [failingStatus_data hthrough]
      split
      · next hep => rw [hep]; rfl
      · rfl

/-- A record that is recycled was reported before. -/
theorem agree_recycled (h : Orderly s) (hpc : s.worker w = .reported key odata) :
    StatusesAgree (((s.setRecord odata none).logged key odata .recycle).setWorker w .idle) := by
  have hreported : s.reports odata ≠ 0 := h.sound.kept.reports_of_reported hpc
  have hreports : ∀ i, (((s.setRecord odata none).logged key odata .recycle).setWorker w .idle).reports i =
      s.reports i := by
    intro i
    rw [reports_append (s := s) (e := ⟨odata, key, .recycle⟩) rfl i]
    simp only [Action.isCallback, Bool.false_eq_true, and_false, if_false, Nat.add_zero]
  refine h.agree.of_same ?_ (fun ep => .inl rfl) (fun m => .inl)
  intro ep type i _
  by_cases hi : i = odata
  · subst hi
    refine iff_of_false (fun hin => ?_) (fun hin => hreported hin.unreported)
    exact hreported ((hreports i).symm.trans hin.unreported)
  · refine inCall_congr (s := s) rfl ?_ ?_
    · intro q _ _
      change Function.update s.record odata none i = some q ↔ _
      rw [Function.update_of_ne hi]
    · exact fun _ => hreports i

theorem agree_move (h : Orderly s) (hl : Undisturbed s l) (hmove : Move s l t) : StatusesAgree t := by
  cases hmove with
  | stutter => exact h.agree
  | failed l message hmessage =>
    refine h.agree.of_same (fun ep type i _ => inCall_of_same rfl rfl rfl) (fun ep => .inl rfl) ?_
    intro m hm
    refine (List.mem_append.mp hm).imp_right (fun hm => ?_)
    have hcalls : ∀ x ∈ callMessages, x ∉ statusMessages := by decide
    exact List.mem_singleton.mp hm ▸ hcalls message hmessage
  | created status hstatus =>
    refine h.agree.of_same (fun ep type i _ => inCall_of_same rfl rfl rfl) ?_ (fun m => .inl)
    intro ep
    by_cases hep : ep = s.nextEp
    · subst hep
      right
      refine ⟨fun type => ?_, fun type i _ hin => (h.inCall_lt hin).false⟩
      change some (Function.update s.socket s.nextEp _ s.nextEp).status ≠ _
      rw [Function.update_self]
      intro heq
      cases type with
      | accept => exact hstatus.2 (Option.some.inj heq)
      | connect => exact hstatus.1 (Option.some.inj heq)
      | _ => cases heq
    · left
      change (Function.update s.socket s.nextEp _ ep).status = _
      rw [Function.update_of_ne hep]
  | joined ep =>
    exact h.agree.of_same (fun ep type i _ => inCall_of_same rfl rfl rfl)
      (fun ep' => .inl (setContext_status s ep ep' _)) (fun m => .inl)
  | departed ep acceptEx connectEx =>
    obtain ⟨haccepting, hconnecting, _⟩ := hl
    refine h.agree.of_same (fun ep type i _ => inCall_of_same rfl rfl rfl) ?_ (fun m => .inl)
    intro ep'
    rw [writeStatus_status]
    split
    · next hep =>
      subst hep
      right
      refine ⟨fun type heq => ?_, h.none_of_status (fun type heq => ?_)⟩
      · cases type <;> cases heq
      · cases type with
        | accept => exact haccepting (Option.some.inj heq)
        | connect => exact hconnecting (Option.some.inj heq)
        | _ => cases heq
    · exact .inl (setContext_status s ep ep' _)
  | posted ep call ioctl queued =>
    refine h.agree.of_same (fun ep type i _ => ?_) (fun ep => .inl rfl) ?_
    · exact inCall_post h.sound.kept.placed h.sound.kept.matched
    · exact post_expected
  | loaded ep call ioctl queued ctx hep hloads =>
    have hmatched := h.sound.kept.matched
    have hloaded : StatusesAgree (s.setContext ep ctx) :=
      h.agree.of_same (fun ep type i _ => inCall_of_same rfl rfl rfl)
        (fun ep' => .inl (setContext_status s ep ep' ctx)) (fun m => .inl)
    refine hloaded.of_same (fun ep' type i _ => ?_) (fun ep' => .inl rfl) ?_
    · apply inCall_post
      · exact h.sound.kept.placed.of_same rfl rfl rfl rfl rfl rfl
      · exact ⟨hmatched.numbered, hmatched.recognized, hmatched.records, hmatched.keys⟩
    · exact post_expected
  | dequeued => exact h.agree.of_same (fun ep type i _ => inCall_of_same rfl rfl rfl) (fun ep => .inl rfl) (fun m => .inl)
  | lost => exact h.agree.of_same (fun ep type i _ => inCall_of_same rfl rfl rfl) (fun ep => .inl rfl) (fun m => .inl)
  | observed =>
    exact h.agree.of_same (fun ep type i _ => inCall_of_same rfl rfl rfl) (fun ep => .inl rfl) (fun m => .inl)
  | concluded w c provisioning handle p st result o hpc ho hfired => exact h.agree_concluded hpc ho hfired
  | initiated w c provisioning handle p st result o hpc ho hfresh =>
    exact h.agree_initiated hpc ho (hfresh (h.sound.kept.matched.ioType_ne ho))
  | submitted w c key odata =>
    refine h.agree.of_same (fun ep type i _ => ?_) (fun ep => .inl rfl) (fun m => .inl)
    exact inCall_silent (e := ⟨odata, key, .submit true⟩) rfl rfl rfl rfl
  | refused w c key odata =>
    refine h.agree.of_same (fun ep type i _ => ?_) (fun ep => .inl rfl) (fun m => .inl)
    exact inCall_silent (e := ⟨odata, key, .submit false⟩) rfl rfl rfl rfl
  | rejected w key odata o hpc ho => exact h.agree_rejected hpc ho
  | recycled w key odata o hpc => exact h.agree_recycled hpc
  | completed =>
    exact h.agree.of_same (fun ep type i _ => inCall_of_same rfl rfl rfl) (fun ep => .inl rfl) (fun m => .inl)

/-- The worker that reads a status finds the one of the endpoint. -/
theorem watching_observed (h : Orderly s) (hpc : s.worker w = .dequeued p)
    (hl : s.fires p.odata = true → ∀ v, s.reading v ≠ some p.key) :
    Watching (s.setWorker w (.observed p (s.socket p.key).status result)) := by
  have hworker : ∀ v, (s.setWorker w (.observed p (s.socket p.key).status result)).worker v =
      if v = w then .observed p (s.socket p.key).status result else s.worker v :=
    fun v => Function.update_apply ..
  have hreading : ∀ v ep, v ≠ w →
      (s.setWorker w (.observed p (s.socket p.key).status result)).reading v = some ep → s.reading v = some ep := by
    intro v ep hv hread
    obtain ⟨p', st', result', o, hpc', ho, hthrough, hfresh, rfl⟩ := observed_of_reading hread
    rw [hworker v, if_neg hv] at hpc'
    exact reading_of_observed hpc' ho hthrough hfresh
  have hself : ∀ ep, (s.setWorker w (.observed p (s.socket p.key).status result)).reading w = some ep →
      ep = p.key ∧ s.fires p.odata = true := by
    intro ep hread
    obtain ⟨p', st', result', o, hpc', ho, hthrough, hfresh, rfl⟩ := observed_of_reading hread
    rw [hworker w, if_pos rfl] at hpc'
    cases hpc'
    refine ⟨rfl, ?_⟩
    rw [State.fires, show s.record p.odata = some o from ho, Option.any_some, hthrough, hfresh]
    rfl
  constructor
  · intro v p' st' result' o hv ho hthrough hfresh hst
    rw [hworker v] at hv
    split at hv
    · cases hv
      rfl
    · exact h.watching.current v p' st' result' o hv ho hthrough hfresh hst
  · intro v p' st' result' o hv ho hthrough hfired
    rw [hworker v] at hv
    split at hv
    · cases hv
      have hin := h.inCall (w := w) (by rw [hpc]; rfl) (by rw [hpc]; rfl) ho hfired
      exact (h.agree.status p.key o.ioType hthrough).mpr ⟨_, hin⟩
    · exact h.watching.awaited v p' st' result' o hv ho hthrough hfired
  · intro v v' ep hv hv'
    by_cases hvw : v = w
    · by_cases hvw' : v' = w
      · rw [hvw, hvw']
      · rw [hvw] at hv
        obtain ⟨rfl, hfires⟩ := hself ep hv
        exact absurd (hreading v' _ hvw' hv') (hl hfires v')
    · by_cases hvw' : v' = w
      · rw [hvw'] at hv'
        obtain ⟨rfl, hfires⟩ := hself ep hv'
        exact absurd (hreading v _ hvw hv) (hl hfires v)
      · exact h.watching.alone v v' ep (hreading v ep hvw hv) (hreading v' ep hvw' hv')

/-- The endpoint of a call that ends had one in progress, and one that is made is not read yet. -/
theorem watching_concluded (h : Orderly s) (hpc : s.worker w = .observed p st result)
    (ho : s.record p.odata = some o) (hfired : o.fired = true) :
    Watching (s.conclude w p st result o c provisioning handle) := by
  have hin : InCall s p.key o.ioType p.odata := h.inCall (w := w) (by rw [hpc]; rfl) (by rw [hpc]; rfl) ho hfired
  have hkept := kept_hand (t := s.conclude w p st result o c provisioning handle) h.sound.kept.placed rfl rfl
    (fun i _ => rfl)
  refine h.watching.of_kept hkept (fun ep => ?_)
  by_cases hnext : ep = s.nextEp
  · right
    left
    intro v hv
    exact (h.reading_lt (reading_of_kept hkept hv)).ne hnext
  · rw [conclude_status hnext]
    split
    · next hep =>
      subst hep
      by_cases hthrough : throughContext o.ioType = true
      · exact .inr (.inr ⟨o.ioType, (h.agree.status p.key o.ioType hthrough).mpr ⟨_, hin⟩⟩)
      · rw [Bool.not_eq_true] at hthrough
        rw [endStatus_data result hthrough]
        exact .inl rfl
    · exact .inl rfl

/-- Who reads the endpoint is the worker that writes it, which reads no more. -/
theorem watching_initiated (h : Orderly s) (hpc : s.worker w = .observed p st result)
    (ho : s.record p.odata = some o) (hfresh : o.fired = false) :
    Watching ((s.freed p st o).initiate w p st o c) := by
  have hplaced := h.sound.kept.placed
  have hheld : (s.worker w).held = some p.odata := by rw [hpc]; rfl
  rw [State.initiate]
  split
  · exact h.watching.of_kept (kept_hand hplaced rfl rfl (fun i _ => rfl)) (fun ep => .inl rfl)
  · exact h.watching.of_kept (kept_hand hplaced rfl rfl (fun i _ => rfl)) (fun ep => .inl rfl)
  · next pending hprepare =>
    have hkept := kept_hand (t := (((s.freed p st o).writeStatus p.key pending).setRecord p.odata
      (some (o.fire c))).setWorker w (.launching p.key p.odata)) hplaced rfl rfl
      (fun i hi => Function.update_of_ne (Ne.symm (fun heq : p.odata = i => hi (heq ▸ hheld))) _ _)
    refine h.watching.of_kept hkept (fun ep => ?_)
    have hstatus := writeStatus_status (s.freed p st o) p.key ep pending
    change (((s.freed p st o).writeStatus p.key pending).socket ep).status = _ ∨ _
    rw [hstatus]
    split
    · next hep =>
      subst hep
      by_cases hthrough : throughContext o.ioType = true
      · right
        left
        intro v hv
        obtain rfl := h.watching.alone v w p.key (reading_of_kept hkept hv)
          (reading_of_observed hpc ho hthrough hfresh)
        simp only [State.reading, State.setWorker, Function.update_self, reduceCtorEq] at hv
      · rw [Bool.not_eq_true] at hthrough
        rw [prepare_data hthrough hprepare]
        exact .inl rfl
    · exact .inl rfl

/-- The call that fails was in progress. -/
theorem watching_rejected (h : Orderly s) (hpc : s.worker w = .rejected key odata) (ho : s.record odata = some o) :
    Watching (((s.writeStatus key (failingStatus o.ioType)).logged key odata
      (o.report (failingError o.ioType) (failingPeer o.ioType) (failingBuf o) 0)).setWorker w
        (.reported key odata)) := by
  have hfired : o.fired = true := h.sound.buffered.launched w key odata o (.inr hpc) ho
  have hin : InCall s key o.ioType odata := h.inCall (w := w) (by rw [hpc]; rfl) (by rw [hpc]; rfl) ho hfired
  refine h.watching.of_kept (kept_hand h.sound.kept.placed rfl rfl (fun i _ => rfl)) (fun ep => ?_)
  have hstatus := writeStatus_status s key ep (failingStatus o.ioType)
  change ((s.writeStatus key (failingStatus o.ioType)).socket ep).status = _ ∨ _
  rw [hstatus]
  split
  · next hep =>
    subst hep
    by_cases hthrough : throughContext o.ioType = true
    · exact .inr (.inr ⟨o.ioType, (h.agree.status ep o.ioType hthrough).mpr ⟨_, hin⟩⟩)
    · rw [Bool.not_eq_true] at hthrough
      rw [failingStatus_data hthrough]
      exact .inl rfl
  · exact .inl rfl

/-- A worker that reads a status has another record than the one that is posted. -/
theorem kept_post (h : Orderly s) {u : State n} {call : AsyncCall} {queued : Bool} (hrecord : u.record = s.record)
    (hnext : u.nextRecord = s.nextRecord) (hworker : u.worker = s.worker) :
    ∀ v p st result, (u.post key call queued).worker v = .observed p st result →
      s.worker v = .observed p st result ∧ (u.post key call queued).record p.odata = s.record p.odata := by
  intro v p st result hv
  have hv' : s.worker v = .observed p st result := hworker ▸ hv
  refine ⟨hv', ?_⟩
  obtain ⟨o, ho⟩ := h.sound.kept.placed.held_record (w := v) (i := p.odata) (by rw [hv']; rfl)
  change Function.update u.record u.nextRecord _ p.odata = _
  rw [hnext, hrecord]
  apply Function.update_of_ne
  intro heq
  rw [heq, h.sound.kept.placed.fresh _ le_rfl] at ho
  cases ho

theorem watching_move (h : Orderly s) (hl : Undisturbed s l) (hmove : Move s l t) : Watching t := by
  have hplaced := h.sound.kept.placed
  have hsame : ∀ v p st result, s.worker v = .observed p st result →
      s.worker v = .observed p st result ∧ s.record p.odata = s.record p.odata := fun v p st result hv => ⟨hv, rfl⟩
  cases hmove with
  | stutter => exact h.watching
  | failed => exact h.watching.of_kept hsame (fun ep => .inl rfl)
  | created status =>
    refine h.watching.of_kept hsame (fun ep => ?_)
    by_cases hep : ep = s.nextEp
    · right
      left
      intro v hv
      exact (h.reading_lt (w := v) hv).ne hep
    · left
      change (Function.update s.socket s.nextEp _ ep).status = _
      rw [Function.update_of_ne hep]
  | joined ep => exact h.watching.of_kept hsame (fun ep' => .inl (setContext_status s ep ep' _))
  | departed ep =>
    refine h.watching.of_kept hsame (fun ep' => ?_)
    by_cases hep : ep' = ep
    · exact .inr (.inl (fun v => hep ▸ hl.2.2 v))
    · left
      rw [writeStatus_status, if_neg hep]
      exact setContext_status s ep ep' _
  | posted ep call ioctl queued => exact h.watching.of_kept (h.kept_post rfl rfl rfl) (fun ep => .inl rfl)
  | loaded ep call ioctl queued ctx =>
    exact h.watching.of_kept (h.kept_post (u := s.setContext ep ctx) rfl rfl rfl)
      (fun ep' => .inl (setContext_status s ep ep' ctx))
  | dequeued w p rest hpc hport =>
    refine h.watching.of_kept (kept_hand hplaced rfl rfl (fun i _ => rfl)) (fun ep => .inl rfl)
  | lost => exact h.watching.of_kept hsame (fun ep => .inl rfl)
  | observed w result p o hpc ho =>
    apply h.watching_observed hpc
    simp only [Undisturbed, hpc] at hl
    exact hl
  | concluded w c provisioning handle p st result o hpc ho hfired => exact h.watching_concluded hpc ho hfired
  | initiated w c provisioning handle p st result o hpc ho hfresh =>
    exact h.watching_initiated hpc ho (hfresh (h.sound.kept.matched.ioType_ne ho))
  | submitted => exact h.watching.of_kept (kept_hand hplaced rfl rfl (fun i _ => rfl)) (fun ep => .inl rfl)
  | refused => exact h.watching.of_kept (kept_hand hplaced rfl rfl (fun i _ => rfl)) (fun ep => .inl rfl)
  | rejected w key odata o hpc ho => exact h.watching_rejected hpc ho
  | recycled w key odata o hpc =>
    refine h.watching.of_kept (kept_hand hplaced rfl rfl (fun i hi => ?_)) (fun ep => .inl rfl)
    change Function.update s.record odata none i = s.record i
    apply Function.update_of_ne
    rintro rfl
    exact hi (by rw [hpc]; rfl)
  | completed => exact h.watching.of_kept hsame (fun ep => .inl rfl)

theorem move (h : Orderly s) (hl : Undisturbed s l) (hmove : Move s l t) : Orderly t :=
  ⟨h.sound.move hmove, h.agree_move hl hmove, h.watching_move hl hmove⟩

theorem initial (n : ℕ) : Orderly (State.initial n) where
  sound := .initial n
  agree := by
    have hnone : ∀ ep type i, ¬ InCall (State.initial n) ep type i := by
      rintro ep type i ⟨⟨o, ho, _⟩, _, _⟩
      cases ho
    constructor
    · exact fun ep type i j _ hi => absurd hi (hnone ep type i)
    · intro ep type _
      refine iff_of_false (fun heq => ?_) (not_exists.mpr (hnone ep type))
      cases type <;> cases heq
    · exact fun m hm => absurd hm List.not_mem_nil
  watching :=
    { current := fun _ _ _ _ _ hw => by cases hw
      awaited := fun _ _ _ _ _ hw => by cases hw
      alone := fun _ _ _ hw => by cases hw }

end Orderly
end Moves

/-- Where no two workers are between the reading and the writing for one endpoint, and it departs
neither then nor during the call, an endpoint has at most one accept or connect in progress, and its
status says which. -/
theorem statusesAgree_untilFault (n : ℕ) (labels : List (Label n))
    (h : Along step Undisturbed (State.initial n) labels) :
    UntilFault step StatusesAgree (State.initial n) labels := by
  have horderly : UntilFault step Orderly (State.initial n) labels :=
    untilFault_of_preserved (fun s l t hs hl hstep => hs.move hl (step_move hstep)) (Orderly.initial n) h
  exact horderly.mono (fun _ => Orderly.agree)

section Runs

/-- Overlapped calls that stay pending. -/
def pendingCalls : Winsock := ⟨none, some 5, true, true, false, ERROR_IO_PENDING, true⟩

/-- Two accepts on one endpoint, one worker after the other: the second finds the first in
progress and is refused. -/
def acceptsInTurn : List (Label 2) :=
  [.create .listening, .join 0 true, .async 0 (.accept 7) true true, .async 0 (.accept 8) true true,
    .dequeue 0, .observe 0 none, .act 0 pendingCalls true true, .launch 0 pendingCalls,
    .dequeue 1, .observe 1 none, .act 1 pendingCalls true true, .recycle 1,
    .complete 0 true 0, .dequeue 1, .observe 1 (some 0), .act 1 pendingCalls true true, .recycle 1]

theorem statusesAgree_untilFault_acceptsInTurn :
    UntilFault step StatusesAgree (State.initial 2) acceptsInTurn :=
  statusesAgree_untilFault 2 acceptsInTurn (by decide)

/-- The same accepts, both statuses read before either is written: both are fired, and the
second that ends does not find the status it expects. -/
def acceptsAtOnce : List (Label 2) :=
  [.create .listening, .join 0 true, .async 0 (.accept 7) true true, .async 0 (.accept 8) true true,
    .dequeue 0, .observe 0 none, .dequeue 1, .observe 1 none,
    .act 0 pendingCalls true true, .launch 0 pendingCalls, .act 1 pendingCalls true true, .launch 1 pendingCalls,
    .complete 0 true 0, .dequeue 0, .observe 0 (some 0), .act 0 pendingCalls true true, .recycle 0,
    .complete 1 true 0, .dequeue 0, .observe 0 (some 0), .act 0 pendingCalls true true, .recycle 0]

example : Returns (final step (State.initial 2) acceptsAtOnce) (fun s =>
    s.failed = ["NetEndpoint::ESTAT_ACCEPTING == st"]) := by decide

end Runs

end LibXpf.NetIoMux.Iocp
