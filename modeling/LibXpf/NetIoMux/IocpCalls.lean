import LibXpf.NetIoMux.IocpFaults

/-! # The calls in progress and the statuses

An accept or a connect is in progress from the moment its record is fired until its
callback is called. What a move does to these calls and to the statuses decides whether
they still agree.
-/
namespace LibXpf.NetIoMux.Iocp
open GuardedRuns Custody

variable {n : ℕ} {s t : State n} {i ep key odata : ℕ} {l : Label n} {type : EIoType}

section Statuses

/-- The status while a call of the operation is in progress. -/
def busyStatus : EIoType → Option EStatus
  | .accept => some .accepting
  | .connect => some .connecting
  | _ => none

/-- A record is in a call from the moment it is fired until its callback is called. -/
structure InCall (s : State n) (ep : ℕ) (type : EIoType) (i : ℕ) : Prop where
  fired : ∃ o, s.record i = some o ∧ o.fired = true ∧ o.ioType = type
  key : ∃ q, s.posted[i]? = some (ep, q)
  unreported : s.reports i = 0

/-- What `runOnce` asserts of the status it has read when a call has ended. -/
def statusMessages : List String :=
  ["NetEndpoint::ESTAT_ACCEPTING == st", "NetEndpoint::ESTAT_CONNECTING == st"]

/-- The status of an endpoint tells whether it has an accept or a connect in progress,
which is the only one then, and `runOnce` finds the status it expects. -/
structure StatusesAgree (s : State n) : Prop where
  unique : ∀ ep type i j, throughContext type = true → InCall s ep type i → InCall s ep type j → i = j
  status : ∀ ep type, throughContext type = true →
    (some (s.socket ep).status = busyStatus type ↔ ∃ i, InCall s ep type i)
  expected : ∀ m ∈ s.failed, m ∉ statusMessages

/-- Whoever processes the record fires an accept or a connect, if the status allows it. -/
def State.fires (s : State n) (odata : ℕ) : Bool :=
  (s.record odata).any (fun o => throughContext o.ioType && !o.fired)

/-- The endpoint whose status a worker has read for such a record. -/
def State.reading (s : State n) (w : Fin n) : Option ℕ :=
  match s.worker w with
  | .observed p _ _ => if s.fires p.odata then some p.key else none
  | _ => none

/-- No two workers read the status of an endpoint to fire an accept or a connect on it, and
an endpoint departs neither then nor while the call is in progress. -/
def Undisturbed (s : State n) : Label n → Prop
  | .observe w _ =>
    match s.worker w with
    | .dequeued p => s.fires p.odata = true → ∀ v, s.reading v ≠ some p.key
    | _ => True
  | .depart ep =>
    (s.socket ep).status ≠ .accepting ∧ (s.socket ep).status ≠ .connecting ∧ ∀ v, s.reading v ≠ some ep
  | _ => True

instance (s : State n) : (l : Label n) → Decidable (Undisturbed s l)
  | .observe w _ => by
    dsimp only [Undisturbed]
    exact match s.worker w with
      | .dequeued _ => inferInstanceAs (Decidable (_ → ∀ _, _))
      | .idle | .observed _ _ _ | .launching _ _ | .rejected _ _ | .reported _ _ => isTrue trivial
  | .depart _ => inferInstanceAs (Decidable (_ ∧ _ ∧ ∀ _, _))
  | .create _ | .join _ _ | .async _ _ _ _ | .dequeue _ | .act _ _ _ _ | .launch _ _ | .reject _ |
    .recycle _ | .complete _ _ _ => isTrue trivial

end Statuses

section Calls

variable {c : Winsock} {o : NetIoMuxOverlapped} {st : EStatus} {hasContext : Bool}

theorem busyStatus_inj {type type' : EIoType} (h : throughContext type = true) (h' : throughContext type' = true)
    (heq : busyStatus type = busyStatus type') : type = type' := by
  cases type with
  | accept =>
    cases type' with
    | accept => rfl
    | connect => cases heq
    | _ => cases h'
  | connect =>
    cases type' with
    | accept => cases heq
    | connect => rfl
    | _ => cases h'
  | _ => cases h

theorem busyStatus_ne_none (h : throughContext type = true) : busyStatus type ≠ none := by
  cases type with
  | accept => exact Option.some_ne_none _
  | connect => exact Option.some_ne_none _
  | _ => cases h

/-- The statuses that an endpoint has before and after a call are not those during one. -/
theorem failingStatus_not_busy {type' : EIoType} (hst : failingStatus type = some st) :
    some st ≠ busyStatus type' := by
  intro heq
  cases type <;> cases hst <;> cases type' <;> cases heq

theorem prepare_ready {pending : Option EStatus} (hthrough : throughContext o.ioType = true)
    (h : prepare c st hasContext o = .ready pending) :
    failingStatus o.ioType = some st ∧ pending = busyStatus o.ioType := by
  unfold prepare at h
  cases hio : o.ioType with
  | accept =>
    simp only [hio] at h
    repeat' split at h
    all_goals cases h
    next hst _ => exact ⟨congrArg some (not_not.mp hst).symm, rfl⟩
  | connect =>
    simp only [hio] at h
    repeat' split at h
    all_goals cases h
    next hst _ _ => exact ⟨congrArg some (not_not.mp hst).symm, rfl⟩
  | _ =>
    rw [hio] at hthrough
    cases hthrough

theorem failingStatus_data (hdata : throughContext type = false) : failingStatus type = none := by
  cases type with
  | accept => cases hdata
  | connect => cases hdata
  | _ => rfl

theorem prepare_data {pending : Option EStatus} (hdata : throughContext o.ioType = false)
    (h : prepare c st hasContext o = .ready pending) : pending = none := by
  apply pending_eq_none h
  exact failingStatus_data hdata

theorem endStatus_not_busy (result : Option ℕ) {st : EStatus} (h : endStatus result type = some st)
    (type' : EIoType) : some st ≠ busyStatus type' := by
  intro heq
  cases type with
  | accept =>
    cases h
    cases type' <;> cases heq
  | connect =>
    simp only [endStatus, Option.some.injEq] at h
    rw [← h] at heq
    split at heq <;> cases type' <;> cases heq
  | _ => cases h

theorem endStatus_data (result : Option ℕ) (hdata : throughContext type = false) : endStatus result type = none := by
  cases type with
  | accept => cases hdata
  | connect => cases hdata
  | _ => rfl

namespace StatusesAgree

/-- No call begins or ends, and the endpoints with calls keep their statuses. -/
theorem of_same (h : StatusesAgree s)
    (hcall : ∀ ep type i, throughContext type = true → (InCall t ep type i ↔ InCall s ep type i))
    (hstatus : ∀ ep, (t.socket ep).status = (s.socket ep).status ∨
      (∀ type, some (t.socket ep).status ≠ busyStatus type) ∧
        ∀ type i, throughContext type = true → ¬ InCall s ep type i)
    (hfailed : ∀ m ∈ t.failed, m ∈ s.failed ∨ m ∉ statusMessages) : StatusesAgree t where
  unique ep type i j hthrough hi hj :=
    h.unique ep type i j hthrough ((hcall ep type i hthrough).mp hi) ((hcall ep type j hthrough).mp hj)
  status ep type hthrough := by
    have hexists : (∃ i, InCall t ep type i) ↔ ∃ i, InCall s ep type i :=
      exists_congr (fun i => hcall ep type i hthrough)
    rw [hexists]
    rcases hstatus ep with hsame | ⟨hbusy, hnone⟩
    · rw [hsame]
      exact h.status ep type hthrough
    · exact iff_of_false (hbusy type) (not_exists.mpr (fun i => hnone type i hthrough))
  expected m hm := (hfailed m hm).elim (h.expected m) id

/-- The call of a record ends. -/
theorem release (h : StatusesAgree s) {type : EIoType} (hthrough : throughContext type = true)
    (hin : InCall s key type odata)
    (hcall : ∀ ep type i, throughContext type = true → (InCall t ep type i ↔ InCall s ep type i ∧ i ≠ odata))
    (hkey : ∀ type, some (t.socket key).status ≠ busyStatus type)
    (hstatus : ∀ ep, ep ≠ key → (t.socket ep).status = (s.socket ep).status ∨
      (∀ type, some (t.socket ep).status ≠ busyStatus type) ∧
        ∀ type i, throughContext type = true → ¬ InCall s ep type i)
    (hfailed : ∀ m ∈ t.failed, m ∈ s.failed ∨ m ∉ statusMessages) : StatusesAgree t where
  unique ep type i j hthrough hi hj :=
    h.unique ep type i j hthrough ((hcall ep type i hthrough).mp hi).1 ((hcall ep type j hthrough).mp hj).1
  status ep type' hthrough' := by
    by_cases hep : ep = key
    · subst hep
      refine iff_of_false (hkey type') ?_
      rintro ⟨i, hi⟩
      obtain ⟨hi, hne⟩ := (hcall ep type' i hthrough').mp hi
      -- The status before tells of which operation the call was.
      have hbusy := (h.status ep type hthrough).mpr ⟨odata, hin⟩
      have hbusy' := (h.status ep type' hthrough').mpr ⟨i, hi⟩
      obtain rfl := busyStatus_inj hthrough hthrough' (hbusy.symm.trans hbusy')
      exact hne (h.unique ep type i odata hthrough hi hin)
    · have hexists : (∃ i, InCall t ep type' i) ↔ ∃ i, InCall s ep type' i := by
        refine exists_congr (fun i => (hcall ep type' i hthrough').trans (and_iff_left_of_imp ?_))
        rintro hi rfl
        obtain ⟨q, hq⟩ := hi.key
        obtain ⟨r, hr⟩ := hin.key
        rw [hq] at hr
        exact hep (congrArg Prod.fst (Option.some.inj hr))
      rw [hexists]
      rcases hstatus ep hep with hsame | ⟨hbusy, hnone⟩
      · rw [hsame]
        exact h.status ep type' hthrough'
      · exact iff_of_false (hbusy type') (not_exists.mpr (fun i => hnone type' i hthrough'))
  expected m hm := (hfailed m hm).elim (h.expected m) id

/-- A record is fired, on an endpoint that has no call in progress. -/
theorem fire (h : StatusesAgree s) {type : EIoType} (hthrough : throughContext type = true)
    (hcall : ∀ ep type' i, throughContext type' = true →
      (InCall t ep type' i ↔ InCall s ep type' i ∨ ep = key ∧ type' = type ∧ i = odata))
    (hidle : ∀ type, some (s.socket key).status ≠ busyStatus type)
    (hkey : some (t.socket key).status = busyStatus type)
    (hstatus : ∀ ep, ep ≠ key → (t.socket ep).status = (s.socket ep).status)
    (hfailed : t.failed = s.failed) : StatusesAgree t := by
  have hnone : ∀ type' i, throughContext type' = true → ¬ InCall s key type' i :=
    fun type' i hthrough' hi => hidle type' ((h.status key type' hthrough').mpr ⟨i, hi⟩)
  constructor
  · intro ep type' i j hthrough' hi hj
    rcases (hcall ep type' i hthrough').mp hi with hi | ⟨rfl, rfl, rfl⟩
    · rcases (hcall ep type' j hthrough').mp hj with hj | ⟨rfl, rfl, rfl⟩
      · exact h.unique ep type' i j hthrough' hi hj
      · exact absurd hi (hnone type' i hthrough')
    · rcases (hcall ep type' j hthrough').mp hj with hj | ⟨_, _, rfl⟩
      · exact absurd hj (hnone type' j hthrough')
      · rfl
  · intro ep type' hthrough'
    by_cases hep : ep = key
    · subst hep
      rw [hkey]
      constructor
      · intro heq
        exact ⟨odata, (hcall ep type' odata hthrough').mpr
          (.inr ⟨rfl, (busyStatus_inj hthrough hthrough' heq).symm, rfl⟩)⟩
      · rintro ⟨i, hi⟩
        rcases (hcall ep type' i hthrough').mp hi with hi | ⟨_, rfl, _⟩
        · exact absurd hi (hnone type' i hthrough')
        · rfl
    · have hexists : (∃ i, InCall t ep type' i) ↔ ∃ i, InCall s ep type' i :=
        exists_congr (fun i => (hcall ep type' i hthrough').trans
          (or_iff_left (fun hand => hep hand.1)))
      rw [hexists, hstatus ep hep]
      exact h.status ep type' hthrough'
  · rw [hfailed]
    exact h.expected

end StatusesAgree

/-- A move that changes no record of a call and calls no callback for one. -/
theorem inCall_congr (hposted : t.posted = s.posted)
    (hrecord : ∀ o, o.fired = true → o.ioType = type → (t.record i = some o ↔ s.record i = some o))
    (hreports : (∃ o, s.record i = some o ∧ o.fired = true ∧ o.ioType = type) → t.reports i = s.reports i) :
    InCall t ep type i ↔ InCall s ep type i := by
  have hfired : (∃ o, t.record i = some o ∧ o.fired = true ∧ o.ioType = type) ↔
      ∃ o, s.record i = some o ∧ o.fired = true ∧ o.ioType = type :=
    exists_congr (fun o => and_congr_left (fun ho => hrecord o ho.1 ho.2))
  constructor
  · rintro ⟨hin, hkey, hnone⟩
    have hin' := hfired.mp hin
    exact ⟨hin', hposted ▸ hkey, hreports hin' ▸ hnone⟩
  · rintro ⟨hin, hkey, hnone⟩
    exact ⟨hfired.mpr hin, hposted ▸ hkey, (hreports hin).trans hnone⟩

/-- The same where neither the records nor the log change. -/
theorem inCall_of_same (hposted : t.posted = s.posted) (hrecord : t.record = s.record) (hlog : t.log = s.log) :
    InCall t ep type i ↔ InCall s ep type i := by
  apply inCall_congr hposted
  · intro o _ _
    rw [hrecord]
  · intro _
    rw [State.reports, State.reports, hlog]

/-- The same where the log gets something that is no callback. -/
theorem inCall_silent {e : Entry} (hposted : t.posted = s.posted) (hrecord : t.record = s.record)
    (hlog : t.log = s.log ++ [e]) (hsilent : e.action.isCallback = false) :
    InCall t ep type i ↔ InCall s ep type i := by
  apply inCall_congr hposted
  · intro o _ _
    rw [hrecord]
  · intro _
    rw [reports_append hlog, if_neg (by simp only [hsilent, Bool.false_eq_true, and_false, not_false_eq_true]),
      Nat.add_zero]

/-- A new request is no call yet. -/
theorem inCall_post (hplaced : Placed s) (hmatched : Matched s) {call : AsyncCall} {queued : Bool} {key : ℕ} :
    InCall (s.post key call queued) ep type i ↔ InCall s ep type i := by
  have hold : ∀ o, s.record i = some o → i < s.nextRecord := by
    intro o ho
    by_contra hle
    rw [hplaced.fresh i (not_lt.mp hle)] at ho
    cases ho
  have hposted : i < s.nextRecord → (s.post key call queued).posted[i]? = s.posted[i]? := by
    intro hlt
    apply List.getElem?_append_left
    rwa [hmatched.numbered]
  constructor
  · rintro ⟨⟨o, ho, hfired, hio⟩, hkey, hnone⟩
    rcases record_post ho with ho | ⟨_, rfl⟩
    · exact ⟨⟨o, ho, hfired, hio⟩, hposted (hold o ho) ▸ hkey, hnone⟩
    · cases call <;> cases hfired
  · rintro ⟨⟨o, ho, hfired, hio⟩, hkey, hnone⟩
    have hlt := hold o ho
    refine ⟨⟨o, ?_, hfired, hio⟩, (hposted hlt).symm ▸ hkey, hnone⟩
    exact (Function.update_of_ne hlt.ne _ _).trans ho

/-- A record that is reported is in no call any more. -/
theorem inCall_reported (hposted : t.posted = s.posted) (hrecord : t.record = s.record) {action : Action}
    (hlog : t.log = s.log ++ [⟨odata, key, action⟩]) (hcallback : action.isCallback = true) :
    InCall t ep type i ↔ InCall s ep type i ∧ i ≠ odata := by
  have hreports := reports_append hlog i
  by_cases hi : i = odata
  · subst hi
    refine iff_of_false (fun hin => ?_) (fun hand => hand.2 rfl)
    have hnone := hin.unreported
    rw [hreports, if_pos ⟨rfl, hcallback⟩] at hnone
    cases hnone
  · rw [if_neg (fun hand => hi hand.1.symm)] at hreports
    rw [and_iff_left hi]
    exact inCall_congr hposted (fun o _ _ => hrecord ▸ Iff.rfl) (fun _ => hreports)

/-- A record that is fired is in a call. -/
theorem inCall_fired (hposted : t.posted = s.posted)
    (hrecord : t.record = Function.update s.record odata (some (o.fire c))) (hlog : t.log = s.log)
    (ho : s.record odata = some o) (hfresh : o.fired = false) (hkey : ∃ q, s.posted[odata]? = some (key, q))
    (hnone : s.reports odata = 0) :
    InCall t ep type i ↔ InCall s ep type i ∨ ep = key ∧ type = o.ioType ∧ i = odata := by
  have hreports : t.reports i = s.reports i := by rw [State.reports, State.reports, hlog]
  by_cases hi : i = odata
  · subst hi
    have hnot : ¬ InCall s ep type i := by
      rintro ⟨⟨q, hq, hfired, _⟩, _, _⟩
      rw [ho] at hq
      obtain rfl := Option.some.inj hq
      rw [hfresh] at hfired
      cases hfired
    rw [or_iff_right hnot]
    constructor
    · rintro ⟨⟨q, hq, _, rfl⟩, ⟨r, hr⟩, _⟩
      rw [hrecord, Function.update_self] at hq
      obtain ⟨r', hr'⟩ := hkey
      rw [hposted, hr'] at hr
      cases hq
      cases hr
      exact ⟨rfl, rfl, rfl⟩
    · rintro ⟨rfl, rfl, _⟩
      exact ⟨⟨o.fire c, by rw [hrecord, Function.update_self], rfl, rfl⟩, hposted ▸ hkey, hreports.trans hnone⟩
  · rw [or_iff_left (fun hand => hi hand.2.2)]
    apply inCall_congr hposted
    · intro q _ _
      rw [hrecord, Function.update_of_ne hi]
    · exact fun _ => hreports

end Calls

end LibXpf.NetIoMux.Iocp
