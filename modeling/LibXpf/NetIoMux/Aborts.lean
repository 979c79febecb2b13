import LibXpf.NetIoMux.Deliveries

/-! # What an aborted operation is reported with

The code of a completion is read off `provisioned` and `errorcode` when it is
delivered. The loop over a queue sets `provisioned` on the operations it tries,
and an error event sets `errorcode` on all that wait, so an operation that waited
behind a blocked one is reported as if its endpoint had refused it. The runs here
carry a record of the calls of `performIoLocked` and of the aborts.
-/
namespace LibXpf.NetIoMux
open GuardedRuns

variable {n : ℕ} {b : Backend} {s t : State n}

section Codes

/-- The status a kind of operation asks of its endpoint when it is first tried. -/
def EIoType.required : EIoType → Option EStatus
  | .recv => some .connected
  | .recvFrom => some .connected
  | .send => some .connected
  | .sendTo => some .connected
  | .accept => some .listening
  | _ => none

/-- The code that reports the failure of a kind of operation. -/
def EIoType.failure : EIoType → Option EError
  | .recv => some .recv
  | .recvFrom => some .recv
  | .send => some .send
  | .sendTo => some .send
  | .accept => some .accept
  | _ => none

variable {o : Overlapped} {status : EStatus} {code : EError}

theorem completionError_eq (h : o.iotype.failure = some code) :
    completionError o =
      if o.provisioned = false then .invalidOp else if o.errorcode = 0 then .success else code := by
  rw [completionError]
  cases hio : o.iotype <;> rw [hio] at h <;> cases h <;> rfl

theorem failure_of_required (h : o.iotype.required = some status) :
    ∃ code, o.iotype.failure = some code := by
  cases hio : o.iotype <;> rw [hio] at h <;> cases h <;> exact ⟨_, rfl⟩

theorem failure_ne_invalidOp (h : o.iotype.failure = some code) : code ≠ .invalidOp := by
  cases hio : o.iotype <;> rw [hio] at h <;> cases h <;> exact EError.noConfusion

/-- Only an operation that was never provisioned is reported as invalid. -/
theorem new_of_invalidOp (h : o.iotype.required = some status) (hcode : completionError o = .invalidOp) :
    o.provisioned = false := by
  obtain ⟨code, hfailure⟩ := failure_of_required h
  by_contra hprovisioned
  rw [completionError_eq hfailure, if_neg hprovisioned] at hcode
  split at hcode
  · cases hcode
  · exact failure_ne_invalidOp hfailure hcode

theorem completionError_abort (h : o.iotype.failure = some code) :
    completionError o.abort = code ↔ o.provisioned = true := by
  have hcode : ECONNABORTED ≠ 0 := by decide
  have habort : completionError o.abort = if o.provisioned = false then .invalidOp else code := by
    rw [completionError_eq (o := o.abort) h]
    exact if_congr Iff.rfl rfl (if_neg hcode)
  rw [habort]
  split
  · next hnew =>
    rw [hnew]
    exact ⟨fun heq => absurd heq.symm (failure_ne_invalidOp h), Bool.noConfusion⟩
  · next hprovisioned => exact ⟨fun _ => Bool.not_eq_false _ ▸ hprovisioned, fun _ => rfl⟩

end Codes

section Trials

variable {r : IoResult} {ep : NetEndpoint} {o : Overlapped} {tep : ℕ}

theorem transferCall_provisioned : (transferCall r ep o).op.provisioned = o.provisioned := by
  unfold transferCall
  split
  · rfl
  · split <;> rfl

theorem performTransfer_new (h : (performTransfer r ep o).op.provisioned = false) :
    ep.status ≠ .connected := by
  unfold performTransfer at h
  split at h
  · dsimp only at h
    split at h
    · next hstatus => exact hstatus.symm
    · cases transferCall_provisioned.symm.trans h
  · next hprovisioned => exact absurd (transferCall_provisioned.symm.trans h) hprovisioned

theorem acceptCall_provisioned : (acceptCall r ep o tep).op.provisioned = o.provisioned := by
  unfold acceptCall
  split
  · rfl
  · split <;> rfl

theorem performAccept_new (h : (performAccept r ep o tep).op.provisioned = false) :
    ep.status ≠ .listening := by
  unfold performAccept at h
  split at h
  · dsimp only at h
    split at h
    · next hstatus => exact hstatus.symm
    · cases acceptCall_provisioned.symm.trans h
  · next hprovisioned => exact absurd (acceptCall_provisioned.symm.trans h) hprovisioned

/-- An operation that is tried stays new only if the status of its endpoint is not
the one its kind asks for. -/
theorem attempt_new {results : ℕ → IoResult} {firstNew : ℕ} {p : Progress} {status : EStatus}
    (h : o.iotype.required = some status) (hnew : (attempt results firstNew o p).op.provisioned = false) :
    p.ep.status ≠ status := by
  rw [attempt, performIoLocked] at hnew
  cases hio : o.iotype with
  | accept =>
    rw [hio] at h hnew
    cases h
    exact performAccept_new hnew
  | connect => rw [hio] at h; cases h
  | invalid => rw [hio] at h; cases h
  | _ =>
    rw [hio] at h hnew
    cases h
    exact performTransfer_new hnew

end Trials

section Observations

/-- What the record keeps: each call of `performIoLocked`, with the number of the
operation and the status of its endpoint, and each operation that an error event
moved to the completion list. -/
inductive Observation where
  | examined (id : ℕ) (status : EStatus)
  | aborted (o : Overlapped)
  deriving DecidableEq, Repr

/-- The calls of `performIoLocked` in the loop over a queue. -/
def examinations (results : ℕ → IoResult) (firstNew : ℕ) : List Overlapped → Progress → List Observation
  | [], _ => []
  | o :: rest, p =>
    .examined o.id p.ep.status ::
      if (attempt results firstNew o p).completed then
        examinations results firstNew rest (p.add (attempt results firstNew o p))
      else []

/-- The calls in the ready section. -/
def State.examinations (s : State n) (ep : ℕ) (ctx : AsyncContext) (results : ℕ → IoResult) :
    List Observation :=
  NetIoMux.examinations results s.nextEp ctx.rdqueue (s.start ep) ++
    NetIoMux.examinations results s.nextEp ctx.wrqueue
      (performQueue results s.nextEp ctx.rdqueue (s.start ep)).2

/-- What is observed of a step. -/
def observations (s : State n) : Label n → List Observation
  | .processReady w results =>
    match s.worker w with
    | .fetched ep _ =>
      match s.context ep with
      | some ctx => s.examinations ep ctx results
      | none => []
    | _ => []
  | .processEvent w =>
    match s.worker w with
    | .holding false evt _ =>
      match s.context evt.ep with
      | some ctx => (ctx.handle .epoll evt).aborted.map .aborted
      | none => []
    | _ => []
  | _ => []

variable {results : ℕ → IoResult} {firstNew : ℕ}

/-- What an operation reported as invalid has behind it: a call of `performIoLocked`
in a status other than the one its kind asks for. -/
def Refused (record : List Observation) (co : Overlapped) : Prop :=
  ∀ status, co.iotype.required = some status → completionError co = .invalidOp →
    ∃ found, .examined co.id found ∈ record ∧ found ≠ status

theorem Refused.mono {record more : List Observation} {co : Overlapped} (h : Refused record co)
    (hsubset : record ⊆ more) : Refused more co := by
  intro status hrequired hcode
  obtain ⟨found, hfound, hne⟩ := h status hrequired hcode
  exact ⟨found, hsubset hfound, hne⟩

/-- An operation is reported as invalid only if it was refused, and an operation
that an error event removed is reported with the failure of its kind. -/
structure Explained (completions : List Overlapped) (record : List Observation) : Prop where
  refused : ∀ co ∈ completions, Refused record co
  aborted : ∀ co, .aborted co ∈ record → co ∈ completions ∧
    ∀ code, co.iotype.failure = some code → completionError co = code

theorem Explained.nil : Explained [] [] where
  refused _ hco := absurd hco List.not_mem_nil
  aborted _ hco := absurd hco List.not_mem_nil

theorem Explained.append {before moved : List Overlapped} {record new : List Observation}
    (h : Explained before record) (hnew : Explained moved new) :
    Explained (before ++ moved) (record ++ new) where
  refused := by
    refine List.forall_mem_append.mpr ⟨?_, ?_⟩
    · exact fun co hco => (h.refused co hco).mono (List.subset_append_left ..)
    · exact fun co hco => (hnew.refused co hco).mono (List.subset_append_right ..)
  aborted co hco := by
    rcases List.mem_append.mp hco with hold | hnow
    · obtain ⟨hmem, hcode⟩ := h.aborted co hold
      exact ⟨List.mem_append_left _ hmem, hcode⟩
    · obtain ⟨hmem, hcode⟩ := hnew.aborted co hnow
      exact ⟨List.mem_append_right _ hmem, hcode⟩

theorem Explained.examined (id : ℕ) (status : EStatus) : Explained [] [.examined id status] where
  refused _ hco := absurd hco List.not_mem_nil
  aborted _ hco := by cases List.mem_singleton.mp hco

/-- An operation that is tried is refused only in a status that its kind does not ask for. -/
theorem attempt_explained (o : Overlapped) (p : Progress) :
    Explained [(attempt results firstNew o p).op] [.examined o.id p.ep.status] where
  refused := by
    refine List.forall_mem_singleton.mpr ?_
    intro status hrequired hcode
    have hkey := (attempt_sound results firstNew o p).key
    have hid : (attempt results firstNew o p).op.id = o.id := congrArg Prod.fst hkey
    have hio : (attempt results firstNew o p).op.iotype = o.iotype := congrArg (fun k => k.2.2) hkey
    refine ⟨p.ep.status, ?_, ?_⟩
    · rw [hid]
      exact List.mem_cons_self
    · exact attempt_new (hio ▸ hrequired) (new_of_invalidOp hrequired hcode)
  aborted _ hco := by cases List.mem_singleton.mp hco

/-- The loop over a queue, with its calls. -/
theorem performQueue_explained (results : ℕ → IoResult) (firstNew : ℕ) (queue : List Overlapped) (p : Progress) :
    ∃ moved, (performQueue results firstNew queue p).2.completed = p.completed ++ moved ∧
      Explained (moved.map Prod.fst) (examinations results firstNew queue p) := by
  induction queue generalizing p with
  | nil => exact ⟨[], (List.append_nil _).symm, .nil⟩
  | cons o rest ih =>
    rw [examinations]
    cases hcase : (attempt results firstNew o p).completed with
    | true =>
      rw [performQueue_done rest hcase, if_pos rfl]
      obtain ⟨moved, hmoved, hexplained⟩ := ih (p.add (attempt results firstNew o p))
      rw [Progress.add_completed_of_done hcase, List.append_assoc] at hmoved
      exact ⟨_, hmoved, (attempt_explained o p).append hexplained⟩
    | false =>
      rw [performQueue_stop rest hcase]
      refine ⟨[], ?_, .examined o.id p.ep.status⟩
      rw [Progress.add_completed_of_stop hcase, List.append_nil]

theorem performQueues_explained (s : State n) (ep : ℕ) (ctx : AsyncContext) (results : ℕ → IoResult) :
    Explained ((s.performQueues ep ctx results).progress.completed.map Prod.fst)
      (s.examinations ep ctx results) := by
  obtain ⟨rd, hrd, hread⟩ := performQueue_explained results s.nextEp ctx.rdqueue (s.start ep)
  obtain ⟨wr, hwr, hwrite⟩ := performQueue_explained results s.nextEp ctx.wrqueue
    (performQueue results s.nextEp ctx.rdqueue (s.start ep)).2
  have hcompleted : (s.performQueues ep ctx results).progress.completed = rd ++ wr := by
    rw [hrd] at hwr
    exact hwr
  rw [hcompleted, List.map_append]
  exact hread.append hwrite

end Observations

/-- The operations whose callback was called or is to be called, in order. -/
def State.completions (s : State n) : List Overlapped := s.popped ++ s.mCompletionList

/-- The record explains how all operations are reported. -/
def ReportedRightly (s : State n × List Observation) : Prop := Explained s.1.completions s.2

/-- Error events are processed when all operations that wait, but for connects, are provisioned. -/
def AbortsProvisioned (s : State n) : Label n → Prop
  | .processEvent w =>
    match s.worker w with
    | .holding false evt _ => evt.error = true →
      ∀ o ∈ s.queue evt.ep .read ++ s.queue evt.ep .write, o.iotype.failure ≠ none → o.provisioned = true
    | _ => True
  | _ => True

instance (s : State n) : (l : Label n) → Decidable (AbortsProvisioned s l)
  | .processEvent w => by
    dsimp only [AbortsProvisioned]
    exact match s.worker w with
      | .holding false _ _ => inferInstanceAs (Decidable (_ → ∀ o ∈ _, _ → _))
      | .holding true _ _ | .idle | .polled | .popped _ _ | .fetched _ _ | .waiting _ | .handling _ =>
        isTrue trivial
  | .join _ | .async _ _ | .popCompletion _ | .popReady _ | .getContext _ | .processReady _ _ | .wait _ _ |
    .getEventContext _ | .settle _ _ | .departKernel _ | .departContext _ => isTrue trivial

section Steps

variable {w : Fin n} {results : ℕ → IoResult}

theorem processReady_cases (h : step b s (.processReady w results) = .ok t) :
    (∃ ep cnt ctx, s.worker w = .fetched ep cnt ∧ s.context ep = some ctx ∧
      t = (s.ready b ep ctx results).setWorker w (.waiting cnt)) ∨
    t = s ∧ observations s (.processReady w results) = [] := by
  simp only [step, State.processReady] at h
  split at h
  · next ep cnt hpc =>
    split at h
    · cases h
    · next ctx hctx => exact .inl ⟨ep, cnt, ctx, hpc, hctx, (Except.ok.inj h).symm⟩
  · next hpc =>
    refine .inr ⟨(Except.ok.inj h).symm, ?_⟩
    rw [observations]
    split
    · next ep cnt hfetched => exact absurd hfetched (hpc ep cnt)
    · rfl

theorem processEvent_cases (h : step b s (.processEvent w) = .ok t) :
    (∃ evt rest ctx, s.worker w = .holding false evt rest ∧ s.context evt.ep = some ctx ∧
      t = (s.handle b evt ctx).setWorker w (State.afterEvents rest)) ∨
    t = s ∧ observations s (.processEvent w) = [] := by
  simp only [step, State.processEvent] at h
  split at h
  · cases h
  · next evt rest hpc =>
    split at h
    · cases h
    · next ctx hctx => exact .inl ⟨evt, rest, ctx, hpc, hctx, (Except.ok.inj h).symm⟩
  · next hpc =>
    refine .inr ⟨(Except.ok.inj h).symm, ?_⟩
    rw [observations]
    split
    · next evt rest hholding => exact absurd hholding (hpc evt rest)
    · rfl

/-- Only the ready section and the event loop add to the completions. -/
theorem completions_of_move {l : Label n} (h : Move b s l t) :
    t.completions = s.completions ∨ (∃ w results, l = .processReady w results) ∨
      ∃ w, l = .processEvent w := by
  cases h with
  | popCompletion w co rest hpc hlist =>
    refine .inl ?_
    rw [State.completions, State.completions, hlist]
    exact List.append_assoc ..
  | ready w results ep cnt ctx hpc hctx => exact .inr (.inl ⟨w, results, rfl⟩)
  | handle w evt rest ctx hpc hctx => exact .inr (.inr ⟨w, rfl⟩)
  | departKernel ep =>
    refine .inl ?_
    unfold State.departKernel
    dsimp only
    split
    · cases b <;> rfl
    · rfl
  | _ => exact .inl rfl

/-- The aborts of an event that meets provisioned operations only. -/
theorem handle_explained {evt : Event} {rest : List Event} {ctx : AsyncContext}
    (h : AbortsProvisioned s (.processEvent w)) (hpc : s.worker w = .holding false evt rest)
    (hctx : s.context evt.ep = some ctx) :
    Explained (ctx.handle .epoll evt).aborted ((ctx.handle .epoll evt).aborted.map .aborted) := by
  simp only [AbortsProvisioned, hpc, queue_of_context hctx] at h
  have hcode : ∀ co ∈ (ctx.handle .epoll evt).aborted, ∀ code, co.iotype.failure = some code →
      completionError co = code := by
    intro co hco code hcode
    rw [AsyncContext.handle] at hco
    split at hco
    · next herror =>
      obtain ⟨o, ho, rfl⟩ := List.mem_map.mp hco
      have hfailure : o.iotype.failure = some code := hcode
      refine (completionError_abort hfailure).mpr (h herror o ho ?_)
      rw [hfailure]
      exact Option.some_ne_none code
    · split at hco
      · exact absurd hco List.not_mem_nil
      · exact absurd hco List.not_mem_nil
  refine ⟨?_, ?_⟩
  · intro co hco status hrequired hinvalid
    obtain ⟨code, hfailure⟩ := failure_of_required hrequired
    exact absurd ((hcode co hco code hfailure).symm.trans hinvalid) (failure_ne_invalidOp hfailure)
  · intro co hco
    obtain ⟨o, ho, heq⟩ := List.mem_map.mp hco
    cases heq
    exact ⟨ho, hcode co ho⟩

/-- What a step adds to the completions is explained by what is observed of it. -/
theorem step_explained {l : Label n} (h : AbortsProvisioned s l) (hstep : step .epoll s l = .ok t) :
    ∃ moved, t.completions = s.completions ++ moved ∧ Explained moved (observations s l) := by
  have hnothing : t.completions = s.completions → observations s l = [] →
      ∃ moved, t.completions = s.completions ++ moved ∧ Explained moved (observations s l) := by
    intro hsame hobserved
    rw [hobserved]
    exact ⟨[], hsame.trans (List.append_nil _).symm, .nil⟩
  cases l with
  | processReady w results =>
    rcases processReady_cases hstep with ⟨ep, cnt, ctx, hpc, hctx, rfl⟩ | ⟨rfl, hobserved⟩
    · have hobserved : observations s (.processReady w results) = s.examinations ep ctx results := by
        simp only [observations, hpc, hctx]
      rw [hobserved]
      exact ⟨_, (List.append_assoc ..).symm, performQueues_explained s ep ctx results⟩
    · exact hnothing rfl hobserved
  | processEvent w =>
    rcases processEvent_cases hstep with ⟨evt, rest, ctx, hpc, hctx, rfl⟩ | ⟨rfl, hobserved⟩
    · have hobserved : observations s (.processEvent w) = (ctx.handle .epoll evt).aborted.map .aborted := by
        simp only [observations, hpc, hctx]
      rw [hobserved]
      exact ⟨_, (List.append_assoc ..).symm, handle_explained h hpc hctx⟩
    · exact hnothing rfl hobserved
  | _ =>
    rcases completions_of_move (step_move hstep) with hsame | ⟨_, _, hl⟩ | ⟨_, hl⟩
    · exact hnothing hsame rfl
    · cases hl
    · cases hl

/-- An operation that an error event meets unexamined is reported as invalid. -/
theorem not_reportedRightly_of_unexamined {u : State n × List Observation} {l : Label n}
    (h : ¬ AbortsProvisioned u.1 l) :
    ∃ t, NetIoMux.step .epoll u.1 l = .ok t ∧ ¬ ReportedRightly (t, u.2 ++ observations u.1 l) := by
  cases l with
  | processEvent w =>
    cases hpc : u.1.worker w with
    | holding null evt rest =>
      cases null with
      | false =>
        simp only [AbortsProvisioned, hpc, Classical.not_imp, not_forall] at h
        obtain ⟨herror, o, ho, hfailure, hnew⟩ := h
        obtain ⟨code, hcode⟩ := Option.ne_none_iff_exists'.mp hfailure
        cases hctx : u.1.context evt.ep with
        | none =>
          simp only [State.queue, hctx, List.append_nil] at ho
          exact absurd ho List.not_mem_nil
        | some ctx =>
          refine ⟨(u.1.handle .epoll evt ctx).setWorker w (State.afterEvents rest), ?_, ?_⟩
          · simp only [NetIoMux.step, State.processEvent, hpc, hctx]
          · intro hright
            rw [queue_of_context hctx, queue_of_context hctx] at ho
            have haborted : o.abort ∈ (ctx.handle .epoll evt).aborted := by
              simp only [AsyncContext.handle, herror, if_true]
              exact List.mem_map_of_mem ho
            have hrecord : .aborted o.abort ∈ u.2 ++ observations u.1 (.processEvent w) := by
              simp only [observations, hpc, hctx]
              exact List.mem_append_right _ (List.mem_map_of_mem haborted)
            have hkind := (hright.aborted o.abort hrecord).2 code hcode
            exact hnew ((completionError_abort hcode).mp hkind)
      | true => exact absurd (by simp only [AbortsProvisioned, hpc]) h
    | _ => exact absurd (by simp only [AbortsProvisioned, hpc]) h
  | _ => exact absurd trivial h

end Steps

/-- Operations are reported rightly in every state of a run, up to a fault, if and
only if each error event meets provisioned operations only. -/
theorem reportedRightly_iff (n : ℕ) (labels : List (Label n)) :
    UntilFault (recorded (step .epoll) observations) ReportedRightly (State.initial n, []) labels ↔
      Along (step .epoll) AbortsProvisioned (State.initial n) labels := by
  have hinitial : ReportedRightly (State.initial n, []) := Explained.nil
  rw [untilFault_iff_along (C := fun u l => AbortsProvisioned u.1 l) ?_ ?_ hinitial]
  · exact along_recorded
  · intro u l v hu hl hstep
    obtain ⟨t, ht, rfl⟩ := recorded_cases hstep
    obtain ⟨moved, hmoved, hnew⟩ := step_explained hl ht
    rw [ReportedRightly, hmoved]
    exact Explained.append hu hnew
  · intro u l _ hl
    obtain ⟨t, ht, hnot⟩ := not_reportedRightly_of_unexamined hl
    exact ⟨_, recorded_of_ok ht, hnot⟩

/-- Two receives wait for a connected socket, the first of them examined, when it hangs up. -/
def hangUpRun : List (Label 1) :=
  [.join .connected, .async 0 (.recv 100 8 7), .async 0 (.recv 200 8 7), .popCompletion w₀, .popReady w₀,
    .getContext w₀, .processReady w₀ (fun _ => .wouldBlock), .wait w₀ (some [⟨0, true, false, true⟩]),
    .getEventContext w₀, .processEvent w₀, .popCompletion w₀, .popReady w₀, .wait w₀ (some []),
    .popCompletion w₀]

theorem hangUpRun_delivers :
    Returns (final (recorded (step .epoll) observations) (State.initial 1, []) hangUpRun) fun u =>
      u.1.popped.map (fun co => (co.iotype, completionError co)) = [(.recv, .recv), (.recv, .invalidOp)] ∧
        u.2 = [.examined 0 .connected] ++ u.1.popped.map .aborted := by
  decide +kernel

/-- The second receive, which was never examined, is delivered as an invalid operation. -/
theorem hangUpRun_misreported :
    ¬ UntilFault (recorded (step .epoll) observations) ReportedRightly (State.initial 1, []) hangUpRun := by
  intro h
  obtain ⟨u, hu, hcodes, hrecord⟩ := hangUpRun_delivers
  have hdelivered : (EIoType.recv, EError.invalidOp) ∈
      u.1.popped.map (fun co => (co.iotype, completionError co)) := by
    rw [hcodes]
    exact List.mem_cons_of_mem _ List.mem_cons_self
  obtain ⟨co, hco, hpair⟩ := List.mem_map.mp hdelivered
  obtain ⟨hio, hinvalid⟩ := Prod.mk.inj hpair
  have haborted : .aborted co ∈ u.2 := by
    rw [hrecord]
    exact List.mem_append_right _ (List.mem_map_of_mem hco)
  have hcode : co.iotype.failure = some .recv := by
    rw [hio]
    rfl
  cases hinvalid.symm.trans (((h.final hu).aborted co haborted).2 .recv hcode)

end LibXpf.NetIoMux
