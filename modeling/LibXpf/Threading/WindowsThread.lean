import LibXpf.Threading.Thread

/-! # The life of an `XpfThread` on Windows

The constructor makes the thread suspended, `start` resumes it, and `join` waits for its end at the
handle, which it closes then. There are no events: where the owner waits, it waits for the system.
-/
namespace LibXpf.Threading.Windows
open GuardedRuns

/-- Where the owner is. -/
inductive OwnerPlace where
  | idle
  /-- In `start`, with the status written. -/
  | starting
  /-- In `join`, before its test for `TRS_JOINED`. -/
  | joining (timeoutMs : ℕ) (caller : Caller)
  /-- In `join`, before its test for `TRS_READY`. -/
  | unjoined (timeoutMs : ℕ) (caller : Caller)
  /-- In `WaitForSingleObject`. -/
  | waiting (timeoutMs : ℕ) (caller : Caller)
  /-- In `join`, with the end of the thread seen. -/
  | signaled (caller : Caller)
  /-- In `join`, before the test of the handle. -/
  | closing (caller : Caller)
  /-- Out of a call of `join`. -/
  | returned (result : Bool)
  /-- In the destructor, before the switch over the status. -/
  | destructing
  /-- In the destructor, on the branch that requests an abort. -/
  | aborting
  | destroyed
  deriving DecidableEq

/-- Where `exec` is. -/
inductive ExecPlace where
  | suspended
  /-- Before the test of the abort flag. -/
  | started
  /-- In the body that the user provides. -/
  | running
  /-- Before the status is written. -/
  | leaving
  /-- Before the exit code is read. -/
  | returning
  | ended
  deriving DecidableEq

/-- The handle is open, or it is the invalid one, which stands for the process itself. -/
structure XpfThread where
  mStatus : RunningStatus
  mAborting : Bool
  mThreadHandle : Bool
  owner : OwnerPlace
  exec : ExecPlace
  deriving DecidableEq

namespace XpfThread

def create : XpfThread where
  mStatus := .ready
  mAborting := false
  mThreadHandle := true
  owner := .idle
  exec := .suspended

/-- The owner is in no call. -/
def Free (s : XpfThread) : Prop := s.owner = .idle ∨ ∃ result, s.owner = .returned result

instance (s : XpfThread) : Decidable s.Free :=
  match h : s.owner with
  | .idle => isTrue (.inl h)
  | .returned result => isTrue (.inr ⟨result, h⟩)
  | .starting | .joining .. | .unjoined .. | .waiting .. | .signaled _ | .closing _ | .destructing | .aborting
  | .destroyed => isFalse (by simp [Free, h])

/-- `join` hands its result to its caller; the destructor does not look at it. -/
def leaveJoin (s : XpfThread) (caller : Caller) (result : Bool) : XpfThread :=
  match caller with
  | .user => { s with owner := .returned result }
  | .destructor => { s with owner := .destroyed }

/-- The branch of the destructor's switch over the status. -/
def branchOf : RunningStatus → OwnerPlace
  | .ready | .running => .aborting
  | .finished => .joining infinite .destructor
  | .joined => .destroyed

/-- The next step of the call that the owner is in. -/
def ownerStep (s : XpfThread) : XpfThread :=
  match s.owner with
  | .starting =>
    { s with
      exec := if s.exec = .suspended then .started else s.exec
      owner := .idle }
  | .joining timeoutMs caller =>
    if s.mStatus = .joined then s.leaveJoin caller true else { s with owner := .unjoined timeoutMs caller }
  | .unjoined timeoutMs caller =>
    if s.mStatus = .ready then s.leaveJoin caller false else { s with owner := .waiting timeoutMs caller }
  | .waiting _ caller =>
    -- the process does not end while it waits for itself
    if s.mThreadHandle = true ∧ s.exec = .ended then { s with owner := .signaled caller } else s
  | .signaled caller =>
    { s with
      mStatus := .joined
      owner := .closing caller }
  | .closing caller => { s with mThreadHandle := false }.leaveJoin caller true
  | .destructing => { s with owner := branchOf s.mStatus }
  | .aborting =>
    { s with
      mAborting := true
      owner := .joining infinite .destructor }
  | .idle | .returned _ | .destroyed => s

/-- The next step of `exec`. Past the destructor there is nothing left for it to work on. -/
def execStep (s : XpfThread) : Except Fault XpfThread :=
  if s.exec = .suspended ∨ s.exec = .ended then .ok s
  else if s.owner = .destroyed then .error .useAfterFree
  else match s.exec with
    | .started => .ok { s with exec := if s.mAborting then .returning else .running }
    | .running => .ok { s with exec := .leaving }
    | .leaving =>
      .ok { s with
        mStatus := .finished
        exec := .returning }
    | .returning => .ok { s with exec := .ended }
    | .suspended | .ended => .ok s

/-- A wait that has a limit may come to it. -/
def expire (s : XpfThread) : XpfThread :=
  match s.owner with
  | .waiting timeoutMs caller => if timeoutMs = infinite then s else s.leaveJoin caller false
  | _ => s

end XpfThread

/-- The calls of the owner, the steps of the two parties, and the end of a wait with a limit. -/
inductive ThreadStep where
  | start
  | requestAbort
  | join (timeoutMs : ℕ)
  | destruct
  | owner
  | exec
  | expire

namespace XpfThread

/-- The owner makes one call after the other. -/
def step (s : XpfThread) : ThreadStep → Except Fault XpfThread
  | .start => .ok <| if s.Free then
      { s with
        mStatus := .running
        owner := .starting } else s
  | .requestAbort => .ok <| if s.Free then { s with mAborting := true } else s
  | .join timeoutMs => .ok <| if s.Free then { s with owner := .joining timeoutMs .user } else s
  | .destruct => .ok <| if s.Free then { s with owner := .destructing } else s
  | .owner => .ok s.ownerStep
  | .exec => s.execStep
  | .expire => .ok s.expire

/-- A thread that is destroyed has come to its end, or never runs; its handle is closed in the first
case only. It has come to its end when `join` returns `true`, and wherever its handle is closed. -/
structure Sound (s : XpfThread) : Prop where
  deleted : s.owner = .destroyed →
    s.exec = .suspended ∧ s.mThreadHandle = true ∨ s.exec = .ended ∧ s.mThreadHandle = false
  joined : s.owner = .returned true → s.exec = .ended ∧ s.mStatus = .joined ∧ s.mThreadHandle = false
  closed : s.mThreadHandle = false → s.exec = .ended

/-- The thread is not started when it has been joined. -/
def Careful (s : XpfThread) : ThreadStep → Prop
  | .start => s.Free → s.mStatus ≠ .joined
  | _ => True

instance (s : XpfThread) : (a : ThreadStep) → Decidable (s.Careful a)
  | .start => inferInstanceAs (Decidable (_ → _))
  | .requestAbort | .join _ | .destruct | .owner | .exec | .expire => isTrue trivial

/-- The call that the owner is in comes to its end by steps of the two parties. -/
def Returns (s : XpfThread) : Prop :=
  ∃ more : List ThreadStep, (∀ a ∈ more, a = .owner ∨ a = .exec) ∧
    ∃ t, final step s more = .ok t ∧ (t.Free ∨ t.owner = .destroyed)

/-- What holds at each place of the owner. -/
def AtOwner (s : XpfThread) : Prop :=
  match s.owner with
  | .joining timeoutMs caller | .unjoined timeoutMs caller => caller = .destructor → timeoutMs = infinite
  | .waiting timeoutMs caller => (caller = .destructor → timeoutMs = infinite) ∧ s.exec ≠ .suspended
  | .signaled _ => s.exec = .ended
  | .closing _ => s.exec = .ended ∧ s.mStatus = .joined
  | .returned result => result = true → s.exec = .ended ∧ s.mStatus = .joined ∧ s.mThreadHandle = false
  | .destroyed => s.exec = .suspended ∧ s.mThreadHandle = true ∨ s.exec = .ended ∧ s.mThreadHandle = false
  | .starting => s.mStatus ≠ .ready
  | .idle | .destructing | .aborting => True

/-- What all steps keep. -/
structure Kept (s : XpfThread) : Prop where
  ready : s.mStatus = .ready → s.exec = .suspended
  suspended : s.exec = .suspended → s.mStatus = .ready ∨ s.owner = .starting
  closed : s.mThreadHandle = false → s.exec = .ended
  joined : s.mStatus = .joined → s.exec = .ended ∧ (s.mThreadHandle = false ∨ ∃ caller, s.owner = .closing caller)
  owner : s.AtOwner

section Invariant
variable {s s' : XpfThread}

theorem Kept.sound (h : s.Kept) : s.Sound := by
  have howner := h.owner
  refine ⟨fun hdestroyed => ?_, fun hreturned => ?_, h.closed⟩
  · rwa [AtOwner, hdestroyed] at howner
  · rw [AtOwner, hreturned] at howner
    exact howner rfl

theorem kept_create : create.Kept where
  ready := fun _ => rfl
  suspended := fun _ => .inl rfl
  closed := by rintro ⟨⟩
  joined := by rintro ⟨⟩
  owner := trivial

/-- A thread that was joined has its handle closed, but at the place where `join` closes it. -/
theorem Kept.handle (h : s.Kept) (hjoined : s.mStatus = .joined) (hplace : ∀ caller, s.owner ≠ .closing caller) :
    s.exec = .ended ∧ s.mThreadHandle = false := by
  obtain ⟨hexec, hclosed | ⟨caller, hclosing⟩⟩ := h.joined hjoined
  · exact ⟨hexec, hclosed⟩
  · exact absurd hclosing (hplace caller)

/-- The owner goes from a place that closes nothing to another one. -/
theorem Kept.goTo (h : s.Kept) (hstarting : s.owner ≠ .starting) (hclosing : ∀ caller, s.owner ≠ .closing caller)
    {place : OwnerPlace} (hplace : ({ s with owner := place } : XpfThread).AtOwner) : Kept { s with owner := place } where
  ready := h.ready
  suspended := fun hexec => .inl ((h.suspended hexec).resolve_right hstarting)
  closed := h.closed
  joined := fun hjoined => ⟨(h.handle hjoined hclosing).1, .inl (h.handle hjoined hclosing).2⟩
  owner := hplace

theorem Kept.leaveJoin (h : s.Kept) (hstarting : s.owner ≠ .starting) (hclosing : ∀ caller, s.owner ≠ .closing caller)
    {caller : Caller} {result : Bool}
    (hresult : result = true → s.exec = .ended ∧ s.mStatus = .joined ∧ s.mThreadHandle = false)
    (hdestroyed : caller = .destructor →
      s.exec = .suspended ∧ s.mThreadHandle = true ∨ s.exec = .ended ∧ s.mThreadHandle = false) :
    (s.leaveJoin caller result).Kept := by
  cases caller with
  | user => exact h.goTo hstarting hclosing hresult
  | destructor => exact h.goTo hstarting hclosing (hdestroyed rfl)

/-- A thread that is not started has an open handle. -/
theorem Kept.unstarted (h : s.Kept) (hready : s.mStatus = .ready) : s.exec = .suspended ∧ s.mThreadHandle = true := by
  have hexec := h.ready hready
  refine ⟨hexec, Bool.eq_true_of_not_eq_false fun hclosed => ?_⟩
  cases hexec.symm.trans (h.closed hclosed)

theorem Kept.starting (h : s.Kept) (hplace : s.owner = .starting) : s.ownerStep.Kept := by
  have hready : s.mStatus ≠ .ready := by
    have howner := h.owner
    rwa [AtOwner, hplace] at howner
  have hexec : s.ownerStep.exec ≠ .suspended := by
    simp only [XpfThread.ownerStep, hplace]
    split
    · rintro ⟨⟩
    · assumption
  have hended : s.exec = .ended → s.ownerStep.exec = .ended := by
    intro hended
    simp only [XpfThread.ownerStep, hplace, hended]
    rfl
  have hstep : s.ownerStep = { s with exec := s.ownerStep.exec, owner := .idle } := by
    simp only [XpfThread.ownerStep, hplace]
  rw [hstep]
  refine ⟨fun h => absurd h hready, fun h => absurd h hexec, fun hclosed => hended (h.closed hclosed),
    fun hjoined => ?_, trivial⟩
  obtain ⟨hend, hclosed⟩ := h.handle hjoined (by simp [hplace])
  exact ⟨hended hend, .inl hclosed⟩

theorem Kept.signaled (h : s.Kept) {caller : Caller} (hplace : s.owner = .signaled caller) : s.ownerStep.Kept := by
  have hexec : s.exec = .ended := by
    have howner := h.owner
    rwa [AtOwner, hplace] at howner
  simp only [XpfThread.ownerStep, hplace]
  refine ⟨by rintro ⟨⟩, fun hsuspended => ?_, h.closed, fun _ => ⟨hexec, .inr ⟨caller, rfl⟩⟩, hexec, rfl⟩
  cases hsuspended.symm.trans hexec

theorem Kept.closing (h : s.Kept) {caller : Caller} (hplace : s.owner = .closing caller) : s.ownerStep.Kept := by
  obtain ⟨hexec, hjoined⟩ : s.exec = .ended ∧ s.mStatus = .joined := by
    have howner := h.owner
    rwa [AtOwner, hplace] at howner
  have hready : s.mStatus ≠ .ready := by
    rw [hjoined]
    rintro ⟨⟩
  have hsuspended : s.exec ≠ .suspended := by
    rw [hexec]
    rintro ⟨⟩
  simp only [XpfThread.ownerStep, hplace]
  cases caller with
  | user =>
    exact ⟨fun h => absurd h hready, fun h => absurd h hsuspended, fun _ => hexec, fun _ => ⟨hexec, .inl rfl⟩,
      fun _ => ⟨hexec, hjoined, rfl⟩⟩
  | destructor =>
    exact ⟨fun h => absurd h hready, fun h => absurd h hsuspended, fun _ => hexec, fun _ => ⟨hexec, .inl rfl⟩,
      .inr ⟨hexec, rfl⟩⟩

theorem Kept.ownerStep (h : s.Kept) : s.ownerStep.Kept := by
  have howner := h.owner
  cases hplace : s.owner with
  | idle | returned | destroyed =>
    simp only [XpfThread.ownerStep, hplace]
    exact h
  | starting => exact h.starting hplace
  | signaled caller => exact h.signaled hplace
  | closing caller => exact h.closing hplace
  | joining timeoutMs caller =>
    rw [AtOwner, hplace] at howner
    have hclosing : ∀ caller, s.owner ≠ .closing caller := by simp [hplace]
    simp only [XpfThread.ownerStep, hplace]
    split
    next hjoined =>
      obtain ⟨hexec, hclosed⟩ := h.handle hjoined hclosing
      exact h.leaveJoin (by simp [hplace]) hclosing (fun _ => ⟨hexec, hjoined, hclosed⟩) fun _ => .inr ⟨hexec, hclosed⟩
    next => exact h.goTo (by simp [hplace]) hclosing howner
  | unjoined timeoutMs caller =>
    rw [AtOwner, hplace] at howner
    have hclosing : ∀ caller, s.owner ≠ .closing caller := by simp [hplace]
    have hstarting : s.owner ≠ .starting := by simp [hplace]
    simp only [XpfThread.ownerStep, hplace]
    split
    next hready => exact h.leaveJoin hstarting hclosing (by rintro ⟨⟩) fun _ => .inl (h.unstarted hready)
    next hready =>
      exact h.goTo hstarting hclosing ⟨howner, fun hexec => hready ((h.suspended hexec).resolve_right hstarting)⟩
  | waiting timeoutMs caller =>
    simp only [XpfThread.ownerStep, hplace]
    split
    next hend => exact h.goTo (by simp [hplace]) (by simp [hplace]) hend.2
    next => exact h
  | destructing =>
    have hclosing : ∀ caller, s.owner ≠ .closing caller := by simp [hplace]
    have hstarting : s.owner ≠ .starting := by simp [hplace]
    simp only [XpfThread.ownerStep, hplace]
    apply h.goTo hstarting hclosing
    cases hstatus : s.mStatus with
    | ready | running => exact trivial
    | finished => exact fun _ => rfl
    | joined => exact .inr (h.handle hstatus hclosing)
  | aborting =>
    have hkept : Kept { s with mAborting := true } :=
      ⟨h.ready, h.suspended, h.closed, h.joined, by rwa [AtOwner] at howner ⊢⟩
    simp only [XpfThread.ownerStep, hplace]
    exact hkept.goTo (by simp [hplace]) (by simp [hplace]) fun _ => rfl

/-- What `exec` does on its way from its start to its end. -/
theorem Kept.execMoves (h : s.Kept) (hsuspended : s.exec ≠ .suspended) (hended : s.exec ≠ .ended)
    (hexec : s'.exec ≠ .suspended) (howner : s'.owner = s.owner) (hhandle : s'.mThreadHandle = s.mThreadHandle)
    (hstatus : s'.mStatus = s.mStatus ∨ s'.mStatus = .finished) : s'.Kept := by
  have hready : s'.mStatus ≠ .ready := by
    rintro hready
    rcases hstatus with heq | heq
    · exact hsuspended (h.ready (heq.symm.trans hready))
    · cases heq.symm.trans hready
  refine ⟨fun h => absurd h hready, fun h => absurd h hexec, fun hclosed => ?_, fun hjoined => ?_, ?_⟩
  · exact absurd (h.closed (hhandle.symm.trans hclosed)) hended
  · rcases hstatus with heq | heq
    · exact absurd (h.joined (heq.symm.trans hjoined)).1 hended
    · cases heq.symm.trans hjoined
  · have hplace := h.owner
    rw [AtOwner] at hplace
    rw [AtOwner, howner]
    cases howner : s.owner with
    | idle | destructing | aborting => trivial
    | starting => exact hready
    | joining timeoutMs caller | unjoined timeoutMs caller =>
      rw [howner] at hplace
      exact hplace
    | waiting timeoutMs caller =>
      rw [howner] at hplace
      exact ⟨hplace.1, hexec⟩
    | signaled caller =>
      rw [howner] at hplace
      exact absurd hplace hended
    | closing caller =>
      rw [howner] at hplace
      exact absurd hplace.1 hended
    | returned result =>
      rw [howner] at hplace
      exact fun hresult => absurd (hplace hresult).1 hended
    | destroyed =>
      rw [howner] at hplace
      exact absurd hplace (by simp [hsuspended, hended])

/-- A thread on its way has not lost its object. -/
theorem Kept.not_destroyed (h : s.Kept) (hexec : ¬ (s.exec = .suspended ∨ s.exec = .ended)) : s.owner ≠ .destroyed := by
  intro hdestroyed
  have howner := h.owner
  rw [AtOwner, hdestroyed] at howner
  exact hexec (howner.imp And.left And.left)

theorem Kept.execStep (h : s.Kept) : ∃ t, s.execStep = .ok t ∧ t.Kept := by
  unfold XpfThread.execStep
  by_cases hexec : s.exec = .suspended ∨ s.exec = .ended
  · exact ⟨s, if_pos hexec, h⟩
  · rw [if_neg hexec, if_neg (h.not_destroyed hexec)]
    obtain ⟨hsuspended, hended⟩ := not_or.mp hexec
    cases hplace : s.exec with
    | suspended => exact absurd hplace hsuspended
    | ended => exact absurd hplace hended
    | started =>
      refine ⟨_, rfl, h.execMoves hsuspended hended ?_ rfl rfl (.inl rfl)⟩
      split <;> rintro ⟨⟩
    | running => exact ⟨_, rfl, h.execMoves hsuspended hended (by rintro ⟨⟩) rfl rfl (.inl rfl)⟩
    | leaving => exact ⟨_, rfl, h.execMoves hsuspended hended (by rintro ⟨⟩) rfl rfl (.inr rfl)⟩
    | returning => exact ⟨_, rfl, h.execMoves hsuspended hended (by rintro ⟨⟩) rfl rfl (.inl rfl)⟩

theorem Kept.expire (h : s.Kept) : s.expire.Kept := by
  unfold XpfThread.expire
  split
  next timeoutMs caller hplace =>
    have howner := h.owner
    rw [AtOwner, hplace] at howner
    split
    next => exact h
    next hinfinite =>
      have hdestroyed : caller ≠ .destructor := fun hcaller => hinfinite (howner.1 hcaller)
      exact h.leaveJoin (by simp [hplace]) (by simp [hplace]) (by rintro ⟨⟩) fun hcaller => absurd hcaller hdestroyed
  next => exact h

theorem Free.not_starting (h : s.Free) : s.owner ≠ .starting := by
  rcases h with h | ⟨result, h⟩ <;> simp [h]

theorem Free.not_closing (h : s.Free) (caller : Caller) : s.owner ≠ .closing caller := by
  rcases h with h | ⟨result, h⟩ <;> simp [h]

theorem Kept.step (h : s.Kept) (a : ThreadStep) : ∃ t, s.step a = .ok t ∧ t.Kept := by
  cases a with
  | owner => exact ⟨_, rfl, h.ownerStep⟩
  | exec => exact h.execStep
  | expire => exact ⟨_, rfl, h.expire⟩
  | start =>
    refine ⟨_, rfl, ?_⟩
    split
    next => exact ⟨by rintro ⟨⟩, fun _ => .inr rfl, h.closed, by rintro ⟨⟩, by rintro ⟨⟩⟩
    next => exact h
  | requestAbort =>
    refine ⟨_, rfl, ?_⟩
    split
    next => exact ⟨h.ready, h.suspended, h.closed, h.joined, h.owner⟩
    next => exact h
  | join timeoutMs =>
    refine ⟨_, rfl, ?_⟩
    split
    next hfree => exact h.goTo hfree.not_starting hfree.not_closing (by rintro ⟨⟩)
    next => exact h
  | destruct =>
    refine ⟨_, rfl, ?_⟩
    split
    next hfree => exact h.goTo hfree.not_starting hfree.not_closing trivial
    next => exact h

/-- `join` and `start` use the handle at these places. -/
def UsesHandle (s : XpfThread) : Prop :=
  match s.owner with
  | .starting | .unjoined .. | .waiting .. | .signaled _ | .closing _ => True
  | .idle | .joining .. | .returned _ | .destructing | .aborting | .destroyed => False

/-- What careful calls keep besides: nobody is on the way to a handle that is closed. -/
def Waitable (s : XpfThread) : Prop := s.mThreadHandle = false → s.mStatus = .joined ∧ ¬ s.UsesHandle

theorem Waitable.open (h : s.Waitable) (huses : s.UsesHandle) : s.mThreadHandle = true :=
  Bool.eq_true_of_not_eq_false fun hclosed => (h hclosed).2 huses

theorem waitable_of_open (h : s.mThreadHandle = true) : s.Waitable := by
  intro hclosed
  cases h.symm.trans hclosed

theorem Waitable.goTo (h : s.Waitable) {place : OwnerPlace}
    (hplace : s.mStatus = .joined → ¬ ({ s with owner := place } : XpfThread).UsesHandle) : Waitable { s with owner := place } :=
  fun hclosed => ⟨(h hclosed).1, hplace (h hclosed).1⟩

theorem Waitable.leaveJoin (h : s.Waitable) (caller : Caller) (result : Bool) : (s.leaveJoin caller result).Waitable := by
  cases caller with
  | user => exact h.goTo fun _ => id
  | destructor => exact h.goTo fun _ => id

theorem Waitable.ownerStep (h : s.Waitable) (hkept : s.Kept) : s.ownerStep.Waitable := by
  cases hplace : s.owner with
  | idle | returned | destroyed =>
    simp only [XpfThread.ownerStep, hplace]
    exact h
  | starting =>
    have hopen := h.open (by simp only [UsesHandle, hplace])
    simp only [XpfThread.ownerStep, hplace]
    exact waitable_of_open hopen
  | joining timeoutMs caller =>
    simp only [XpfThread.ownerStep, hplace]
    split
    next => exact h.leaveJoin caller true
    next hjoined => exact h.goTo fun hstatus => absurd hstatus hjoined
  | unjoined timeoutMs caller =>
    have hopen := h.open (by simp only [UsesHandle, hplace])
    simp only [XpfThread.ownerStep, hplace]
    split
    next => exact h.leaveJoin caller false
    next => exact waitable_of_open hopen
  | waiting timeoutMs caller =>
    have hopen := h.open (by simp only [UsesHandle, hplace])
    simp only [XpfThread.ownerStep, hplace]
    split
    next => exact waitable_of_open hopen
    next => exact h
  | signaled caller =>
    have hopen := h.open (by simp only [UsesHandle, hplace])
    simp only [XpfThread.ownerStep, hplace]
    exact waitable_of_open hopen
  | closing caller =>
    have howner := hkept.owner
    rw [AtOwner, hplace] at howner
    simp only [XpfThread.ownerStep, hplace]
    cases caller with
    | user => exact fun _ => ⟨howner.2, id⟩
    | destructor => exact fun _ => ⟨howner.2, id⟩
  | destructing =>
    simp only [XpfThread.ownerStep, hplace]
    apply h.goTo
    intro hjoined
    rw [hjoined]
    exact id
  | aborting =>
    simp only [XpfThread.ownerStep, hplace]
    exact fun hclosed => ⟨(h hclosed).1, id⟩

theorem handle_of_execStep {t : XpfThread} (ht : s.execStep = .ok t) : t.mThreadHandle = s.mThreadHandle := by
  unfold XpfThread.execStep at ht
  split at ht
  next => cases ht; rfl
  next =>
    split at ht
    next => cases ht
    next =>
      cases hexec : s.exec <;> rw [hexec] at ht <;> cases ht <;> rfl

theorem Waitable.execStep (h : s.Waitable) (hkept : s.Kept) {t : XpfThread} (ht : s.execStep = .ok t) : t.Waitable := by
  by_cases hclosed : s.mThreadHandle = false
  · have hstay : s.execStep = .ok s := if_pos (.inr (hkept.closed hclosed))
    obtain rfl := Except.ok.inj (hstay.symm.trans ht)
    exact h
  · exact waitable_of_open ((handle_of_execStep ht).trans (Bool.eq_true_of_not_eq_false hclosed))

theorem Waitable.step (h : s.Waitable) (hkept : s.Kept) {a : ThreadStep} (ha : s.Careful a) {t : XpfThread}
    (ht : s.step a = .ok t) : t.Waitable := by
  cases a with
  | owner =>
    obtain rfl := Except.ok.inj ht
    exact h.ownerStep hkept
  | exec => exact h.execStep hkept ht
  | expire =>
    obtain rfl := Except.ok.inj ht
    unfold XpfThread.expire
    split
    next timeoutMs caller hplace =>
      split
      next => exact h
      next => exact h.leaveJoin caller false
    next => exact h
  | start =>
    obtain rfl := Except.ok.inj ht
    split
    next hfree =>
      apply waitable_of_open
      exact Bool.eq_true_of_not_eq_false fun hclosed => ha hfree (h hclosed).1
    next => exact h
  | requestAbort =>
    obtain rfl := Except.ok.inj ht
    split
    next => exact fun hclosed => ⟨(h hclosed).1, (h hclosed).2⟩
    next => exact h
  | join timeoutMs =>
    obtain rfl := Except.ok.inj ht
    split
    next => exact h.goTo fun _ => id
    next => exact h
  | destruct =>
    obtain rfl := Except.ok.inj ht
    split
    next => exact h.goTo fun _ => id
    next => exact h

section Returning

theorem returns_of_end (h : s.Free ∨ s.owner = .destroyed) : s.Returns := ⟨[], by rintro a ⟨⟩, s, rfl, h⟩

theorem returns_of_step {a : ThreadStep} {t : XpfThread} (ht : s.step a = .ok t) (hreturns : t.Returns)
    (ha : a = .owner ∨ a = .exec) : s.Returns := by
  obtain ⟨more, hmore, u, hu, hend⟩ := hreturns
  refine ⟨a :: more, ?_, u, (final_cons ht).trans hu, hend⟩
  rw [List.forall_mem_cons]
  exact ⟨ha, hmore⟩

theorem returns_of_owner (hreturns : s.ownerStep.Returns) : s.Returns := returns_of_step rfl hreturns (.inl rfl)

theorem returns_leaveJoin (caller : Caller) (result : Bool) : (s.leaveJoin caller result).Returns := by
  apply returns_of_end
  cases caller with
  | user => exact .inl (.inr ⟨result, rfl⟩)
  | destructor => exact .inr rfl

theorem returns_closing {caller : Caller} (hplace : s.owner = .closing caller) : s.Returns := by
  apply returns_of_owner
  simp only [XpfThread.ownerStep, hplace]
  exact returns_leaveJoin caller true

theorem returns_signaled {caller : Caller} (hplace : s.owner = .signaled caller) : s.Returns := by
  apply returns_of_owner
  simp only [XpfThread.ownerStep, hplace]
  exact returns_closing rfl

variable {timeoutMs : ℕ} {caller : Caller}

theorem returns_ended (hplace : s.owner = .waiting timeoutMs caller) (hhandle : s.mThreadHandle = true)
    (hexec : s.exec = .ended) : s.Returns := by
  apply returns_of_owner
  simp only [XpfThread.ownerStep, hplace, hhandle, hexec, and_self, if_true]
  exact returns_signaled rfl

theorem returns_returning (hplace : s.owner = .waiting timeoutMs caller) (hhandle : s.mThreadHandle = true)
    (hexec : s.exec = .returning) : s.Returns := by
  have hstep : s.step .exec = .ok { s with exec := .ended } := by simp [XpfThread.step, XpfThread.execStep, hexec, hplace]
  exact returns_of_step hstep (returns_ended hplace hhandle rfl) (.inr rfl)

theorem returns_leaving (hplace : s.owner = .waiting timeoutMs caller) (hhandle : s.mThreadHandle = true)
    (hexec : s.exec = .leaving) : s.Returns := by
  have hstep : s.step .exec = .ok { s with mStatus := .finished, exec := .returning } := by
    simp [XpfThread.step, XpfThread.execStep, hexec, hplace]
  exact returns_of_step hstep (returns_returning hplace hhandle rfl) (.inr rfl)

theorem returns_running (hplace : s.owner = .waiting timeoutMs caller) (hhandle : s.mThreadHandle = true)
    (hexec : s.exec = .running) : s.Returns := by
  have hstep : s.step .exec = .ok { s with exec := .leaving } := by simp [XpfThread.step, XpfThread.execStep, hexec, hplace]
  exact returns_of_step hstep (returns_leaving hplace hhandle rfl) (.inr rfl)

theorem returns_started (hplace : s.owner = .waiting timeoutMs caller) (hhandle : s.mThreadHandle = true)
    (hexec : s.exec = .started) : s.Returns := by
  cases haborting : s.mAborting with
  | true =>
    have hstep : s.step .exec = .ok { s with exec := .returning } := by
      simp [XpfThread.step, XpfThread.execStep, hexec, hplace, haborting]
    exact returns_of_step hstep (returns_returning hplace hhandle rfl) (.inr rfl)
  | false =>
    have hstep : s.step .exec = .ok { s with exec := .running } := by
      simp [XpfThread.step, XpfThread.execStep, hexec, hplace, haborting]
    exact returns_of_step hstep (returns_running hplace hhandle rfl) (.inr rfl)

/-- A thread that was resumed comes to its end, and a wait at an open handle sees it. -/
theorem returns_waiting (hplace : s.owner = .waiting timeoutMs caller) (hhandle : s.mThreadHandle = true)
    (hsuspended : s.exec ≠ .suspended) : s.Returns := by
  cases hexec : s.exec with
  | suspended => exact absurd hexec hsuspended
  | started => exact returns_started hplace hhandle hexec
  | running => exact returns_running hplace hhandle hexec
  | leaving => exact returns_leaving hplace hhandle hexec
  | returning => exact returns_returning hplace hhandle hexec
  | ended => exact returns_ended hplace hhandle hexec

theorem returns_unjoined (h : s.Kept) (hwaitable : s.Waitable) (hplace : s.owner = .unjoined timeoutMs caller) : s.Returns := by
  have hopen := hwaitable.open (by simp only [UsesHandle, hplace])
  apply returns_of_owner
  simp only [XpfThread.ownerStep, hplace]
  split
  next => exact returns_leaveJoin caller false
  next hready =>
    exact returns_waiting rfl hopen fun hexec => hready ((h.suspended hexec).resolve_right (by simp [hplace]))

theorem returns_joining (h : s.Kept) (hwaitable : s.Waitable) (hplace : s.owner = .joining timeoutMs caller) : s.Returns := by
  apply returns_of_owner
  by_cases hjoined : s.mStatus = .joined
  · simp only [XpfThread.ownerStep, hplace, hjoined, if_true]
    exact returns_leaveJoin caller true
  · have hnext : s.ownerStep.owner = .unjoined timeoutMs caller := by
      simp only [XpfThread.ownerStep, hplace, if_neg hjoined]
    exact returns_unjoined h.ownerStep (hwaitable.ownerStep h) hnext

theorem returns_aborting (h : s.Kept) (hwaitable : s.Waitable) (hplace : s.owner = .aborting) : s.Returns := by
  have hnext : s.ownerStep.owner = .joining infinite .destructor := by simp only [XpfThread.ownerStep, hplace]
  exact returns_of_owner (returns_joining h.ownerStep (hwaitable.ownerStep h) hnext)

theorem returns_destructing (h : s.Kept) (hwaitable : s.Waitable) (hplace : s.owner = .destructing) : s.Returns := by
  apply returns_of_owner
  have hnext : s.ownerStep.owner = branchOf s.mStatus := by simp only [XpfThread.ownerStep, hplace]
  cases hstatus : s.mStatus with
  | ready | running =>
    rw [hstatus] at hnext
    exact returns_aborting h.ownerStep (hwaitable.ownerStep h) hnext
  | finished =>
    rw [hstatus] at hnext
    exact returns_joining h.ownerStep (hwaitable.ownerStep h) hnext
  | joined =>
    rw [hstatus] at hnext
    exact returns_of_end (.inr hnext)

theorem Kept.returns (h : s.Kept) (hwaitable : s.Waitable) : s.Returns := by
  cases hplace : s.owner with
  | idle => exact returns_of_end (.inl (.inl hplace))
  | returned result => exact returns_of_end (.inl (.inr ⟨result, hplace⟩))
  | destroyed => exact returns_of_end (.inr hplace)
  | starting =>
    apply returns_of_owner
    apply returns_of_end
    simp only [XpfThread.ownerStep, hplace]
    exact .inl (.inl rfl)
  | joining timeoutMs caller => exact returns_joining h hwaitable hplace
  | unjoined timeoutMs caller => exact returns_unjoined h hwaitable hplace
  | waiting timeoutMs caller =>
    have howner := h.owner
    rw [AtOwner, hplace] at howner
    exact returns_waiting hplace (hwaitable.open (by simp only [UsesHandle, hplace])) howner.2
  | signaled caller => exact returns_signaled hplace
  | closing caller => exact returns_closing hplace
  | destructing => exact returns_destructing h hwaitable hplace
  | aborting => exact returns_aborting h hwaitable hplace

/-- The destructor waits at a handle that is closed. -/
def Stuck (s : XpfThread) : Prop :=
  s.owner = .waiting infinite .destructor ∧ s.mThreadHandle = false ∧ s.exec = .ended

theorem Stuck.step (h : s.Stuck) (a : ThreadStep) : s.step a = .ok s := by
  obtain ⟨hplace, hclosed, hexec⟩ := h
  have hfree : ¬ s.Free := by simp [Free, hplace]
  cases a with
  | start | requestAbort | join | destruct => simp only [XpfThread.step, if_neg hfree]
  | owner => simp [XpfThread.step, XpfThread.ownerStep, hplace, hclosed]
  | exec => simp [XpfThread.step, XpfThread.execStep, hexec]
  | expire => simp [XpfThread.step, XpfThread.expire, hplace]

theorem Stuck.final (h : s.Stuck) (more : List ThreadStep) : final XpfThread.step s more = .ok s := by
  induction more with
  | nil => rfl
  | cons a rest ih => exact (final_cons (h.step a)).trans ih

/-- A joined thread is started again and destroyed. -/
def restart : List ThreadStep := [.start, .owner, .destruct, .owner, .owner, .owner, .owner]

theorem Kept.restart (h : s.Kept) (hfree : s.Free) (hjoined : s.mStatus = .joined) :
    ∃ t, GuardedRuns.final XpfThread.step s XpfThread.restart = .ok t ∧ t.Stuck := by
  obtain ⟨hexec, hclosed⟩ := h.handle hjoined hfree.not_closing
  have hstart : s.step .start = .ok ⟨.running, s.mAborting, false, .starting, .ended⟩ := by
    simp only [XpfThread.step, if_pos hfree, hexec, hclosed]
  exact ⟨⟨.running, true, false, .waiting infinite .destructor, .ended⟩, (final_cons hstart).trans rfl, rfl, rfl, rfl⟩

end Returning

/-- If the thread is not started after it was joined, every call of the owner can come to its end. Where
it is started then, the destructor never does. -/
theorem returns_of_careful (labels : List ThreadStep) :
    (Along step Careful create labels → Throughout step Returns create labels) ∧
      ∀ s, final step create labels = .ok s → ¬ s.Careful .start →
        ∃ t, final step s restart = .ok t ∧ t.owner = .waiting infinite .destructor ∧
          ∀ more, final step t more = .ok t := by
  constructor
  · intro hcareful
    have hkeeps : ∀ (s : XpfThread) a, s.Kept ∧ s.Waitable → s.Careful a → ∃ t, s.step a = .ok t ∧ t.Kept ∧ t.Waitable := by
      rintro s a ⟨hkept, hwaitable⟩ ha
      obtain ⟨t, ht, hkept'⟩ := hkept.step a
      exact ⟨t, ht, hkept', hwaitable.step hkept ha ht⟩
    have hcreate : create.Kept ∧ create.Waitable := ⟨kept_create, waitable_of_open rfl⟩
    exact (throughout_of_invariant hkeeps hcreate hcareful).mono fun s hs => hs.1.returns hs.2
  · intro s hfinal hcareless
    have hkept : s.Kept := by
      have hstep : ∀ (s : XpfThread) a t, s.Kept → True → s.step a = .ok t → t.Kept := by
        intro s a t hs _ ht
        obtain ⟨u, hu, hkept⟩ := hs.step a
        obtain rfl := Except.ok.inj (ht.symm.trans hu)
        exact hkept
      exact final_of_preserved hstep kept_create (along_of_forall fun _ _ => trivial) hfinal
    obtain ⟨hfree, hjoined⟩ : s.Free ∧ s.mStatus = .joined := by
      simpa only [Careful, Classical.not_imp, not_not] using hcareless
    obtain ⟨t, ht, hstuck⟩ := hkept.restart hfree hjoined
    exact ⟨t, ht, hstuck.1, hstuck.final⟩

/-- A thread that is joined while it runs, and destroyed. -/
def joinedRun : List ThreadStep :=
  [.start, .owner, .exec, .join infinite, .owner, .exec, .owner, .exec, .exec, .owner, .owner, .owner, .destruct, .owner]

theorem returns_of_careful_joinedRun : Throughout step Returns create joinedRun := (returns_of_careful _).1 (by decide)

end Invariant

end XpfThread
end LibXpf.Threading.Windows
