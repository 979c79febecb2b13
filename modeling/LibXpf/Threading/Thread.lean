import LibXpf.Threading.ThreadEvent

/-! # The life of an `XpfThread` on POSIX

A thread object is shared by its owner and by `exec`, which the constructor puts
on a new thread. The owner starts it, asks it to stop, joins and destroys it,
with every access to a shared field a step of its own. The events are the
`XpfThreadEvent` of the library, each with one thread that may wait for it:
`exec` for the start and the owner for the finish.
-/
namespace LibXpf.Threading
open GuardedRuns

inductive RunningStatus where
  | ready
  | running
  | finished
  | joined
  deriving DecidableEq

/-- Who has called `join`. -/
inductive Caller where
  | user
  | destructor
  deriving DecidableEq

/-- Where the owner is. -/
inductive OwnerPlace where
  | idle
  /-- In `start`, with the status written. -/
  | starting
  /-- In `join`, before its test for `TRS_JOINED`. -/
  | joining (timeoutMs : ℕ) (caller : Caller)
  /-- In `join`, before its test for `TRS_READY`. -/
  | unjoined (timeoutMs : ℕ) (caller : Caller)
  /-- In the wait for the finish event. -/
  | waiting (caller : Caller)
  /-- At `pthread_join`. -/
  | pthreadJoin (caller : Caller)
  /-- Out of a call of `join`. -/
  | returned (result : Bool)
  /-- In the destructor, before the switch over the status. -/
  | destructing
  /-- In the destructor, on the branch that requests an abort. -/
  | aborting
  /-- In the destructor, before the events are deleted. -/
  | deleting
  | destroyed
  deriving DecidableEq

/-- Where `exec` is. -/
inductive ExecPlace where
  | created
  /-- In the wait for the start event. -/
  | waiting
  /-- Before the test of the abort flag. -/
  | started
  /-- In the body that the user provides. -/
  | running
  /-- Before the finish event is set. -/
  | finishing
  /-- Before the status is written. -/
  | leaving
  | returned
  deriving DecidableEq

/-- The last two fields are not part of the program: whether `start` has been
called, and whether the last call of `join` came when it had been and `exec` had
returned. -/
structure XpfThread where
  mStatus : RunningStatus
  mAborting : Bool
  mStartEvent : XpfThreadEvent Unit
  mFinishEvent : XpfThreadEvent Unit
  owner : OwnerPlace
  exec : ExecPlace
  isStarted : Bool
  late : Bool

namespace XpfThread

def create : XpfThread where
  mStatus := .ready
  mAborting := false
  mStartEvent := .create false
  mFinishEvent := .create false
  owner := .idle
  exec := .created
  isStarted := false
  late := false

/-- The owner is in no call. -/
def Free (s : XpfThread) : Prop := s.owner = .idle ∨ ∃ result, s.owner = .returned result

instance (s : XpfThread) : Decidable s.Free :=
  match h : s.owner with
  | .idle => isTrue (.inl h)
  | .returned result => isTrue (.inr ⟨result, h⟩)
  | .starting | .joining .. | .unjoined .. | .waiting _ | .pthreadJoin _ | .destructing | .aborting | .deleting
  | .destroyed => isFalse (by simp [Free, h])

/-- `join` hands its result to its caller; the destructor does not look at it. -/
def leaveJoin (s : XpfThread) (caller : Caller) (result : Bool) : XpfThread :=
  match caller with
  | .user => { s with owner := .returned result }
  | .destructor => { s with owner := .deleting }

/-- The next step of the wait for the finish event. -/
def finishWait (s : XpfThread) (caller : Caller) : XpfThread :=
  match s.mFinishEvent.place () with
  | .called _ => { s with mFinishEvent := s.mFinishEvent.test () }
  | .unset => { s with mFinishEvent := s.mFinishEvent.timedWait () }
  | .woken => { s with mFinishEvent := s.mFinishEvent.wake () }
  | .returned result => if result then { s with owner := .pthreadJoin caller } else s.leaveJoin caller false
  | .outside | .blocked _ => s

/-- The next step of the call that the owner is in. -/
def ownerStep (s : XpfThread) : XpfThread :=
  match s.owner with
  | .starting =>
    { s with
      mStartEvent := s.mStartEvent.set 0
      owner := .idle }
  | .joining timeoutMs caller =>
    if s.mStatus = .joined then s.leaveJoin caller true else { s with owner := .unjoined timeoutMs caller }
  | .unjoined timeoutMs caller =>
    if s.mStatus = .ready then s.leaveJoin caller false
    else if timeoutMs = infinite then { s with owner := .pthreadJoin caller }
    else
      { s with
        mFinishEvent := s.mFinishEvent.wait () timeoutMs
        owner := .waiting caller }
  | .waiting caller => s.finishWait caller
  | .pthreadJoin caller =>
    if s.exec = .returned then { s with mStatus := .joined }.leaveJoin caller true else s
  | .destructing =>
    match s.mStatus with
    | .ready | .running => { s with owner := .aborting }
    | .finished => { s with owner := .joining infinite .destructor }
    | .joined => { s with owner := .deleting }
  | .aborting =>
    { s with
      mAborting := true
      owner := .joining infinite .destructor }
  | .deleting => { s with owner := .destroyed }
  | .idle | .returned _ | .destroyed => s

/-- The next step of the wait for the start event. -/
def startWait (s : XpfThread) : XpfThread :=
  match s.mStartEvent.place () with
  | .called _ => { s with mStartEvent := s.mStartEvent.test () }
  | .unset => { s with mStartEvent := s.mStartEvent.timedWait () }
  | .woken => { s with mStartEvent := s.mStartEvent.wake () }
  | .returned _ => { s with exec := .started }
  | .outside | .blocked _ => s

/-- The next step of `exec`. Past the destructor there is nothing left for it to
work on. -/
def execStep (s : XpfThread) : Except Fault XpfThread :=
  if s.exec = .returned then .ok s
  else if s.owner = .destroyed then .error .useAfterFree
  else match s.exec with
    | .created =>
      .ok { s with
        mStartEvent := s.mStartEvent.wait () infinite
        exec := .waiting }
    | .waiting => .ok s.startWait
    | .started => .ok { s with exec := if s.mAborting then .returned else .running }
    | .running => .ok { s with exec := .finishing }
    | .finishing =>
      .ok { s with
        mFinishEvent := s.mFinishEvent.set 0
        exec := .leaving }
    | .leaving =>
      .ok { s with
        mStatus := .finished
        exec := .returned }
    | .returned => .ok s

end XpfThread

/-- The calls of the owner, the steps of the two parties, and the returns of
their waits that no signal has caused. -/
inductive ThreadStep where
  | start
  | requestAbort
  | join (timeoutMs : ℕ)
  | destruct
  | owner
  | exec
  | expire
  | spuriousFinish
  | spuriousStart

namespace XpfThread

/-- The destructor must not delete the start event while `exec` is blocked in its condition variable. -/
def step (s : XpfThread) : ThreadStep → Except Fault XpfThread
  | .start => .ok <| if s.Free then
      { s with
        mStatus := .running
        owner := .starting
        isStarted := true } else s
  | .requestAbort => .ok <| if s.Free then { s with mAborting := true } else s
  | .join timeoutMs => .ok <| if s.Free then
      { s with
        owner := .joining timeoutMs .user
        late := s.isStarted && s.exec = .returned } else s
  | .destruct => .ok <| if s.Free then { s with owner := .destructing } else s
  | .owner =>
    if s.owner = .deleting ∧ s.mStartEvent.m_ready ≠ [] then .error .useAfterFree else .ok s.ownerStep
  | .exec => s.execStep
  | .expire => .ok { s with mFinishEvent := s.mFinishEvent.expire () }
  | .spuriousFinish => .ok { s with mFinishEvent := s.mFinishEvent.spurious () }
  | .spuriousStart =>
    if s.owner = .destroyed ∧ s.exec ≠ .returned then .error .useAfterFree
    else .ok { s with mStartEvent := s.mStartEvent.spurious () }

/-- The owner makes one call after the other, and starts the thread once at most. -/
def Admits (s : XpfThread) : ThreadStep → Prop
  | .start => s.Free ∧ s.isStarted = false
  | .requestAbort | .join _ | .destruct => s.Free
  | _ => True

instance (s : XpfThread) : (a : ThreadStep) → Decidable (s.Admits a)
  | .start => inferInstanceAs (Decidable (_ ∧ _))
  | .requestAbort | .join _ | .destruct => inferInstanceAs (Decidable s.Free)
  | .owner | .exec | .expire | .spuriousFinish | .spuriousStart => isTrue trivial

/-- The events go when `exec` has returned, not before. A call of `join` that
comes after the return of a started thread is on its way to join the thread and
return `true`; nothing holds it up, and it never ends in another way. -/
structure Sound (s : XpfThread) : Prop where
  deleted : s.owner = .destroyed → s.exec = .returned
  returns : s.late = true → ∀ timeoutMs, s.owner = .joining timeoutMs .user →
    ∃ k, (ownerStep^[k] s).owner = .returned true ∧ (ownerStep^[k] s).mStatus = .joined
  unblocked : s.late = true → ∀ timed, s.mFinishEvent.place () ≠ .blocked timed
  joined : s.late = true → ∀ result, s.owner = .returned result → result = true ∧ s.mStatus = .joined

/-- The calls that keep the life of the thread sound: it is not destroyed before
it is started, unless `exec` is gone by itself; and when `exec` has returned
without setting the finish event, it is joined with no timeout. -/
def Careful (s : XpfThread) : ThreadStep → Prop
  | .destruct => s.mStatus = .ready → s.exec = .returned
  | .join timeoutMs => s.isStarted = true → s.exec = .returned → s.mFinishEvent.m_set = false →
      s.mStatus = .joined ∨ timeoutMs = infinite
  | _ => True

instance (s : XpfThread) : (a : ThreadStep) → Decidable (s.Careful a)
  | .destruct => inferInstanceAs (Decidable (_ → _))
  | .join _ => inferInstanceAs (Decidable (_ → _))
  | .start | .requestAbort | .owner | .exec | .expire | .spuriousFinish | .spuriousStart => isTrue trivial

end XpfThread

/-- A place from where a set event is passed. -/
def Place.Open : Place → Prop
  | .unset | .blocked _ => False
  | _ => True

namespace XpfThread

/-- What holds at each place of the owner. -/
def AtOwner (s : XpfThread) : Prop :=
  match s.owner with
  | .joining timeoutMs .user =>
    s.late = true → s.mStatus = .joined ∨ timeoutMs = infinite ∨ s.mFinishEvent.m_set = true
  | .unjoined timeoutMs .user => s.late = true → timeoutMs = infinite ∨ s.mFinishEvent.m_set = true
  | .waiting .user => s.late = true → s.mFinishEvent.m_set = true ∧ (s.mFinishEvent.place ()).Open ∧
      s.mFinishEvent.place () ≠ .returned false
  | .returned result => s.late = true → result = true ∧ s.mStatus = .joined
  | .joining timeoutMs .destructor | .unjoined timeoutMs .destructor =>
    timeoutMs = infinite ∧ (s.mStatus = .ready → s.exec = .returned)
  | .waiting .destructor => False
  | .destructing | .aborting => s.mStatus = .ready → s.exec = .returned
  | .deleting | .destroyed => s.exec = .returned
  | .idle | .starting | .pthreadJoin _ => True

/-- What careful calls keep. -/
structure Kept (s : XpfThread) : Prop where
  joined : s.mStatus = .joined → s.exec = .returned
  started : s.isStarted = true → s.mStatus ≠ .ready
  late : s.late = true → s.isStarted = true ∧ s.exec = .returned
  rest : (∀ caller, s.owner ≠ .waiting caller) → (s.mFinishEvent.place ()).Open
  owner : s.AtOwner

section Events
variable {e : XpfThreadEvent Unit}

theorem set_open (h : (e.place ()).Open) (choice : ℕ) : ((e.set choice).place ()).Open := by
  unfold XpfThreadEvent.set XpfThreadEvent.condSignal
  split
  · trivial
  · exact h

theorem wait_passes (h : (e.place ()).Open) (timeoutMs : ℕ) :
    (∃ t, (e.wait () timeoutMs).place () = .called t) ∨ (e.wait () timeoutMs).place () = .woken := by
  cases hplace : e.place () with
  | outside | returned =>
    refine .inl ⟨timeoutMs, ?_⟩
    simp only [XpfThreadEvent.wait, hplace]
    exact XpfThreadEvent.goTo_self _
  | called t => exact .inl ⟨t, by simp only [XpfThreadEvent.wait, hplace]⟩
  | woken => exact .inr (by simp only [XpfThreadEvent.wait, hplace])
  | unset | blocked =>
    rw [hplace] at h
    exact h.elim

theorem wait_isSet (timeoutMs : ℕ) : (e.wait () timeoutMs).m_set = e.m_set := by
  unfold XpfThreadEvent.wait
  split <;> rfl

theorem expire_open (h : (e.place ()).Open) : e.expire () = e := by
  cases hplace : e.place () with
  | outside | called | woken | returned => simp only [XpfThreadEvent.expire, hplace]
  | unset | blocked =>
    rw [hplace] at h
    exact h.elim

theorem spurious_open (h : (e.place ()).Open) : e.spurious () = e := by
  cases hplace : e.place () with
  | outside | called | woken | returned => simp only [XpfThreadEvent.spurious, hplace]
  | unset | blocked =>
    rw [hplace] at h
    exact h.elim

end Events

section Invariant
variable {s s' : XpfThread}

/-- The finish event does not hold up a late call of `join`. -/
theorem Kept.open_of_late (h : s.Kept) (hlate : s.late = true) : (s.mFinishEvent.place ()).Open := by
  by_cases hwaiting : ∃ caller, s.owner = .waiting caller
  · obtain ⟨caller, hwaiting⟩ := hwaiting
    have howner := h.owner
    rw [AtOwner, hwaiting] at howner
    cases caller with
    | user => exact (howner hlate).2.1
    | destructor => exact howner.elim
  · exact h.rest (not_exists.mp hwaiting)

section Late

/-- The wait for an event that is set takes one step. -/
theorem finishWait_passes (hset : s.mFinishEvent.m_set = true) (hplace : (∃ t, s.mFinishEvent.place () = .called t) ∨
    s.mFinishEvent.place () = .woken) : ∃ e : XpfThreadEvent Unit,
      s.finishWait .user = { s with mFinishEvent := e } ∧ e.place () = .returned true := by
  rcases hplace with ⟨t, hcalled⟩ | hwoken
  · refine ⟨s.mFinishEvent.test (), by simp only [finishWait, hcalled], ?_⟩
    simp only [XpfThreadEvent.test, hcalled, hset, ↓reduceIte]
    exact XpfThreadEvent.goTo_self _
  · refine ⟨s.mFinishEvent.wake (), by simp only [finishWait, hwoken], ?_⟩
    simp only [XpfThreadEvent.wake, hwoken]
    exact XpfThreadEvent.goTo_self _

theorem pthreadJoin_returns (hplace : s.owner = .pthreadJoin .user) (hexec : s.exec = .returned) :
    s.ownerStep.owner = .returned true ∧ s.ownerStep.mStatus = .joined := by
  simp only [ownerStep, hplace, if_pos hexec, leaveJoin, and_self]

/-- A late call of `join` joins the thread. -/
theorem Kept.returns (h : s.Kept) (hlate : s.late = true) {timeoutMs : ℕ} (hplace : s.owner = .joining timeoutMs .user) :
    ∃ k, (ownerStep^[k] s).owner = .returned true ∧ (ownerStep^[k] s).mStatus = .joined := by
  obtain ⟨hstarted, hexec⟩ := h.late hlate
  have howner := h.owner
  rw [AtOwner, hplace] at howner
  by_cases hjoined : s.mStatus = .joined
  · refine ⟨1, ?_⟩
    simp only [Function.iterate_one, ownerStep, hplace, hjoined, ↓reduceIte, leaveJoin, and_self]
  · have hfirst : s.ownerStep = { s with owner := .unjoined timeoutMs .user } := by
      simp only [ownerStep, hplace, if_neg hjoined]
    have hready : s.mStatus ≠ .ready := h.started hstarted
    by_cases hinfinite : timeoutMs = infinite
    · have hsecond : ({ s with owner := .unjoined timeoutMs .user } : XpfThread).ownerStep =
          { s with owner := .pthreadJoin .user } := by
        simp only [ownerStep, if_neg hready, if_pos hinfinite]
      refine ⟨3, ?_⟩
      simp only [Function.iterate_succ_apply, Function.iterate_zero_apply, hfirst, hsecond]
      exact pthreadJoin_returns rfl hexec
    · have hset : s.mFinishEvent.m_set = true := ((howner hlate).resolve_left hjoined).resolve_left hinfinite
      have hopen := h.rest (by simp [hplace])
      have hsecond : ({ s with owner := .unjoined timeoutMs .user } : XpfThread).ownerStep =
          { s with
            mFinishEvent := s.mFinishEvent.wait () timeoutMs
            owner := .waiting .user } := by
        simp only [ownerStep, if_neg hready, if_neg hinfinite]
      obtain ⟨e, hwait, hevent⟩ := finishWait_passes (s := { s with
        mFinishEvent := s.mFinishEvent.wait () timeoutMs
        owner := .waiting .user }) ((wait_isSet timeoutMs).trans hset) (wait_passes hopen timeoutMs)
      have hthird : ({ s with
          mFinishEvent := s.mFinishEvent.wait () timeoutMs
          owner := .waiting .user } : XpfThread).ownerStep = { s with
            mFinishEvent := e
            owner := .waiting .user } := hwait
      have hfourth : ({ s with
          mFinishEvent := e
          owner := .waiting .user } : XpfThread).ownerStep = { s with
            mFinishEvent := e
            owner := .pthreadJoin .user } := by
        simp only [ownerStep, finishWait, hevent, ↓reduceIte]
      refine ⟨5, ?_⟩
      simp only [Function.iterate_succ_apply, Function.iterate_zero_apply, hfirst, hsecond, hthird, hfourth]
      exact pthreadJoin_returns rfl hexec

end Late

theorem Kept.sound (h : s.Kept) : s.Sound := by
  have howner := h.owner
  refine ⟨fun hdestroyed => ?_, fun hlate _ hjoining => h.returns hlate hjoining, fun hlate timed hblocked => ?_,
    fun hlate result hresult => ?_⟩
  · rw [AtOwner, hdestroyed] at howner
    exact howner
  · have hopen := h.open_of_late hlate
    rw [hblocked] at hopen
    exact hopen
  · rw [AtOwner, hresult] at howner
    exact howner hlate

theorem kept_create : create.Kept := by
  constructor
  · intro h
    cases h
  · intro h
    cases h
  · intro h
    cases h
  · exact fun _ => trivial
  · trivial

/-- Where no late call of `join` is in progress, the owner stays as it is when
the status only leaves `TRS_READY` and `exec` only goes on to its return. -/
theorem AtOwner.frame (h : s.AtOwner) (howner : s'.owner = s.owner) (hlate : s'.late = false)
    (hready : s'.mStatus = .ready → s.mStatus = .ready) (hexec : s.exec = .returned → s'.exec = .returned) :
    s'.AtOwner := by
  have hnever : ¬ s'.late = true := by rw [hlate]; exact Bool.false_ne_true
  rw [AtOwner, howner]
  rw [AtOwner] at h
  generalize s.owner = place at h
  match place with
  | .joining _ .user => exact fun hlate => (hnever hlate).elim
  | .unjoined _ .user => exact fun hlate => (hnever hlate).elim
  | .waiting .user => exact fun hlate => (hnever hlate).elim
  | .returned _ => exact fun hlate => (hnever hlate).elim
  | .joining _ .destructor => exact ⟨h.1, fun hr => hexec (h.2 (hready hr))⟩
  | .unjoined _ .destructor => exact ⟨h.1, fun hr => hexec (h.2 (hready hr))⟩
  | .waiting .destructor => exact h.elim
  | .destructing => exact fun hr => hexec (h (hready hr))
  | .aborting => exact fun hr => hexec (h (hready hr))
  | .deleting => exact hexec h
  | .destroyed => exact hexec h
  | .idle => trivial
  | .starting => trivial
  | .pthreadJoin _ => trivial

theorem Kept.not_late (h : s.Kept) (hexec : s.exec ≠ .returned) : s.late = false := by
  by_contra hlate
  exact hexec (h.late (Bool.eq_true_of_not_eq_false hlate)).2

/-- A step of `exec` leaves the owner's side alone but for the status. -/
theorem Kept.execMoves (h : s.Kept) (hexec : s.exec ≠ .returned) (howner : s'.owner = s.owner)
    (hstarted : s'.isStarted = s.isStarted) (hlate : s'.late = s.late)
    (hstatus : s'.mStatus = s.mStatus ∨ s'.mStatus = .finished)
    (hopen : (s.mFinishEvent.place ()).Open → (s'.mFinishEvent.place ()).Open) : s'.Kept := by
  have hearly : s'.late = false := hlate.trans (h.not_late hexec)
  have hready : s'.mStatus = .ready → s.mStatus = .ready := by
    intro hr
    rcases hstatus with heq | heq
    · exact heq.symm.trans hr
    · cases heq.symm.trans hr
  constructor
  · intro hjoined
    rcases hstatus with heq | heq
    · exact (hexec (h.joined (heq.symm.trans hjoined))).elim
    · cases heq.symm.trans hjoined
  · exact fun hs hr => h.started (hstarted.symm.trans hs) (hready hr)
  · intro hl
    rw [hearly] at hl
    cases hl
  · intro hrest
    rw [howner] at hrest
    exact hopen (h.rest hrest)
  · exact h.owner.frame howner hearly hready (fun hr => (hexec hr).elim)

theorem Kept.execStep (h : s.Kept) (hstep : s.execStep = .ok s') : s'.Kept := by
  unfold XpfThread.execStep at hstep
  split at hstep
  · obtain rfl := Except.ok.inj hstep
    exact h
  · next hexec =>
    split at hstep
    · cases hstep
    · split at hstep
      · obtain rfl := Except.ok.inj hstep
        exact h.execMoves hexec rfl rfl rfl (.inl rfl) id
      · obtain rfl := Except.ok.inj hstep
        unfold startWait
        split <;> exact h.execMoves hexec rfl rfl rfl (.inl rfl) id
      · obtain rfl := Except.ok.inj hstep
        exact h.execMoves hexec rfl rfl rfl (.inl rfl) id
      · obtain rfl := Except.ok.inj hstep
        exact h.execMoves hexec rfl rfl rfl (.inl rfl) id
      · obtain rfl := Except.ok.inj hstep
        exact h.execMoves hexec rfl rfl rfl (.inl rfl) (fun hopen => set_open hopen 0)
      · obtain rfl := Except.ok.inj hstep
        exact h.execMoves hexec rfl rfl rfl (.inr rfl) id
      · obtain rfl := Except.ok.inj hstep
        exact h

/-- What the environment does to a blocked owner. -/
theorem Kept.finishMoves (h : s.Kept) {e : XpfThreadEvent Unit}
    (he : (s.mFinishEvent.place ()).Open → e = s.mFinishEvent) : ({ s with mFinishEvent := e } : XpfThread).Kept := by
  by_cases hopen : (s.mFinishEvent.place ()).Open
  · rw [he hopen]
    exact h
  · have hearly : s.late = false := Bool.eq_false_of_not_eq_true fun hlate => hopen (h.open_of_late hlate)
    refine ⟨h.joined, h.started, h.late, fun hrest => (hopen (h.rest hrest)).elim, ?_⟩
    exact h.owner.frame rfl hearly id id

/-- The owner goes on to a place that is not in the wait for the finish event. -/
theorem Kept.goTo (h : s.Kept) (hopen : (s.mFinishEvent.place ()).Open) {place : OwnerPlace}
    (hplace : ({ s with owner := place } : XpfThread).AtOwner) : ({ s with owner := place } : XpfThread).Kept :=
  ⟨h.joined, h.started, h.late, fun _ => hopen, hplace⟩

/-- A call of `join` that the user made in vain was not a late one. -/
theorem Kept.leaveJoin (h : s.Kept) (hopen : (s.mFinishEvent.place ()).Open) {caller : Caller} {result : Bool}
    (huser : caller = .user → s.late = true → result = true ∧ s.mStatus = .joined)
    (hdestructor : caller = .destructor → s.exec = .returned) : (s.leaveJoin caller result).Kept := by
  cases caller with
  | user => exact h.goTo hopen (huser rfl)
  | destructor => exact h.goTo hopen (hdestructor rfl)

theorem Kept.finishWait (h : s.Kept) {caller : Caller} (hplace : s.owner = .waiting caller) :
    (s.finishWait caller).Kept := by
  have howner := h.owner
  rw [AtOwner, hplace] at howner
  cases caller with
  | destructor => exact howner.elim
  | user =>
    have hwaits : ∀ e : XpfThreadEvent Unit,
        (s.late = true → e.m_set = true ∧ (e.place ()).Open ∧ e.place () ≠ .returned false) →
          ({ s with mFinishEvent := e } : XpfThread).Kept := by
      intro e he
      refine ⟨h.joined, h.started, h.late, fun hrest => (hrest .user hplace).elim, ?_⟩
      simp only [AtOwner, hplace]
      exact he
    cases hevent : s.mFinishEvent.place () with
    | outside => simpa only [XpfThread.finishWait, hevent] using h
    | blocked timed => simpa only [XpfThread.finishWait, hevent] using h
    | called timeoutMs =>
      simp only [XpfThread.finishWait, hevent]
      refine hwaits _ fun hlate => ?_
      have hset : s.mFinishEvent.m_set = true := (howner hlate).1
      simp [XpfThreadEvent.test, hevent, hset, XpfThreadEvent.goTo, Place.Open]
    | unset =>
      simp only [XpfThread.finishWait, hevent]
      refine hwaits _ fun hlate => ?_
      have hopen := (howner hlate).2.1
      rw [hevent] at hopen
      exact hopen.elim
    | woken =>
      simp only [XpfThread.finishWait, hevent]
      refine hwaits _ fun hlate => ?_
      have hset : s.mFinishEvent.m_set = true := (howner hlate).1
      simp [XpfThreadEvent.wake, hevent, hset, XpfThreadEvent.goTo, Place.Open]
    | returned result =>
      have hopen : (s.mFinishEvent.place ()).Open := by rw [hevent]; trivial
      simp only [XpfThread.finishWait, hevent]
      split
      · exact h.goTo hopen trivial
      · next hresult =>
        refine h.leaveJoin hopen (fun _ hlate => ?_) Caller.noConfusion
        rw [Bool.eq_false_of_not_eq_true hresult] at hevent
        exact ((howner hlate).2.2 hevent).elim

theorem Kept.rest_of (h : s.Kept) {place : OwnerPlace} (hplace : s.owner = place)
    (hne : ∀ caller, place ≠ .waiting caller) : (s.mFinishEvent.place ()).Open :=
  h.rest fun caller hwaiting => hne caller (hplace.symm.trans hwaiting)

theorem Kept.joining (h : s.Kept) {timeoutMs : ℕ} {caller : Caller} (hplace : s.owner = .joining timeoutMs caller) :
    s.ownerStep.Kept := by
  have hopen := h.rest_of hplace (by simp)
  have howner := h.owner
  simp only [AtOwner, hplace] at howner
  simp only [XpfThread.ownerStep, hplace]
  split
  · next hjoined => exact h.leaveJoin hopen (fun _ _ => ⟨rfl, hjoined⟩) (fun _ => h.joined hjoined)
  · next hjoined =>
    cases caller with
    | user => exact h.goTo hopen (fun hlate => (howner hlate).resolve_left hjoined)
    | destructor => exact h.goTo hopen howner

theorem Kept.unjoined (h : s.Kept) {timeoutMs : ℕ} {caller : Caller} (hplace : s.owner = .unjoined timeoutMs caller) :
    s.ownerStep.Kept := by
  have hopen := h.rest_of hplace (by simp)
  have howner := h.owner
  simp only [AtOwner, hplace] at howner
  simp only [XpfThread.ownerStep, hplace]
  split
  · next hready =>
    refine h.leaveJoin hopen (fun _ hlate => (h.started (h.late hlate).1 hready).elim) ?_
    rintro rfl
    exact howner.2 hready
  · split
    · exact h.goTo hopen trivial
    · next hfinite =>
      cases caller with
      | user =>
        refine ⟨h.joined, h.started, h.late, fun hrest => (hrest .user rfl).elim, fun hlate => ?_⟩
        have hset := (howner hlate).resolve_left hfinite
        refine ⟨(wait_isSet timeoutMs).trans hset, ?_⟩
        rcases wait_passes hopen timeoutMs with ⟨t, hcalled⟩ | hwoken
        · simp [hcalled, Place.Open]
        · simp [hwoken, Place.Open]
      | destructor => exact (hfinite howner.1).elim

theorem Kept.pthreadJoin (h : s.Kept) {caller : Caller} (hplace : s.owner = .pthreadJoin caller) :
    s.ownerStep.Kept := by
  simp only [XpfThread.ownerStep, hplace]
  split
  · next hexec =>
    have hjoined : ({ s with mStatus := .joined } : XpfThread).Kept := by
      refine ⟨fun _ => hexec, fun _ => RunningStatus.noConfusion, h.late, h.rest, ?_⟩
      simp only [AtOwner, hplace]
    exact hjoined.leaveJoin (h.rest_of hplace (by simp)) (fun _ _ => ⟨rfl, rfl⟩) (fun _ => hexec)
  · exact h

theorem Kept.destructing (h : s.Kept) (hplace : s.owner = .destructing) : s.ownerStep.Kept := by
  have hopen := h.rest_of hplace (by simp)
  have howner := h.owner
  simp only [AtOwner, hplace] at howner
  simp only [XpfThread.ownerStep, hplace]
  split
  · exact h.goTo hopen howner
  · exact h.goTo hopen howner
  · exact h.goTo hopen ⟨rfl, howner⟩
  · next hjoined => exact h.goTo hopen (h.joined hjoined)

theorem Kept.ownerStep (h : s.Kept) : s.ownerStep.Kept := by
  have howner := h.owner
  cases hplace : s.owner with
  | joining timeoutMs caller => exact h.joining hplace
  | unjoined timeoutMs caller => exact h.unjoined hplace
  | pthreadJoin caller => exact h.pthreadJoin hplace
  | destructing => exact h.destructing hplace
  | waiting caller =>
    simp only [XpfThread.ownerStep, hplace]
    exact h.finishWait hplace
  | starting =>
    simp only [XpfThread.ownerStep, hplace]
    exact ⟨h.joined, h.started, h.late, fun _ => h.rest_of hplace (by simp), trivial⟩
  | aborting =>
    simp only [AtOwner, hplace] at howner
    simp only [XpfThread.ownerStep, hplace]
    exact ⟨h.joined, h.started, h.late, fun _ => h.rest_of hplace (by simp), rfl, howner⟩
  | deleting =>
    simp only [AtOwner, hplace] at howner
    simp only [XpfThread.ownerStep, hplace]
    exact h.goTo (h.rest_of hplace (by simp)) howner
  | idle | returned | destroyed => simpa only [XpfThread.ownerStep, hplace] using h

theorem Free.rest (hfree : s.Free) (caller : Caller) : s.owner ≠ .waiting caller := by
  rcases hfree with hidle | ⟨result, hreturned⟩
  · simp [hidle]
  · simp [hreturned]

theorem Kept.step (h : s.Kept) {a : ThreadStep} (hadmits : s.Admits a) (ha : s.Careful a) (hstep : s.step a = .ok s') :
    s'.Kept := by
  cases a with
  | start =>
    obtain rfl := Except.ok.inj hstep
    split
    · next hfree =>
      have hearly : s.late = false := by
        refine Bool.eq_false_of_not_eq_true fun hlate => ?_
        cases (h.late hlate).1.symm.trans hadmits.2
      refine ⟨RunningStatus.noConfusion, fun _ => RunningStatus.noConfusion, fun hl => ?_, fun _ => h.rest hfree.rest,
        trivial⟩
      rw [hearly] at hl
      cases hl
    · exact h
  | requestAbort =>
    obtain rfl := Except.ok.inj hstep
    split
    · exact ⟨h.joined, h.started, h.late, h.rest, h.owner⟩
    · exact h
  | join timeoutMs =>
    obtain rfl := Except.ok.inj hstep
    split
    · next hfree =>
      have hlate : (s.isStarted && s.exec = .returned) = true → s.isStarted = true ∧ s.exec = .returned := by
        simp
      refine ⟨h.joined, h.started, hlate, fun _ => h.rest hfree.rest, fun hl => ?_⟩
      obtain ⟨hstarted, hexec⟩ := hlate hl
      by_cases hset : s.mFinishEvent.m_set = true
      · exact .inr (.inr hset)
      · exact (ha hstarted hexec (Bool.eq_false_of_not_eq_true hset)).imp_right .inl
    · exact h
  | destruct =>
    obtain rfl := Except.ok.inj hstep
    split
    · next hfree => exact h.goTo (h.rest hfree.rest) ha
    · exact h
  | owner =>
    simp only [XpfThread.step] at hstep
    split at hstep
    · cases hstep
    · obtain rfl := Except.ok.inj hstep
      exact h.ownerStep
  | exec => exact h.execStep hstep
  | expire =>
    obtain rfl := Except.ok.inj hstep
    exact h.finishMoves expire_open
  | spuriousFinish =>
    obtain rfl := Except.ok.inj hstep
    exact h.finishMoves spurious_open
  | spuriousStart =>
    simp only [XpfThread.step] at hstep
    split at hstep
    · cases hstep
    · obtain rfl := Except.ok.inj hstep
      exact ⟨h.joined, h.started, h.late, h.rest, h.owner⟩

section StartEvent

/-- Only `exec` is ever blocked in the start event. -/
def BlocksExec (s : XpfThread) : Prop :=
  s.mStartEvent.m_ready = [] ∨
    s.mStartEvent.m_ready = [()] ∧ s.exec = .waiting ∧ ∃ timed, s.mStartEvent.place () = .blocked timed

theorem blocksExec_create : create.BlocksExec := .inl rfl

theorem BlocksExec.frame (h : s.BlocksExec) (hevent : s'.mStartEvent = s.mStartEvent)
    (hexec : s.exec = .waiting → s'.exec = .waiting) : s'.BlocksExec := by
  rw [BlocksExec, hevent]
  exact h.imp_right (fun hblocked => ⟨hblocked.1, hexec hblocked.2.1, hblocked.2.2⟩)

theorem BlocksExec.ready_nil (h : s.BlocksExec) (hexec : s.exec ≠ .waiting) : s.mStartEvent.m_ready = [] :=
  h.resolve_right (fun hblocked => hexec hblocked.2.1)

/-- Only `start` does anything to the start event on the owner's side. -/
theorem ownerStep_start (s : XpfThread) :
    s.ownerStep.exec = s.exec ∧ (s.owner ≠ .starting → s.ownerStep.mStartEvent = s.mStartEvent) := by
  have hleave : ∀ (u : XpfThread) (caller : Caller) (result : Bool), u.exec = s.exec →
      u.mStartEvent = s.mStartEvent → (u.leaveJoin caller result).exec = s.exec ∧
        (s.owner ≠ .starting → (u.leaveJoin caller result).mStartEvent = s.mStartEvent) := by
    intro u caller result hexec hevent
    cases caller <;> exact ⟨hexec, fun _ => hevent⟩
  unfold ownerStep
  split
  · next hplace => exact ⟨rfl, fun hne => absurd hplace hne⟩
  · split
    · exact hleave _ _ _ rfl rfl
    · exact ⟨rfl, fun _ => rfl⟩
  · split
    · exact hleave _ _ _ rfl rfl
    · split <;> exact ⟨rfl, fun _ => rfl⟩
  · unfold XpfThread.finishWait
    split
    · exact ⟨rfl, fun _ => rfl⟩
    · exact ⟨rfl, fun _ => rfl⟩
    · exact ⟨rfl, fun _ => rfl⟩
    · split
      · exact ⟨rfl, fun _ => rfl⟩
      · exact hleave _ _ _ rfl rfl
    · exact ⟨rfl, fun _ => rfl⟩
    · exact ⟨rfl, fun _ => rfl⟩
  · split
    · exact hleave _ _ _ rfl rfl
    · exact ⟨rfl, fun _ => rfl⟩
  · split <;> exact ⟨rfl, fun _ => rfl⟩
  all_goals exact ⟨rfl, fun _ => rfl⟩

theorem BlocksExec.ownerStep (h : s.BlocksExec) : s.ownerStep.BlocksExec := by
  obtain ⟨hexec, hevent⟩ := ownerStep_start s
  by_cases hplace : s.owner = .starting
  · left
    simp only [XpfThread.ownerStep, hplace, XpfThreadEvent.set]
    -- The signal wakes `exec` if it is blocked.
    rcases h with hnil | ⟨hone, -, -⟩
    · simp [XpfThreadEvent.condSignal, hnil]
    · simp [XpfThreadEvent.condSignal, hone]
  · exact h.frame (hevent hplace) (fun hwaiting => hexec.trans hwaiting)

/-- `exec` blocks in the start event. -/
theorem blocksExec_block (hplace : s.exec = .waiting) (hready : s.mStartEvent.m_ready = []) (timed : Bool) :
    ({ s with mStartEvent := s.mStartEvent.block () timed } : XpfThread).BlocksExec := by
  have hblocked : (s.mStartEvent.block () timed).place () = .blocked timed := by
    simp [XpfThreadEvent.block, XpfThreadEvent.goTo]
  exact .inr ⟨by simp [XpfThreadEvent.block, hready], hplace, timed, hblocked⟩

theorem BlocksExec.startWait (h : s.BlocksExec) (hplace : s.exec = .waiting) : s.startWait.BlocksExec := by
  have hnil : (∀ timed, s.mStartEvent.place () ≠ .blocked timed) → s.mStartEvent.m_ready = [] :=
    fun hopen => h.resolve_right (fun hblocked => hblocked.2.2.elim hopen)
  unfold XpfThread.startWait
  cases hevent : s.mStartEvent.place () with
  | called timeoutMs =>
    have hready := hnil (by simp [hevent])
    simp only [XpfThreadEvent.test, hevent]
    split
    · exact .inl hready
    · split
      · exact blocksExec_block hplace hready false
      · exact .inl hready
  | unset =>
    have hready := hnil (by simp [hevent])
    simp only [XpfThreadEvent.timedWait, hevent]
    exact blocksExec_block hplace hready true
  | woken =>
    have hready := hnil (by simp [hevent])
    simp only [XpfThreadEvent.wake, hevent]
    exact .inl hready
  | returned result => exact .inl (hnil (by simp [hevent]))
  | outside => exact h
  | blocked timed => exact h

theorem BlocksExec.execStep (h : s.BlocksExec) (hstep : s.execStep = .ok s') : s'.BlocksExec := by
  unfold XpfThread.execStep at hstep
  split at hstep
  · exact Except.ok.inj hstep ▸ h
  split at hstep
  · cases hstep
  split at hstep
  · next hplace =>
    obtain rfl := Except.ok.inj hstep
    have hready := h.ready_nil (by simp [hplace])
    left
    change (s.mStartEvent.wait () infinite).m_ready = []
    unfold XpfThreadEvent.wait
    split <;> exact hready
  · next hplace => exact Except.ok.inj hstep ▸ h.startWait hplace
  all_goals
    next hplace =>
      obtain rfl := Except.ok.inj hstep
      exact h.frame rfl (fun hwaiting => by cases hplace.symm.trans hwaiting)

theorem BlocksExec.step (h : s.BlocksExec) {a : ThreadStep} (hstep : s.step a = .ok s') : s'.BlocksExec := by
  cases a with
  | owner =>
    simp only [XpfThread.step] at hstep
    split at hstep
    · cases hstep
    · exact Except.ok.inj hstep ▸ h.ownerStep
  | exec => exact h.execStep hstep
  | spuriousStart =>
    simp only [XpfThread.step] at hstep
    split at hstep
    · cases hstep
    obtain rfl := Except.ok.inj hstep
    rcases h with hnil | ⟨hone, -, timed, hblocked⟩
    · left
      unfold XpfThreadEvent.spurious
      split
      · simp [XpfThreadEvent.unblock, hnil]
      · exact hnil
    · left
      simp [XpfThreadEvent.spurious, hblocked, XpfThreadEvent.unblock, hone]
  | expire => exact Except.ok.inj hstep ▸ h.frame rfl id
  | spuriousFinish => exact Except.ok.inj hstep ▸ h.frame rfl id
  | start | requestAbort | join | destruct =>
    obtain rfl := Except.ok.inj hstep
    split
    · exact h.frame rfl id
    · exact h

end StartEvent

/-- No step of such a run finds the thread gone, or deletes an event under it. -/
theorem Kept.step_ok (h : s.Kept) (hblocks : s.BlocksExec) (a : ThreadStep) : ∃ s', s.step a = .ok s' := by
  have hexec : s.owner = .destroyed → s.exec = .returned := h.sound.deleted
  cases a with
  | owner =>
    refine ⟨_, if_neg ?_⟩
    rintro ⟨hdeleting, hready⟩
    have hreturned := h.owner
    rw [AtOwner, hdeleting] at hreturned
    exact hready (hblocks.ready_nil (by simp [hreturned]))
  | exec =>
    unfold XpfThread.step XpfThread.execStep
    by_cases hreturned : s.exec = .returned
    · exact ⟨s, if_pos hreturned⟩
    · rw [if_neg hreturned, if_neg (fun hdestroyed => hreturned (hexec hdestroyed))]
      cases s.exec <;> exact ⟨_, rfl⟩
  | spuriousStart => exact ⟨_, if_neg (fun hgone => hgone.2 (hexec hgone.1))⟩
  | start | requestAbort | join | destruct | expire | spuriousFinish => exact ⟨_, rfl⟩

end Invariant

/-- In a run of careful calls the events outlive `exec`, and every call of `join`
that comes after its return joins the thread. -/
theorem sound_of_careful {steps : List ThreadStep} (hadmits : Along step Admits create steps)
    (hcareful : Along step Careful create steps) : Throughout step Sound create steps := by
  have hkept : Throughout step (fun s => s.Kept ∧ s.BlocksExec) create steps :=
    throughout_of_invariant
      (fun s a h ha => by
        obtain ⟨s', hstep⟩ := h.1.step_ok h.2 a
        exact ⟨s', hstep, h.1.step ha.1 ha.2 hstep, h.2.step hstep⟩)
      ⟨kept_create, blocksExec_create⟩ (hadmits.and hcareful)
  exact hkept.mono fun _ h => h.1.sound

/-- The thread is aborted before it gets to its test, joined with no timeout, and
destroyed. -/
def abortedJoinRun : List ThreadStep :=
  [.requestAbort, .start, .owner, .exec, .exec, .exec, .exec, .join infinite, .owner, .owner, .owner, .join 0, .owner,
    .destruct, .owner, .owner]

theorem sound_of_careful_abortedJoinRun : Throughout step Sound create abortedJoinRun :=
  sound_of_careful (by decide) (by decide)

/-- A thread that is destroyed without having been started, when `exec` has called its wait. -/
def unstartedRun : List ThreadStep := [.exec, .destruct, .owner, .owner, .owner, .owner, .owner]

/-- The thread is aborted before it gets to its test, and joined with a timeout. -/
def abortedTimedJoinRun : List ThreadStep :=
  [.requestAbort, .start, .owner, .exec, .exec, .exec, .exec, .join 1000, .owner, .owner, .owner, .owner, .expire,
    .owner]

theorem not_sound :
    (Along step Admits create unstartedRun ∧ ¬ Throughout step Sound create unstartedRun ∧
      Returns (final step create unstartedRun) fun s => s.owner = .destroyed ∧ s.exec = .waiting) ∧
      Along step Admits create abortedTimedJoinRun ∧ ¬ Throughout step Sound create abortedTimedJoinRun ∧
        Returns (final step create abortedTimedJoinRun) fun s =>
          s.late = true ∧ s.exec = .returned ∧ s.owner = .returned false := by
  have hdestroyed : Returns (final step create unstartedRun) fun s => s.owner = .destroyed ∧ s.exec = .waiting := by
    decide
  have hfails : Returns (final step create abortedTimedJoinRun) fun s =>
      s.late = true ∧ s.exec = .returned ∧ s.owner = .returned false := by decide
  refine ⟨⟨by decide, fun hthrough => ?_, hdestroyed⟩, by decide, fun hthrough => ?_, hfails⟩
  · obtain ⟨s, hs, howner, hexec⟩ := hdestroyed
    obtain ⟨s', hs', hsound⟩ := hthrough.final
    obtain rfl := Except.ok.inj (hs.symm.trans hs')
    cases hexec.symm.trans (hsound.deleted howner)
  · obtain ⟨s, hs, hlate, _, howner⟩ := hfails
    obtain ⟨s', hs', hsound⟩ := hthrough.final
    obtain rfl := Except.ok.inj (hs.symm.trans hs')
    cases (hsound.joined hlate false howner).1

end XpfThread
end LibXpf.Threading
