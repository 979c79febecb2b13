import LibXpf.Foundation.GuardedRuns
import LibXpf.Platform
import Mathlib.Logic.Function.Basic

/-! # `XpfThreadLock`

A recursive mutex, and beside it the id of its owner, which the methods write when they
have the mutex and after they have given it back. These writes are steps of their own,
and the last one comes too late: the mutex may still be held, or be held again. POSIX
and Windows have the same code.
-/
namespace LibXpf.Threading
open GuardedRuns

/-- The recursive mutex of the platform, held with so many `further` locks on the first. -/
inductive RecursiveMutex (T : Type) where
  | free
  | held (t : T) (further : ℕ)

namespace RecursiveMutex
variable {T : Type} [DecidableEq T] {m m' : RecursiveMutex T} {t : T}

def holder : RecursiveMutex T → Option T
  | .free => none
  | .held t _ => some t

/-- A thread takes a mutex that is free or its own. -/
def acquire (m : RecursiveMutex T) (t : T) : Option (RecursiveMutex T) :=
  match m with
  | .free => some (.held t 0)
  | .held u further => if u = t then some (.held t (further + 1)) else none

def release (m : RecursiveMutex T) (t : T) : Option (RecursiveMutex T) :=
  match m with
  | .held u 0 => if u = t then some .free else none
  | .held u (further + 1) => if u = t then some (.held t further) else none
  | .free => none

theorem holder_acquire (h : m.acquire t = some m') :
    m'.holder = some t ∧ (m.holder = none ∨ m.holder = some t) := by
  unfold acquire at h
  split at h
  · cases h
    exact ⟨rfl, Or.inl rfl⟩
  · split at h
    next heq =>
      cases h
      exact ⟨rfl, Or.inr (congrArg some heq)⟩
    next => cases h

theorem holder_release (h : m.release t = some m') :
    m.holder = some t ∧ (m'.holder = none ∨ m'.holder = some t) := by
  unfold release at h
  split at h
  · split at h
    next heq =>
      cases h
      exact ⟨congrArg some heq, Or.inl rfl⟩
    next => cases h
  · split at h
    next heq =>
      cases h
      exact ⟨congrArg some heq, Or.inr rfl⟩
    next => cases h
  · cases h

end RecursiveMutex

/-- Where a thread is in a call. -/
inductive LockPlace where
  | outside
  /-- In `lock` or `tryLock`, with the mutex and before the write of its id. -/
  | acquired
  /-- In `unlock`, before the write of `INVALID_THREAD_ID`. -/
  | released
  deriving DecidableEq

/-- In place of `INVALID_THREAD_ID` there is no owner. -/
structure XpfThreadLock (T : Type) where
  mOwner : Option T
  mMutex : RecursiveMutex T
  place : T → LockPlace

namespace XpfThreadLock
variable {T : Type} [DecidableEq T]

def create : XpfThreadLock T where
  mOwner := none
  mMutex := .free
  place := fun _ => .outside

def isLocked (s : XpfThreadLock T) : Bool := s.mOwner ≠ none

def getOwner (s : XpfThreadLock T) : Option T := s.mOwner

/-- The mutex operation of `tryLock`, with whether it has got the mutex. -/
def tryLock (s : XpfThreadLock T) (t : T) : Bool × XpfThreadLock T :=
  match s.place t, s.mMutex.acquire t with
  | .outside, some m => (true, { s with mMutex := m, place := Function.update s.place t .acquired })
  | _, _ => (false, s)

/-- The mutex operation of `lock`, which waits where that of `tryLock` fails. -/
def lock (s : XpfThreadLock T) (t : T) : XpfThreadLock T := (s.tryLock t).2

/-- The write of the id behind the mutex operation. -/
def writeOwner (s : XpfThreadLock T) (t : T) : XpfThreadLock T :=
  if s.place t = .acquired then
    { s with mOwner := some t, place := Function.update s.place t .outside }
  else s

/-- The mutex operation of `unlock`. -/
def unlock (s : XpfThreadLock T) (t : T) : XpfThreadLock T :=
  match s.place t, s.mMutex.release t with
  | .outside, some m => { s with mMutex := m, place := Function.update s.place t .released }
  | _, _ => s

def writeInvalid (s : XpfThreadLock T) (t : T) : XpfThreadLock T :=
  if s.place t = .released then
    { s with mOwner := none, place := Function.update s.place t .outside }
  else s

end XpfThreadLock

/-- The steps of the threads; one that its thread is not at changes nothing. -/
inductive LockStep (T : Type) where
  | lock (t : T)
  | tryLock (t : T)
  | writeOwner (t : T)
  | unlock (t : T)
  | writeInvalid (t : T)

def LockStep.thread {T : Type} : LockStep T → T
  | .lock t | .tryLock t | .writeOwner t | .unlock t | .writeInvalid t => t

/-- The step ends a call. -/
def LockStep.Finishes {T : Type} : LockStep T → Prop
  | .writeOwner _ | .writeInvalid _ => True
  | .lock _ | .tryLock _ | .unlock _ => False

namespace XpfThreadLock
variable {T : Type} [DecidableEq T]

def step (s : XpfThreadLock T) : LockStep T → Except Fault (XpfThreadLock T)
  | .lock t => .ok (s.lock t)
  | .tryLock t => .ok (s.tryLock t).2
  | .writeOwner t => .ok (s.writeOwner t)
  | .unlock t => .ok (s.unlock t)
  | .writeInvalid t => .ok (s.writeInvalid t)

/-- No call is in progress. -/
def Quiescent (s : XpfThreadLock T) : Prop := ∀ t, s.place t = .outside

/-- The lock is locked exactly if a thread holds the mutex, and that thread is its owner. -/
def Accurate (s : XpfThreadLock T) : Prop :=
  (s.isLocked = true ↔ ∃ t, s.mMutex.holder = some t) ∧ ∀ t, s.mMutex.holder = some t → s.getOwner = some t

/-- `INVALID_THREAD_ID` is written while the mutex is free, or before its holder writes its id. -/
def Careful (s : XpfThreadLock T) : LockStep T → Prop
  | .writeInvalid t => s.place t = .released → ∀ u ∈ s.mMutex.holder, s.place u = .acquired
  | _ => True

instance (s : XpfThreadLock T) (l : LockStep T) : Decidable (s.Careful l) :=
  match l with
  | .writeInvalid t =>
    inferInstanceAs (Decidable (s.place t = .released → ∀ u ∈ s.mMutex.holder, s.place u = .acquired))
  | .lock _ | .tryLock _ | .writeOwner _ | .unlock _ => isTrue trivial

section Invariant
variable {T : Type} {s : XpfThreadLock T}

theorem accurate_iff : s.Accurate ↔ s.mOwner = s.mMutex.holder := by
  unfold Accurate isLocked getOwner
  cases hholder : s.mMutex.holder with
  | none => cases s.mOwner <;> simp
  | some u => cases s.mOwner <;> simp

/-- What careful steps keep: the owner is that of the mutex, but for the calls in progress. -/
structure Tracked (s : XpfThreadLock T) : Prop where
  owner : ∀ t, s.mMutex.holder = some t → s.place t ≠ .acquired → s.mOwner = some t
  free : s.mMutex.holder = none → s.mOwner = none ∨ ∃ t, s.place t = .released
  acquired : ∀ t, s.place t = .acquired → s.mMutex.holder = some t

theorem tracked_create : (create : XpfThreadLock T).Tracked where
  owner := fun t h => by cases h
  free := fun _ => Or.inl rfl
  acquired := fun t h => by cases h

theorem Tracked.accurate (h : s.Tracked) (hquiescent : s.Quiescent) : s.Accurate := by
  rw [accurate_iff]
  cases hholder : s.mMutex.holder with
  | none =>
    rcases h.free hholder with hnone | ⟨t, ht⟩
    · exact hnone
    · rw [hquiescent t] at ht
      cases ht
  | some t =>
    apply h.owner t hholder
    rw [hquiescent t]
    exact LockPlace.noConfusion

/-- The lock has a holder and no owner, and nobody is about to write one. -/
structure Disowned (s : XpfThreadLock T) (u : T) : Prop where
  holder : s.mMutex.holder = some u
  owner : s.mOwner = none
  places : ∀ t, s.place t ≠ .acquired

theorem Disowned.not_accurate {u : T} (h : s.Disowned u) : ¬ s.Accurate := by
  rw [accurate_iff, h.holder, h.owner]
  rintro ⟨⟩

end Invariant

section Moves
variable {s s' : XpfThreadLock T} {l : LockStep T} {t : T}

/-- What the steps of a thread can do. -/
inductive Move (s : XpfThreadLock T) : LockStep T → XpfThreadLock T → Prop
  | idle (l : LockStep T) : Move s l s
  | acquire (l : LockStep T) (t : T) (m : RecursiveMutex T) (hthread : l.thread = t) (hplace : s.place t = .outside)
      (holder : m.holder = some t) (hbefore : s.mMutex.holder = none ∨ s.mMutex.holder = some t) :
      Move s l { s with mMutex := m, place := Function.update s.place t .acquired }
  | own (t : T) (hplace : s.place t = .acquired) :
      Move s (.writeOwner t) { s with mOwner := some t, place := Function.update s.place t .outside }
  | release (t : T) (m : RecursiveMutex T) (hplace : s.place t = .outside) (hbefore : s.mMutex.holder = some t)
      (holder : m.holder = none ∨ m.holder = some t) :
      Move s (.unlock t) { s with mMutex := m, place := Function.update s.place t .released }
  | disown (t : T) (hplace : s.place t = .released) :
      Move s (.writeInvalid t) { s with mOwner := none, place := Function.update s.place t .outside }

theorem move_of_tryLock (h : l.thread = t) : Move s l (s.tryLock t).2 := by
  unfold tryLock
  split
  next m hplace hacquire =>
    obtain ⟨hholder, hbefore⟩ := RecursiveMutex.holder_acquire hacquire
    exact .acquire l t m h hplace hholder hbefore
  next => exact .idle l

theorem move_of_step (h : s.step l = .ok s') : Move s l s' := by
  cases l with
  | lock t =>
    obtain rfl := Except.ok.inj h
    exact move_of_tryLock rfl
  | tryLock t =>
    obtain rfl := Except.ok.inj h
    exact move_of_tryLock rfl
  | writeOwner t =>
    obtain rfl := Except.ok.inj h
    unfold writeOwner
    split
    next hplace => exact .own t hplace
    next => exact .idle _
  | unlock t =>
    obtain rfl := Except.ok.inj h
    unfold unlock
    split
    next m hplace hrelease =>
      obtain ⟨hbefore, hholder⟩ := RecursiveMutex.holder_release hrelease
      exact .release t m hplace hbefore hholder
    next => exact .idle _
  | writeInvalid t =>
    obtain rfl := Except.ok.inj h
    unfold writeInvalid
    split
    next hplace => exact .disown t hplace
    next => exact .idle _

theorem place_of_move (h : Move s l s') {u : T} (hu : u ≠ l.thread) : s'.place u = s.place u := by
  cases h with
  | idle => rfl
  | acquire _ t m hthread => exact Function.update_of_ne (hthread ▸ hu) ..
  | own => exact Function.update_of_ne hu ..
  | release => exact Function.update_of_ne hu ..
  | disown => exact Function.update_of_ne hu ..

/-- Behind a write at `t` that is not to `acquired`, only others are there, as they were before. -/
theorem Tracked.acquired_update (h : s.Tracked) {p : LockPlace} (hp : p ≠ .acquired) {u : T}
    (hu : Function.update s.place t p u = .acquired) : u ≠ t ∧ s.mMutex.holder = some u := by
  by_cases hut : u = t
  · subst hut
    exact absurd ((Function.update_self ..).symm.trans hu) hp
  · exact ⟨hut, h.acquired u ((Function.update_of_ne hut ..).symm.trans hu)⟩

theorem Tracked.acquire (h : s.Tracked) {m : RecursiveMutex T} (hholder : m.holder = some t)
    (hbefore : s.mMutex.holder = none ∨ s.mMutex.holder = some t) :
    Tracked { s with mMutex := m, place := Function.update s.place t .acquired } := by
  constructor
  · intro u hu hnot
    obtain rfl : t = u := Option.some.inj (hholder.symm.trans hu)
    exact absurd (Function.update_self ..) hnot
  · intro hnone
    cases hholder.symm.trans hnone
  · intro u hu
    by_cases hut : u = t
    · exact hut ▸ hholder
    · have hu' := h.acquired u ((Function.update_of_ne hut ..).symm.trans hu)
      rcases hbefore with hfree | hown
      · cases hfree.symm.trans hu'
      · exact absurd (Option.some.inj (hu'.symm.trans hown)) hut

theorem Tracked.own (h : s.Tracked) (hplace : s.place t = .acquired) :
    Tracked { s with mOwner := some t, place := Function.update s.place t .outside } := by
  have hholder := h.acquired t hplace
  constructor
  · intro u hu _
    exact hholder.symm.trans hu
  · intro hnone
    cases hholder.symm.trans hnone
  · intro u hu
    exact (h.acquired_update LockPlace.noConfusion hu).2

theorem Tracked.release (h : s.Tracked) {m : RecursiveMutex T} (hplace : s.place t = .outside)
    (hbefore : s.mMutex.holder = some t) (hholder : m.holder = none ∨ m.holder = some t) :
    Tracked { s with mMutex := m, place := Function.update s.place t .released } := by
  have howner : s.mOwner = some t := h.owner t hbefore (by rw [hplace]; exact LockPlace.noConfusion)
  constructor
  · intro u hu _
    rcases hholder with hfree | hown
    · cases hfree.symm.trans hu
    · exact howner.trans (hown.symm.trans hu)
  · exact fun _ => Or.inr ⟨t, Function.update_self ..⟩
  · intro u hu
    obtain ⟨hut, hu'⟩ := h.acquired_update LockPlace.noConfusion hu
    exact absurd (Option.some.inj (hu'.symm.trans hbefore)) hut

/-- The write of `INVALID_THREAD_ID` needs that a holder has yet to write its own id. -/
theorem Tracked.disown (h : s.Tracked) (hplace : s.place t = .released)
    (hcareful : ∀ u ∈ s.mMutex.holder, s.place u = .acquired) :
    Tracked { s with mOwner := none, place := Function.update s.place t .outside } := by
  constructor
  · intro u hu hnot
    have hacquired := hcareful u hu
    have hut : u ≠ t := by
      rintro rfl
      cases hplace.symm.trans hacquired
    exact absurd ((Function.update_of_ne hut ..).trans hacquired) hnot
  · exact fun _ => Or.inl rfl
  · intro u hu
    exact (h.acquired_update LockPlace.noConfusion hu).2

theorem Tracked.move (h : s.Tracked) (hmove : Move s l s') (hl : s.Careful l) : s'.Tracked := by
  cases hmove with
  | idle => exact h
  | acquire _ t m _ _ hholder hbefore => exact h.acquire hholder hbefore
  | own t hplace => exact h.own hplace
  | release t m hplace hbefore hholder => exact h.release hplace hbefore hholder
  | disown t hplace => exact h.disown hplace (hl hplace)

end Moves

section Finishing
variable {s s' : XpfThreadLock T} {u : T}

theorem update_ne_acquired {place : T → LockPlace} {t v : T} (h : v ≠ t → place v ≠ .acquired) :
    Function.update place t .outside v ≠ .acquired := by
  by_cases hv : v = t
  · subst hv
    rw [Function.update_self]
    exact LockPlace.noConfusion
  · rw [Function.update_of_ne hv]
    exact h hv

theorem Disowned.writeInvalid (h : s.Disowned u) (t : T) :
    (s.writeInvalid t).Disowned u ∧ (s.writeInvalid t).place t = .outside := by
  unfold XpfThreadLock.writeInvalid
  split
  next => exact ⟨⟨h.holder, rfl, fun v => update_ne_acquired fun _ => h.places v⟩, Function.update_self ..⟩
  next hplace =>
    refine ⟨h, ?_⟩
    cases hs : s.place t with
    | outside => rfl
    | acquired => exact absurd hs (h.places t)
    | released => exact absurd hs hplace

/-- The calls that are still in progress are those of `unlock`, and they change no more. -/
theorem Disowned.finish {ts : List T} (h : s.Disowned u) (hbusy : ∀ t, s.place t ≠ .outside → t ∈ ts) :
    ∃ s', final step s (ts.map .writeInvalid) = .ok s' ∧ s'.Disowned u ∧ s'.Quiescent := by
  induction ts generalizing s with
  | nil =>
    refine ⟨s, rfl, h, ?_⟩
    intro t
    by_contra hplace
    cases hbusy t hplace
  | cons t ts ih =>
    obtain ⟨hdisowned, houtside⟩ := h.writeInvalid t
    obtain ⟨s', hfinal, hrest⟩ := ih hdisowned (by
      intro v hv
      by_cases hvt : v = t
      · subst hvt
        exact absurd houtside hv
      · have hmove := move_of_step (s := s) (l := .writeInvalid t) rfl
        rw [place_of_move hmove hvt] at hv
        exact (List.mem_cons.mp (hbusy v hv)).resolve_left hvt)
    exact ⟨s', hfinal, hrest⟩

/-- A write of `INVALID_THREAD_ID` that comes too late takes the owner from a holder. -/
theorem Tracked.disowned (h : s.Tracked) {l : LockStep T} (hl : ¬ s.Careful l) (hstep : s.step l = .ok s') :
    ∃ u, s'.Disowned u := by
  cases l with
  | writeInvalid t =>
    obtain ⟨hplace, u, hu, hnot⟩ : s.place t = .released ∧ ∃ u ∈ s.mMutex.holder, s.place u ≠ .acquired := by
      simpa only [Careful, not_forall, exists_prop] using hl
    obtain rfl := Except.ok.inj hstep
    have heq : s.writeInvalid t = { s with mOwner := none, place := Function.update s.place t .outside } :=
      if_pos hplace
    rw [heq]
    -- only the holder could be about to write its id
    refine ⟨u, hu, rfl, fun v => update_ne_acquired fun _ hacquired => hnot ?_⟩
    obtain rfl : v = u := Option.some.inj ((h.acquired v hacquired).symm.trans hu)
    exact hacquired
  | lock t => exact absurd trivial hl
  | tryLock t => exact absurd trivial hl
  | writeOwner t => exact absurd trivial hl
  | unlock t => exact absurd trivial hl

end Finishing

section Runs
variable {s : XpfThreadLock T} {labels : List (LockStep T)}

theorem step_total (s : XpfThreadLock T) (l : LockStep T) : ∃ s', s.step l = .ok s' := by
  cases l <;> exact ⟨_, rfl⟩

theorem busy_of_final {s₀ : XpfThreadLock T} (h : final step s₀ labels = .ok s) {t : T}
    (hbusy : s.place t ≠ .outside) : s₀.place t ≠ .outside ∨ t ∈ labels.map LockStep.thread := by
  induction labels generalizing s₀ with
  | nil =>
    obtain rfl := Except.ok.inj h
    exact Or.inl hbusy
  | cons l rest ih =>
    obtain ⟨s₁, hstep⟩ := step_total s₀ l
    rw [final_cons hstep] at h
    by_cases ht : t = l.thread
    · exact Or.inr (List.mem_cons.mpr (Or.inl ht))
    · rw [← place_of_move (move_of_step hstep) ht]
      exact (ih h).imp_right (List.mem_cons_of_mem _)

theorem tracked_final (h : Along step Careful create labels) (hfinal : final step create labels = .ok s) :
    s.Tracked :=
  final_of_preserved (fun _ _ _ hs hl hstep => hs.move (move_of_step hstep) hl) tracked_create h hfinal

/-- What the lock should be whenever no call is in progress. -/
def TellsOwner (s : XpfThreadLock T) : Prop := s.Quiescent → s.Accurate

/-- The lock is accurate in all of a careful run, and any other step spoils it: once the calls in
progress are finished, the mutex has a holder that is not the owner. -/
theorem tellsOwner_of_careful (labels : List (LockStep T)) :
    (Along step Careful create labels → Throughout step TellsOwner create labels) ∧
    ∀ (l : LockStep T) (s : XpfThreadLock T), Along step Careful create labels →
      final step create labels = .ok s → ¬ s.Careful l →
      ∃ finishing : List (LockStep T), (∀ f ∈ finishing, f.Finishes) ∧
        ¬ Throughout step TellsOwner create (labels ++ l :: finishing) := by
  constructor
  · intro hcareful
    have hkeeps : ∀ (s : XpfThreadLock T) l, s.Tracked → s.Careful l → ∃ s', s.step l = .ok s' ∧ s'.Tracked := by
      intro s l hs hl
      obtain ⟨s', hstep⟩ := step_total s l
      exact ⟨s', hstep, hs.move (move_of_step hstep) hl⟩
    exact (throughout_of_invariant hkeeps tracked_create hcareful).mono fun s hs => hs.accurate
  · intro l s hcareful hfinal hl
    obtain ⟨s₁, hstep⟩ := step_total s l
    obtain ⟨u, hdisowned⟩ := (tracked_final hcareful hfinal).disowned hl hstep
    have hbusy : ∀ t, s₁.place t ≠ .outside → t ∈ (labels ++ [l]).map LockStep.thread := by
      intro t ht
      have hrun : final step create (labels ++ [l]) = .ok s₁ := by
        rw [final_append hfinal, final_cons hstep]
        rfl
      exact (busy_of_final hrun ht).resolve_left fun hcreate => hcreate rfl
    obtain ⟨s₂, hfinish, hlast, hquiescent⟩ := hdisowned.finish hbusy
    refine ⟨((labels ++ [l]).map LockStep.thread).map .writeInvalid, ?_, ?_⟩
    · intro f hf
      obtain ⟨t, -, rfl⟩ := List.mem_map.mp hf
      exact trivial
    · intro htells
      obtain ⟨s₃, hs₃, htells₃⟩ := htells.final
      rw [final_append hfinal, final_cons hstep, hfinish] at hs₃
      obtain rfl := Except.ok.inj hs₃
      exact hlast.not_accurate (htells₃ hquiescent)

theorem tellsOwner_of_careful_handover :
    Throughout step TellsOwner create [LockStep.lock true, .writeOwner true, .unlock true, .tryLock false,
      .writeInvalid true, .writeOwner false] :=
  (tellsOwner_of_careful _).1 (by decide)

/-- One thread that locks twice and unlocks once. -/
theorem not_tellsOwner : ¬ ∀ (T : Type) [DecidableEq T] (labels : List (LockStep T)), Throughout step TellsOwner create labels := by
  intro h
  obtain ⟨s, hs, htells⟩ := (h Unit [.lock (), .writeOwner (), .lock (), .writeOwner (), .unlock (),
    .writeInvalid ()]).final
  obtain rfl := Except.ok.inj hs
  have haccurate := accurate_iff.mp (htells fun _ => rfl)
  cases haccurate

end Runs
end XpfThreadLock
end LibXpf.Threading
