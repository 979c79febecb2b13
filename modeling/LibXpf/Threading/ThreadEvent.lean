import LibXpf.Platform
import LibXpf.Foundation.GuardedRuns
import Mathlib.Logic.Function.Basic
import Mathlib.Data.List.Nodup

/-! # `XpfThreadEvent` on POSIX

An event is a flag behind a mutex, with a condition variable for the threads
that wait for it. Each section that holds the mutex is one step, and so is the
test of the flag that the timed wait makes without it. The event should be a
manual-reset one: while it is set nobody is held up, and a wait that reports the
event has had it set at some point of the call.
-/
namespace LibXpf.Threading
open GuardedRuns

/-- Where a thread is in `wait`. -/
inductive Place where
  | outside
  | called (timeoutMs : ℕ)
  /-- The test without the mutex has found the event unset. -/
  | unset
  /-- Blocked in the condition variable. -/
  | blocked (timed : Bool)
  /-- Unblocked by a signal, and to return from the condition variable. -/
  | woken
  | returned (result : Bool)
  deriving DecidableEq

/-- `m_ready` holds the threads that are blocked in the condition variable
without a pending wakeup. `seen` is not part of the program: it says whether the
event has been set since the thread called `wait`. -/
structure XpfThreadEvent (T : Type) where
  m_set : Bool
  m_ready : List T
  place : T → Place
  seen : T → Bool

/-- The timeout `-1`, as the unsigned parameter has it. -/
def infinite : ℕ := 0xFFFFFFFF

namespace XpfThreadEvent
variable {T : Type} [DecidableEq T]

def create (set : Bool) : XpfThreadEvent T where
  m_set := set
  m_ready := []
  place := fun _ => .outside
  seen := fun _ => false

def goTo (e : XpfThreadEvent T) (t : T) (p : Place) : XpfThreadEvent T :=
  { e with place := Function.update e.place t p }

/-- A signal unblocks one of the blocked threads, if there is one; `choice` is
the scheduler's. -/
def condSignal (e : XpfThreadEvent T) (choice : ℕ) : XpfThreadEvent T :=
  match e.m_ready[choice % e.m_ready.length]? with
  | some t => { e.goTo t .woken with m_ready := e.m_ready.erase t }
  | none => e

def set (e : XpfThreadEvent T) (choice : ℕ) : XpfThreadEvent T :=
  { e with
    m_set := true
    seen := fun _ => true }.condSignal choice

/-- The condition variable is made anew. It must not be destroyed while threads
are blocked in it. -/
def reset (e : XpfThreadEvent T) : Except Fault (XpfThreadEvent T) :=
  if e.m_ready = [] then .ok { e with m_set := false } else .error .useAfterFree

def block (e : XpfThreadEvent T) (t : T) (timed : Bool) : XpfThreadEvent T :=
  { e.goTo t (.blocked timed) with m_ready := e.m_ready ++ [t] }

/-- A blocked thread returns from the condition variable. -/
def unblock (e : XpfThreadEvent T) (t : T) (result : Bool) : XpfThreadEvent T :=
  { e.goTo t (.returned result) with m_ready := e.m_ready.erase t }

/-- The call of `wait`, before it has looked at anything. -/
def wait (e : XpfThreadEvent T) (t : T) (timeoutMs : ℕ) : XpfThreadEvent T :=
  match e.place t with
  | .outside | .returned _ => { e.goTo t (.called timeoutMs) with seen := Function.update e.seen t e.m_set }
  | _ => e

/-- Without a timeout the test and the blocking are one section; else only the
test is made. -/
def test (e : XpfThreadEvent T) (t : T) : XpfThreadEvent T :=
  match e.place t with
  | .called timeoutMs =>
    if e.m_set then e.goTo t (.returned true)
    else if timeoutMs = infinite then e.block t false
    else e.goTo t .unset
  | _ => e

/-- The section of the timed wait, which blocks without a second test. -/
def timedWait (e : XpfThreadEvent T) (t : T) : XpfThreadEvent T :=
  match e.place t with
  | .unset => e.block t true
  | _ => e

/-- A woken thread takes the mutex back and returns. -/
def wake (e : XpfThreadEvent T) (t : T) : XpfThreadEvent T :=
  match e.place t with
  | .woken => e.goTo t (.returned true)
  | _ => e

def expire (e : XpfThreadEvent T) (t : T) : XpfThreadEvent T :=
  match e.place t with
  | .blocked true => e.unblock t false
  | _ => e

/-- A condition variable may return with no signal. -/
def spurious (e : XpfThreadEvent T) (t : T) : XpfThreadEvent T :=
  match e.place t with
  | .blocked _ => e.unblock t true
  | _ => e

end XpfThreadEvent

/-- The steps of the threads; one that its thread is not at changes nothing. -/
inductive EventStep (T : Type) where
  | set (choice : ℕ)
  | reset
  | wait (t : T) (timeoutMs : ℕ)
  | test (t : T)
  | timedWait (t : T)
  | wake (t : T)
  | expire (t : T)
  | spurious (t : T)

namespace XpfThreadEvent
variable {T : Type} [DecidableEq T]

def step (e : XpfThreadEvent T) : EventStep T → Except Fault (XpfThreadEvent T)
  | .set choice => .ok (e.set choice)
  | .reset => e.reset
  | .wait t timeoutMs => .ok (e.wait t timeoutMs)
  | .test t => .ok (e.test t)
  | .timedWait t => .ok (e.timedWait t)
  | .wake t => .ok (e.wake t)
  | .expire t => .ok (e.expire t)
  | .spurious t => .ok (e.spurious t)

/-- A manual-reset event: nobody is held up while it is set, and only a call
that has had it set returns `true`. -/
structure ManualReset (e : XpfThreadEvent T) : Prop where
  passes : e.m_set = true → ∀ t timed, e.place t ≠ .blocked timed
  reports : ∀ t, e.place t = .returned true → e.seen t = true

/-- The steps that keep the event a manual-reset one: one thread at most is
blocked when the event gets set, the timed wait takes the mutex before that, the
event is not reset under a blocked thread, and nothing but a signal wakes a
thread that has not had the event set. -/
def Careful (e : XpfThreadEvent T) : EventStep T → Prop
  | .set _ => e.m_ready.length ≤ 1
  | .reset => e.m_ready = []
  | .timedWait t => e.place t = .unset → e.m_set = false
  | .spurious t => t ∈ e.m_ready → e.seen t = true
  | _ => True

end XpfThreadEvent

/-- The thread has called `wait` and not returned. -/
def Place.InCall : Place → Prop
  | .outside | .returned _ => False
  | _ => True

namespace XpfThreadEvent
section Invariant
variable {T : Type} {e : XpfThreadEvent T}

/-- What careful steps keep. -/
structure Orderly (e : XpfThreadEvent T) : Prop where
  nodup : e.m_ready.Nodup
  ready : ∀ t, t ∈ e.m_ready ↔ ∃ timed, e.place t = .blocked timed
  idle : e.m_set = true → e.m_ready = []
  current : e.m_set = true → ∀ t, (e.place t).InCall → e.seen t = true
  woken : ∀ t, e.place t = .woken → e.seen t = true
  reports : ∀ t, e.place t = .returned true → e.seen t = true

theorem Orderly.manualReset (h : e.Orderly) : e.ManualReset := by
  refine ⟨fun hset t timed hblocked => ?_, h.reports⟩
  have hmem : t ∈ e.m_ready := (h.ready t).mpr ⟨timed, hblocked⟩
  rw [h.idle hset] at hmem
  cases hmem

theorem orderly_create (set : Bool) : (create set : XpfThreadEvent T).Orderly := by
  constructor
  · exact List.nodup_nil
  · intro t
    constructor
    · intro hmem
      cases hmem
    · rintro ⟨_, hplace⟩
      cases hplace
  · exact fun _ => rfl
  · exact fun _ t hcall => hcall.elim
  · intro t hplace
    cases hplace
  · intro t hplace
    cases hplace

theorem Orderly.seeAll (h : e.Orderly) : ({ e with seen := fun _ => true } : XpfThreadEvent T).Orderly where
  nodup := h.nodup
  ready := h.ready
  idle := h.idle
  current := fun _ _ _ => rfl
  woken := fun _ _ => rfl
  reports := fun _ _ => rfl

theorem Orderly.raise (h : e.Orderly) (hready : e.m_ready = []) (hseen : ∀ t, e.seen t = true) :
    ({ e with m_set := true } : XpfThreadEvent T).Orderly where
  nodup := h.nodup
  ready := h.ready
  idle := fun _ => hready
  current := fun _ t _ => hseen t
  woken := h.woken
  reports := h.reports

theorem Orderly.lower (h : e.Orderly) : ({ e with m_set := false } : XpfThreadEvent T).Orderly where
  nodup := h.nodup
  ready := h.ready
  idle := Bool.noConfusion
  current := Bool.noConfusion
  woken := h.woken
  reports := h.reports

theorem not_blocked {t : T} {p : Place} (h : e.place t = p) (hp : ∀ timed, p ≠ .blocked timed) (timed : Bool) :
    e.place t ≠ .blocked timed := fun hblocked => hp timed (h.symm.trans hblocked)

end Invariant

section Moves
variable {T : Type} [DecidableEq T] {e : XpfThreadEvent T} {t : T}

theorem goTo_self (p : Place) : (e.goTo t p).place t = p := Function.update_self ..

theorem goTo_of_ne {u : T} (h : u ≠ t) (p : Place) : (e.goTo t p).place u = e.place u :=
  Function.update_of_ne h ..

/-- A thread goes on to a place outside of the condition variable. -/
theorem Orderly.leave (h : e.Orderly) {p : Place} (hp : ∀ timed, p ≠ .blocked timed)
    (hcall : e.m_set = true → p.InCall → e.seen t = true)
    (hkeeps : p = .woken ∨ p = .returned true → e.seen t = true) :
    ({ e.goTo t p with m_ready := e.m_ready.erase t } : XpfThreadEvent T).Orderly := by
  constructor
  · exact h.nodup.erase t
  · intro u
    by_cases hu : u = t
    · subst hu
      refine iff_of_false h.nodup.not_mem_erase ?_
      rintro ⟨timed, hblocked⟩
      exact hp timed ((goTo_self p).symm.trans hblocked)
    · rw [List.mem_erase_of_ne hu, h.ready u]
      simp only [goTo_of_ne hu]
  · intro hset
    have hidle : e.m_ready = [] := h.idle hset
    simp only [hidle, List.erase_nil]
  · intro hset u hu
    by_cases hut : u = t
    · subst hut
      exact hcall hset (by simpa only [goTo_self] using hu)
    · exact h.current hset u (by simpa only [goTo_of_ne hut] using hu)
  · intro u hu
    by_cases hut : u = t
    · subst hut
      exact hkeeps (.inl (by simpa only [goTo_self] using hu))
    · exact h.woken u (by simpa only [goTo_of_ne hut] using hu)
  · intro u hu
    by_cases hut : u = t
    · subst hut
      exact hkeeps (.inr (by simpa only [goTo_self] using hu))
    · exact h.reports u (by simpa only [goTo_of_ne hut] using hu)

/-- The same for a thread that is not in the condition variable. -/
theorem Orderly.goTo (h : e.Orderly) (ht : ∀ timed, e.place t ≠ .blocked timed) {p : Place}
    (hp : ∀ timed, p ≠ .blocked timed) (hcall : e.m_set = true → p.InCall → e.seen t = true)
    (hkeeps : p = .woken ∨ p = .returned true → e.seen t = true) : (e.goTo t p).Orderly := by
  have hnot : t ∉ e.m_ready := by
    intro hmem
    obtain ⟨timed, hblocked⟩ := (h.ready t).mp hmem
    exact ht timed hblocked
  have hleave := h.leave hp hcall hkeeps
  rwa [List.erase_of_not_mem hnot] at hleave

/-- A thread blocks in the condition variable of an event that is not set. -/
theorem Orderly.block (h : e.Orderly) (hset : e.m_set = false) (ht : ∀ timed, e.place t ≠ .blocked timed)
    (timed : Bool) : (e.block t timed).Orderly := by
  have hnot : t ∉ e.m_ready := by
    intro hmem
    obtain ⟨timed, hblocked⟩ := (h.ready t).mp hmem
    exact ht timed hblocked
  have hfalse : ¬ (e.block t timed).m_set = true := by
    simp only [XpfThreadEvent.block, XpfThreadEvent.goTo, hset, Bool.false_eq_true, not_false_eq_true]
  -- the other threads are where they were
  have hplace : ∀ u p, (∀ timed, p ≠ .blocked timed) → (e.block t timed).place u = p → e.place u = p := by
    intro u p hp hu
    by_cases hut : u = t
    · subst hut
      exact (hp timed (hu.symm.trans (goTo_self _))).elim
    · exact (goTo_of_ne hut _).symm.trans hu
  constructor
  · exact List.nodup_append_comm.mp (List.nodup_cons.mpr ⟨hnot, h.nodup⟩)
  · intro u
    simp only [XpfThreadEvent.block, List.mem_append, List.mem_singleton]
    by_cases hut : u = t
    · subst hut
      exact iff_of_true (.inr rfl) ⟨timed, goTo_self _⟩
    · rw [h.ready u, goTo_of_ne hut, or_iff_left hut]
  · exact fun hset => (hfalse hset).elim
  · exact fun hset => (hfalse hset).elim
  · exact fun u hu => h.woken u (hplace u _ (fun _ => Place.noConfusion) hu)
  · exact fun u hu => h.reports u (hplace u _ (fun _ => Place.noConfusion) hu)

end Moves

section Steps
variable {T : Type} [DecidableEq T] {e : XpfThreadEvent T}

theorem Orderly.set (h : e.Orderly) (hone : e.m_ready.length ≤ 1) (choice : ℕ) : (e.set choice).Orderly := by
  match hready : e.m_ready with
  | [] =>
    have hnone : e.m_ready[choice % e.m_ready.length]? = none := by simp only [hready, List.getElem?_nil]
    simp only [XpfThreadEvent.set, condSignal, hnone]
    exact h.seeAll.raise hready (fun _ => rfl)
  | [t] =>
    have hsome : e.m_ready[choice % e.m_ready.length]? = some t := by
      simp only [hready, List.length_singleton, Nat.mod_one, List.getElem?_cons_zero]
    simp only [XpfThreadEvent.set, condSignal, hsome]
    have hwoken := h.seeAll.leave (t := t) (p := .woken) (fun _ => Place.noConfusion) (fun _ _ => rfl) (fun _ => rfl)
    refine hwoken.raise ?_ (fun _ => rfl)
    simp only [hready, List.erase_cons_head]
  | _ :: _ :: _ =>
    simp only [hready, List.length_cons] at hone
    omega

/-- A call starts with the event as it is. -/
theorem Orderly.call (h : e.Orderly) {t : T} (ht : ∀ timed, e.place t ≠ .blocked timed) (timeoutMs : ℕ) :
    ({ e.goTo t (.called timeoutMs) with seen := Function.update e.seen t e.m_set } : XpfThreadEvent T).Orderly := by
  have hgoes : ∀ u, u ≠ t → Function.update e.seen t e.m_set u = e.seen u := fun u hu => Function.update_of_ne hu ..
  constructor
  · exact h.nodup
  · intro u
    by_cases hut : u = t
    · subst hut
      refine iff_of_false ?_ ?_
      · intro hmem
        obtain ⟨timed, hblocked⟩ := (h.ready u).mp hmem
        exact ht timed hblocked
      · rintro ⟨timed, hblocked⟩
        cases (goTo_self _).symm.trans hblocked
    · simp only [goTo_of_ne hut]
      exact h.ready u
  · exact h.idle
  · intro hset u hu
    by_cases hut : u = t
    · subst hut
      exact (Function.update_self ..).trans hset
    · exact (hgoes u hut).trans (h.current hset u (by simpa only [goTo_of_ne hut] using hu))
  · intro u hu
    by_cases hut : u = t
    · subst hut
      cases (goTo_self _).symm.trans hu
    · exact (hgoes u hut).trans (h.woken u ((goTo_of_ne hut _).symm.trans hu))
  · intro u hu
    by_cases hut : u = t
    · subst hut
      cases (goTo_self _).symm.trans hu
    · exact (hgoes u hut).trans (h.reports u ((goTo_of_ne hut _).symm.trans hu))

theorem Orderly.wait (h : e.Orderly) (t : T) (timeoutMs : ℕ) : (e.wait t timeoutMs).Orderly := by
  cases hplace : e.place t with
  | outside =>
    simp only [XpfThreadEvent.wait, hplace]
    exact h.call (not_blocked hplace (by simp)) timeoutMs
  | returned result =>
    simp only [XpfThreadEvent.wait, hplace]
    exact h.call (not_blocked hplace (by simp)) timeoutMs
  | called | unset | blocked | woken => simpa only [XpfThreadEvent.wait, hplace] using h

theorem Orderly.test (h : e.Orderly) (t : T) : (e.test t).Orderly := by
  cases hplace : e.place t with
  | called timeoutMs =>
    have hnot := not_blocked hplace (by simp)
    simp only [XpfThreadEvent.test, hplace]
    split
    · next hset =>
      have hseen : e.seen t = true := h.current hset t (by rw [hplace]; trivial)
      exact h.goTo hnot (by simp) (fun _ _ => hseen) (fun _ => hseen)
    · next hset =>
      split
      · exact h.block (Bool.eq_false_of_not_eq_true hset) hnot false
      · exact h.goTo hnot (by simp) (fun hs => (hset hs).elim) (by simp)
  | outside | unset | blocked | woken | returned => simpa only [XpfThreadEvent.test, hplace] using h

theorem Orderly.timedWait (h : e.Orderly) {t : T} (hset : e.place t = .unset → e.m_set = false) :
    (e.timedWait t).Orderly := by
  cases hplace : e.place t with
  | unset =>
    simp only [XpfThreadEvent.timedWait, hplace]
    exact h.block (hset hplace) (not_blocked hplace (by simp)) true
  | outside | called | blocked | woken | returned => simpa only [XpfThreadEvent.timedWait, hplace] using h

theorem Orderly.wake (h : e.Orderly) (t : T) : (e.wake t).Orderly := by
  cases hplace : e.place t with
  | woken =>
    have hseen : e.seen t = true := h.woken t hplace
    simp only [XpfThreadEvent.wake, hplace]
    exact h.goTo (not_blocked hplace (by simp)) (by simp) (fun _ _ => hseen) (fun _ => hseen)
  | outside | called | unset | blocked | returned => simpa only [XpfThreadEvent.wake, hplace] using h

theorem Orderly.expire (h : e.Orderly) (t : T) : (e.expire t).Orderly := by
  cases hplace : e.place t with
  | blocked timed =>
    cases timed with
    | true =>
      simp only [XpfThreadEvent.expire, hplace]
      exact h.leave (by simp) (fun _ hcall => hcall.elim) (by simp)
    | false => simpa only [XpfThreadEvent.expire, hplace] using h
  | outside | called | unset | woken | returned => simpa only [XpfThreadEvent.expire, hplace] using h

theorem Orderly.spurious (h : e.Orderly) {t : T} (hseen : t ∈ e.m_ready → e.seen t = true) :
    (e.spurious t).Orderly := by
  cases hplace : e.place t with
  | blocked timed =>
    simp only [XpfThreadEvent.spurious, hplace]
    have hsaw : e.seen t = true := hseen ((h.ready t).mpr ⟨timed, hplace⟩)
    exact h.leave (by simp) (fun _ hcall => hcall.elim) (fun _ => hsaw)
  | outside | called | unset | woken | returned => simpa only [XpfThreadEvent.spurious, hplace] using h

theorem Orderly.step (h : e.Orderly) {a : EventStep T} (ha : e.Careful a) : ∃ e', e.step a = .ok e' ∧ e'.Orderly := by
  cases a with
  | set choice => exact ⟨_, rfl, h.set ha choice⟩
  | reset => exact ⟨_, if_pos ha, h.lower⟩
  | wait t timeoutMs => exact ⟨_, rfl, h.wait t timeoutMs⟩
  | test t => exact ⟨_, rfl, h.test t⟩
  | timedWait t => exact ⟨_, rfl, h.timedWait ha⟩
  | wake t => exact ⟨_, rfl, h.wake t⟩
  | expire t => exact ⟨_, rfl, h.expire t⟩
  | spurious t => exact ⟨_, rfl, h.spurious ha⟩

end Steps

section Failures
variable {T : Type} [DecidableEq T] {e : XpfThreadEvent T}

/-- A signal leaves the second blocked thread where it is. -/
theorem Orderly.set_holds (h : e.Orderly) (htwo : ¬ e.m_ready.length ≤ 1) (choice : ℕ) :
    ¬ (e.set choice).ManualReset := by
  have hlt : choice % e.m_ready.length < e.m_ready.length := Nat.mod_lt _ (by omega)
  have hsome : e.m_ready[choice % e.m_ready.length]? = some e.m_ready[choice % e.m_ready.length] :=
    List.getElem?_eq_getElem hlt
  obtain ⟨u, hu, hne⟩ : ∃ u ∈ e.m_ready, u ≠ e.m_ready[choice % e.m_ready.length] := by
    by_contra hall
    push Not at hall
    have hnodup := h.nodup
    rw [List.eq_replicate_of_mem hall, List.nodup_replicate] at hnodup
    exact htwo hnodup
  obtain ⟨timed, hblocked⟩ := (h.ready u).mp hu
  intro hmanual
  simp only [XpfThreadEvent.set, condSignal, hsome] at hmanual
  exact hmanual.passes rfl u timed ((goTo_of_ne hne _).trans hblocked)

theorem Orderly.step_bad (h : e.Orderly) {a : EventStep T} (ha : ¬ e.Careful a) {e' : XpfThreadEvent T}
    (hstep : e.step a = .ok e') : ¬ e'.ManualReset := by
  cases a with
  | set choice =>
    obtain rfl := Except.ok.inj hstep
    exact h.set_holds ha choice
  | reset =>
    cases (if_neg ha : e.reset = _).symm.trans hstep
  | timedWait t =>
    obtain ⟨hplace, hset⟩ := Classical.not_imp.mp ha
    obtain rfl := Except.ok.inj hstep
    intro hmanual
    simp only [XpfThreadEvent.timedWait, hplace] at hmanual
    exact hmanual.passes (Bool.eq_true_of_not_eq_false hset) t true (goTo_self _)
  | spurious t =>
    obtain ⟨hready, hseen⟩ := Classical.not_imp.mp ha
    obtain ⟨timed, hplace⟩ := (h.ready t).mp hready
    obtain rfl := Except.ok.inj hstep
    intro hmanual
    simp only [XpfThreadEvent.spurious, hplace] at hmanual
    exact hseen (hmanual.reports t (goTo_self _))
  | wait | test | wake | expire => exact (ha trivial).elim

end Failures

/-- The event is a manual-reset one in all runs of careful steps, and in no
other. -/
theorem manualReset_iff_careful {T : Type} [DecidableEq T] (set : Bool) (steps : List (EventStep T)) :
    Throughout step ManualReset (create set) steps ↔ Along step Careful (create set) steps :=
  throughout_iff_along (fun _ h => h.manualReset) (fun _ _ h _ ha => h.step ha)
    (fun _ _ _ h _ ha hstep => h.step_bad ha hstep) (orderly_create set)
    (along_of_forall (C := fun _ => True) (fun _ _ => trivial))

/-- Two threads wait without a timeout, then the event is set. -/
def twoWaitersRun : List (EventStep ℕ) :=
  [.wait 0 infinite, .wait 1 infinite, .test 0, .test 1, .set 0]

/-- The event is set between the two halves of a timed wait. -/
def lateLockRun : List (EventStep ℕ) := [.wait 0 100, .test 0, .set 0, .timedWait 0]

theorem notManualReset :
    (Returns (final step (create false) twoWaitersRun) fun e => e.m_set = true ∧ e.place 1 = .blocked false) ∧
      (Returns (final step (create false) lateLockRun) fun e => e.m_set = true ∧ e.place 0 = .blocked true) ∧
      ¬ Throughout step ManualReset (create false) twoWaitersRun ∧
      ¬ Throughout step ManualReset (create false) lateLockRun := by
  have htwo : Returns (final step (create false) twoWaitersRun)
      (fun e => e.m_set = true ∧ e.place 1 = .blocked false) := by decide
  have hlate : Returns (final step (create false) lateLockRun)
      (fun e => e.m_set = true ∧ e.place 0 = .blocked true) := by decide
  refine ⟨htwo, hlate, fun hthrough => ?_, fun hthrough => ?_⟩
  · obtain ⟨e, he, hset, hblocked⟩ := htwo
    obtain ⟨e', he', hmanual⟩ := hthrough.final
    obtain rfl := Except.ok.inj (he.symm.trans he')
    exact hmanual.passes hset 1 false hblocked
  · obtain ⟨e, he, hset, hblocked⟩ := hlate
    obtain ⟨e', he', hmanual⟩ := hthrough.final
    obtain rfl := Except.ok.inj (he.symm.trans he')
    exact hmanual.passes hset 0 true hblocked

end XpfThreadEvent
end LibXpf.Threading
