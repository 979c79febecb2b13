import LibXpf.Foundation.AtomicObjects
import LibXpf.Threading.ThreadLock

/-! # `NetIoMuxSyncFifo`

The lists of a multiplexer are queues under a lock. A thread in one of their methods takes the lock,
goes through the code of the method and gives the lock back, one access after the other. Between
any two of them other threads may run.
-/
namespace LibXpf
open GuardedRuns AtomicObjects
open Threading (RecursiveMutex LockPlace XpfThreadLock)

namespace NetIoMuxSyncFifo

/-- The methods. The items are pointers, of which zero is the null. -/
inductive Op where
  | pop_front
  | push_back (data : ℕ)
  | erase (data : ℕ)
  deriving DecidableEq

/-- What the methods return, with the `count` that `pop_front` writes. -/
inductive Res where
  | popped (ret count : ℕ)
  | pushed
  | erased (found : Bool)
  deriving DecidableEq

/-- What the methods are for. -/
def effect (list : List ℕ) : Op → List ℕ × Res
  | .pop_front => (list.tail, .popped (list.headD 0) (u32 list.tail.length))
  | .push_back data => (if data = 0 then list else list ++ [data], .pushed)
  | .erase data => if data = 0 then (list, .erased false) else (list.erase data, .erased (data ∈ list))

/-- The next access to the list within a method. -/
inductive Code where
  | pop_empty
  | pop_get
  | pop_remove (ret : ℕ)
  | pop_size (ret : ℕ)
  | push (data : ℕ)
  | erase_empty (data : ℕ)
  | erase_at (data i : ℕ)
  deriving DecidableEq

def Op.code : Op → Code
  | .pop_front => .pop_empty
  | .push_back data => .push data
  | .erase data => .erase_empty data

/-- The code of the methods under the lock. -/
def body (list : List ℕ) : Code → Except Fault (Outcome (List ℕ) Code Res)
  | .pop_empty => .ok (if list = [] then .ended list (.popped 0 0) else .more list .pop_get)
  | .pop_get =>
    match list with
    | [] => .error .outOfBounds
    | ret :: _ => .ok (.more list (.pop_remove ret))
  | .pop_remove ret =>
    match list with
    | [] => .error .outOfBounds
    | _ :: rest => .ok (.more rest (.pop_size ret))
  | .pop_size ret => .ok (.ended list (.popped ret (u32 list.length)))
  | .push data => .ok (.ended (list ++ [data]) .pushed)
  | .erase_empty data => .ok (if data = 0 ∨ list = [] then .ended list (.erased false) else .more list (.erase_at data 0))
  | .erase_at data i =>
    match list[i]? with
    | none => .ok (.ended list (.erased false))
    | some p => .ok (if p = data then .ended (list.eraseIdx i) (.erased true) else .more list (.erase_at data (i + 1)))

/-- Where a thread is in a method. -/
inductive Place where
  | outside
  /-- In front of the lock. -/
  | called (op : Op)
  /-- In `lock`, with the mutex. -/
  | locking (op : Op)
  | inside (op : Op) (code : Code)
  /-- In front of `unlock`. -/
  | leaving (r : Res)
  /-- In `unlock`, without the mutex. -/
  | unlocking (r : Res)
  | answered (r : Res)
  deriving DecidableEq

end NetIoMuxSyncFifo

open NetIoMuxSyncFifo in
structure NetIoMuxSyncFifo (T : Type) where
  mLock : XpfThreadLock T
  mList : List ℕ
  place : T → Place

namespace NetIoMuxSyncFifo
variable {T : Type} [DecidableEq T]

def create : NetIoMuxSyncFifo T := ⟨.create, [], fun _ => .outside⟩

def goTo (s : NetIoMuxSyncFifo T) (t : T) (p : Place) : NetIoMuxSyncFifo T :=
  { s with place := Function.update s.place t p }

/-- A thread calls a method, or goes on within one. -/
inductive Action (T : Type) where
  | call (t : T) (op : Op)
  | run (t : T)

/-- A thread that waits for the lock, or has nothing to do, stays where it is. -/
def step (s : NetIoMuxSyncFifo T) : Action T → Except Fault (NetIoMuxSyncFifo T)
  | .call t op => .ok (if s.place t = .outside then s.goTo t (.called op) else s)
  | .run t =>
    match s.place t with
    | .outside => .ok s
    | .called op =>
      if op = .push_back 0 then .ok (s.goTo t (.answered .pushed))
      else
        let (locked, mLock) := s.mLock.tryLock t
        .ok (if locked then { s with mLock := mLock }.goTo t (.locking op) else s)
    | .locking op => .ok ({ s with mLock := s.mLock.writeOwner t }.goTo t (.inside op op.code))
    | .inside op code => do
      match ← body s.mList code with
      | .more list code => return { s with mList := list }.goTo t (.inside op code)
      | .ended list r => return { s with mList := list }.goTo t (.leaving r)
    | .leaving r => .ok ({ s with mLock := s.mLock.unlock t }.goTo t (.unlocking r))
    | .unlocking r => .ok ({ s with mLock := s.mLock.writeInvalid t }.goTo t (.answered r))
    | .answered _ => .ok (s.goTo t .outside)

/-- The calls and answers that an action makes. -/
def events (s : NetIoMuxSyncFifo T) : Action T → List (Event T Op Res)
  | .call t op => if s.place t = .outside then [.call t op] else []
  | .run t =>
    match s.place t with
    | .answered r => [.answer t r]
    | _ => []

/-- Where a thread is in its call, seen from outside. -/
def Place.status : Place → Status Op Res
  | .outside => .idle
  | .called op | .locking op | .inside op _ => .pending op
  | .leaving r | .unlocking r | .answered r => .effected r

def Place.lockPlace : Place → LockPlace
  | .locking _ => .acquired
  | .unlocking _ => .released
  | _ => .outside

def Place.Holds : Place → Prop
  | .locking _ | .inside _ _ | .leaving _ => True
  | _ => False

def Place.Inside (p : Place) : Prop := ∃ op code, p = .inside op code

theorem Place.Inside.holds {p : Place} (h : p.Inside) : p.Holds := by
  obtain ⟨op, code, rfl⟩ := h
  exact trivial

section Bodies

theorem ends_pop_front (list : List ℕ) : Ends body list .pop_empty (effect list .pop_front) := by
  cases list with
  | nil => exact .last rfl
  | cons ret rest => exact .more rfl (.more rfl (.more rfl (.last rfl)))

theorem ends_push_back {data : ℕ} (hdata : data ≠ 0) (list : List ℕ) :
    Ends body list (.push data) (effect list (.push_back data)) := by
  rw [effect, if_neg hdata]
  exact .last rfl

/-- The loop has gone past items that are not the one to erase. -/
theorem ends_erase_at {data : ℕ} {done : List ℕ} (hdone : data ∉ done) (rest : List ℕ) :
    Ends body (done ++ rest) (.erase_at data done.length) ((done ++ rest).erase data, .erased (data ∈ done ++ rest)) := by
  induction rest generalizing done with
  | nil =>
    rw [List.append_nil, List.erase_of_not_mem hdone, decide_eq_false hdone]
    apply Ends.last
    simp only [body, List.getElem?_length]
  | cons p rest ih =>
    have hget : (done ++ p :: rest)[done.length]? = some p := by simp
    by_cases hp : p = data
    · subst hp
      rw [List.erase_append_right _ hdone, List.erase_cons_head, decide_eq_true (by simp)]
      apply Ends.last
      simp only [body, hget, if_pos]
      rw [List.eraseIdx_append_of_length_le le_rfl, Nat.sub_self, List.eraseIdx_cons_zero]
    · have hmore : body (done ++ p :: rest) (.erase_at data done.length) =
          .ok (.more (done ++ p :: rest) (.erase_at data (done.length + 1))) := by
        simp only [body, hget, if_neg hp]
      have hnext : data ∉ done ++ [p] := by simp [hdone, Ne.symm hp]
      have hends := ih hnext
      rw [List.append_assoc, List.length_append] at hends
      exact .more hmore hends

theorem ends_erase (data : ℕ) (list : List ℕ) : Ends body list (.erase_empty data) (effect list (.erase data)) := by
  by_cases hdata : data = 0
  · rw [effect, if_pos hdata]
    apply Ends.last
    simp only [body, hdata, true_or, if_pos]
  · rw [effect, if_neg hdata]
    by_cases hlist : list = []
    · subst hlist
      apply Ends.last
      simp [body]
    · have hmore : body list (.erase_empty data) = .ok (.more list (.erase_at data 0)) := by
        simp only [body, hdata, hlist, or_self, if_false]
      exact .more hmore (ends_erase_at List.not_mem_nil list)

/-- Alone, the code of a method does what the method is for. -/
theorem ends_code {op : Op} (hop : op ≠ .push_back 0) (list : List ℕ) : Ends body list op.code (effect list op) := by
  cases op with
  | pop_front => exact ends_pop_front list
  | push_back data => exact ends_push_back (fun h => hop (h ▸ rfl)) list
  | erase data => exact ends_erase data list

end Bodies

section Locks
variable {mLock : XpfThreadLock T} {place : T → Place} {t : T} {p : Place}

/-- The lock is where its threads are, and the thread that has the mutex has it once. -/
structure Locked (mLock : XpfThreadLock T) (place : T → Place) : Prop where
  places : mLock.place = Place.lockPlace ∘ place
  held : ∀ t, (place t).Holds ↔ mLock.mMutex = .held t 0
  once : ∀ t further, mLock.mMutex = .held t further → further = 0

omit [DecidableEq T] in
theorem free_ne_held (t : T) (further : ℕ) : (.free : RecursiveMutex T) ≠ .held t further := by
  rintro ⟨⟩

omit [DecidableEq T] in
theorem locked_create : Locked (XpfThreadLock.create : XpfThreadLock T) fun _ => .outside where
  places := rfl
  held := fun t => iff_of_false id (free_ne_held t 0)
  once := fun t further h => absurd h (free_ne_held t further)

omit [DecidableEq T] in
theorem Locked.only (h : Locked mLock place) (ht : (place t).Holds) {u : T} (hu : (place u).Holds) : u = t := by
  have heq := ((h.held u).mp hu).symm.trans ((h.held t).mp ht)
  exact (RecursiveMutex.held.inj heq).1

omit [DecidableEq T] in
theorem Locked.place_eq (h : Locked mLock place) (t : T) : mLock.place t = (place t).lockPlace := congrFun h.places t

/-- Who has the mutex, if a thread moves and no other one has it. -/
theorem held_update {m : RecursiveMutex T} (hown : p.Holds ↔ m = .held t 0)
    (hother : ∀ u, u ≠ t → ((place u).Holds ↔ m = .held u 0)) (u : T) :
    (Function.update place t p u).Holds ↔ m = .held u 0 := by
  by_cases hu : u = t
  · subst hu
    rwa [Function.update_self]
  · rw [Function.update_of_ne hu]
    exact hother u hu

/-- Moves within a method that are none of its lock. -/
theorem Locked.goTo (h : Locked mLock place) (hplace : p.lockPlace = (place t).lockPlace) (hholds : p.Holds ↔ (place t).Holds) :
    Locked mLock (Function.update place t p) where
  places := by
    rw [Function.comp_update, hplace, ← h.place_eq t, ← h.places, Function.update_eq_self]
  held := held_update (hholds.trans (h.held t)) fun u _ => h.held u
  once := h.once

theorem Locked.lock (h : Locked mLock place) {op : Op} (ht : place t = .called op) :
    mLock.tryLock t = (false, mLock) ∨
      (mLock.tryLock t).1 = true ∧ Locked (mLock.tryLock t).2 (Function.update place t (.locking op)) := by
  have hplace : mLock.place t = .outside := by rw [h.place_eq, ht]; rfl
  cases hmutex : mLock.mMutex with
  | held u further =>
    left
    have hne : u ≠ t := by
      rintro rfl
      obtain rfl := h.once u further hmutex
      have hholds := (h.held u).mpr hmutex
      rw [ht] at hholds
      exact hholds
    simp only [XpfThreadLock.tryLock, hplace, hmutex, RecursiveMutex.acquire, if_neg hne]
  | free =>
    right
    have htry : mLock.tryLock t =
        (true, { mLock with mMutex := .held t 0, place := Function.update mLock.place t .acquired }) := by
      simp only [XpfThreadLock.tryLock, hplace, hmutex, RecursiveMutex.acquire]
    rw [htry]
    refine ⟨rfl, ?_, held_update (iff_of_true trivial rfl) fun u hu => ?_, ?_⟩
    · rw [Function.comp_update, ← h.places]
      rfl
    · refine iff_of_false (fun hholds => ?_) fun heq => hu (RecursiveMutex.held.inj heq).1.symm
      exact free_ne_held u 0 (hmutex.symm.trans ((h.held u).mp hholds))
    · intro u further heq
      exact (RecursiveMutex.held.inj heq).2.symm

theorem Locked.writeOwner (h : Locked mLock place) {op : Op} (ht : place t = .locking op) (hp : p.lockPlace = .outside)
    (hholds : p.Holds) : Locked (mLock.writeOwner t) (Function.update place t p) := by
  have hplace : mLock.place t = .acquired := by rw [h.place_eq, ht]; rfl
  rw [XpfThreadLock.writeOwner, if_pos hplace]
  refine ⟨?_, held_update (iff_of_true hholds ?_) fun u _ => h.held u, h.once⟩
  · rw [Function.comp_update, ← h.places, hp]
  · exact (h.held t).mp (by rw [ht]; exact trivial)

theorem Locked.unlock (h : Locked mLock place) {r : Res} (ht : place t = .leaving r) :
    Locked (mLock.unlock t) (Function.update place t (.unlocking r)) := by
  have hplace : mLock.place t = .outside := by rw [h.place_eq, ht]; rfl
  have hholds : (place t).Holds := by rw [ht]; exact trivial
  have hmutex := (h.held t).mp hholds
  have hunlock : mLock.unlock t = { mLock with mMutex := .free, place := Function.update mLock.place t .released } := by
    simp only [XpfThreadLock.unlock, hplace, hmutex, RecursiveMutex.release, if_pos]
  rw [hunlock]
  refine ⟨?_, held_update (iff_of_false id (free_ne_held t 0)) fun u hu => ?_,
    fun u further heq => absurd heq (free_ne_held u further)⟩
  · rw [Function.comp_update, ← h.places]
    rfl
  · exact iff_of_false (fun hu' => hu (h.only hholds hu')) (free_ne_held u 0)

theorem Locked.writeInvalid (h : Locked mLock place) {r : Res} (ht : place t = .unlocking r) (hp : p.lockPlace = .outside)
    (hholds : ¬ p.Holds) : Locked (mLock.writeInvalid t) (Function.update place t p) := by
  have hplace : mLock.place t = .released := by rw [h.place_eq, ht]; rfl
  rw [XpfThreadLock.writeInvalid, if_pos hplace]
  refine ⟨?_, held_update (iff_of_false hholds fun hmutex => ?_) fun u _ => h.held u, h.once⟩
  · rw [Function.comp_update, ← h.places, hp]
  · have hheld := (h.held t).mpr hmutex
    rw [ht] at hheld
    exact hheld

end Locks

section Simulation
variable {place : T → Place} {t : T} {p : Place} {list data : List ℕ}

/-- What is left of the code of a thread leads from the list to the one behind its call. If no
thread is in the code, the list is the one of the object. -/
structure Consistent (list data : List ℕ) (place : T → Place) : Prop where
  inside : ∀ t op code, place t = .inside op code → Ends body list code (effect data op)
  alone : (∀ t, ¬ (place t).Inside) → data = list

/-- A thread in the code is the one that has moved, or was there before. -/
theorem inside_update {u : T} {op : Op} {code : Code} (hu : Function.update place t p u = .inside op code) :
    p = .inside op code ∨ u ≠ t ∧ place u = .inside op code := by
  by_cases hut : u = t
  · subst hut
    rw [Function.update_self] at hu
    exact .inl hu
  · rw [Function.update_of_ne hut] at hu
    exact .inr ⟨hut, hu⟩

theorem Consistent.elsewhere (h : Consistent list data place) (ht : ¬ (place t).Inside) (hp : ¬ p.Inside) :
    Consistent list data (Function.update place t p) where
  inside := by
    intro u op code hu
    rcases inside_update hu with hmoved | ⟨-, hu⟩
    · exact absurd ⟨op, code, hmoved⟩ hp
    · exact h.inside u op code hu
  alone := by
    intro hnone
    refine h.alone fun u hu => ?_
    by_cases hut : u = t
    · exact ht (hut ▸ hu)
    · apply hnone u
      rwa [Function.update_of_ne hut]

/-- The thread that has the mutex is the only one in the code. -/
theorem consistent_only (hothers : ∀ u, u ≠ t → ¬ (place u).Inside)
    (hinside : ∀ op code, p = .inside op code → Ends body list code (effect data op))
    (houtside : ¬ p.Inside → data = list) : Consistent list data (Function.update place t p) where
  inside := by
    intro u op code hu
    rcases inside_update hu with hmoved | ⟨hut, hu⟩
    · exact hinside op code hmoved
    · exact absurd ⟨op, code, hu⟩ (hothers u hut)
  alone := by
    intro hnone
    apply houtside
    have ht := hnone t
    rwa [Function.update_self] at ht

/-- The queue and the object with the same calls in progress. -/
structure Follows (s : NetIoMuxSyncFifo T) (o : Obj T (List ℕ) Op Res) : Prop where
  status : o.status = Place.status ∘ s.place
  locked : Locked s.mLock s.place
  consistent : Consistent s.mList o.data s.place
  entering : ∀ t op, s.place t = .locking op → op ≠ .push_back 0

variable {s : NetIoMuxSyncFifo T} {o o' : Obj T (List ℕ) Op Res}

omit [DecidableEq T] in
theorem follows_create : Follows (create : NetIoMuxSyncFifo T) (Obj.init []) where
  status := rfl
  locked := locked_create
  consistent := ⟨by rintro t op code ⟨⟩, fun _ => rfl⟩
  entering := by rintro t op ⟨⟩

theorem Follows.goTo (h : Follows s o) {mLock : XpfThreadLock T} (hstatus : o'.status = Function.update o.status t p.status)
    (hlocked : Locked mLock (Function.update s.place t p)) (hconsistent : Consistent list o'.data (Function.update s.place t p))
    (hentering : ∀ op, p = .locking op → op ≠ .push_back 0) :
    Follows ({ s with mLock := mLock, mList := list }.goTo t p) o' where
  status := hstatus.trans (by rw [h.status, ← Function.comp_update]; rfl)
  locked := hlocked
  consistent := hconsistent
  entering := by
    intro u op hu
    by_cases hut : u = t
    · subst hut
      exact hentering op ((Function.update_self ..).symm.trans hu)
    · exact h.entering u op ((Function.update_of_ne hut ..).symm.trans hu)

omit [DecidableEq T] in
theorem Follows.status_eq (h : Follows s o) (ht : s.place t = p) : o.status t = p.status := by
  rw [h.status, Function.comp_apply, ht]

/-- The call of the thread goes on. -/
theorem Follows.status_update (h : Follows s o) (hp : p.status = (s.place t).status) :
    o.status = Function.update o.status t p.status := by
  rw [hp, ← h.status_eq rfl, Function.update_eq_self]

omit [DecidableEq T] in
theorem Follows.others (h : Follows s o) (ht : (s.place t).Holds) : ∀ u, u ≠ t → ¬ (s.place u).Inside :=
  fun _ hu hinside => hu (h.locked.only ht hinside.holds)

/-- The thread is outside of the code before and after its move. -/
theorem Follows.elsewhere (h : Follows s o) {q : Place} (ht : s.place t = q) (hq : ¬ q.Inside) (hp : ¬ p.Inside) :
    Consistent s.mList o.data (Function.update s.place t p) := by
  subst ht
  exact h.consistent.elsewhere hq hp

/-- Moves of the object answer to the step, with the same calls and answers. -/
def Simulated (s : NetIoMuxSyncFifo T) (o : Obj T (List ℕ) Op Res) (a : Action T) : Prop :=
  ∃ s', s.step a = .ok s' ∧ ∃ o', Trace effect o (s.events a) o' ∧ Follows s' o'

theorem simulated_stays {a : Action T} {s' : NetIoMuxSyncFifo T} (hstep : s.step a = .ok s') (hevents : s.events a = [])
    (h : Follows s' o) : Simulated s o a :=
  ⟨s', hstep, o, by rw [hevents]; exact .nil, h⟩

theorem simulated_moves {a : Action T} {s' : NetIoMuxSyncFifo T} {w : List (Event T Op Res)} (hstep : s.step a = .ok s')
    (hevents : s.events a = w) (hmove : Move effect o w o') (h : Follows s' o') : Simulated s o a :=
  ⟨s', hstep, o', by rw [hevents]; exact hmove.trace, h⟩

theorem Follows.call (h : Follows s o) (t : T) (op : Op) : Simulated s o (.call t op) := by
  by_cases ht : s.place t = .outside
  · refine simulated_moves (congrArg _ (if_pos ht)) (if_pos ht) (.call o t op (h.status_eq ht)) (h.goTo rfl ?_ ?_ ?_)
    · exact h.locked.goTo (by rw [ht]; rfl) (by rw [ht]; rfl)
    · exact h.elsewhere ht (by rintro ⟨_, _, ⟨⟩⟩) (by rintro ⟨_, _, ⟨⟩⟩)
    · rintro op' ⟨⟩
  · exact simulated_stays (congrArg _ (if_neg ht)) (if_neg ht) h

theorem Follows.called (h : Follows s o) {op : Op} (ht : s.place t = .called op) : Simulated s o (.run t) := by
  have hevents : s.events (.run t) = [] := by simp only [events, ht]
  by_cases hnull : op = .push_back 0
  · -- no item: the call takes effect here, without the lock
    subst hnull
    have hstep : s.step (.run t) = .ok (s.goTo t (.answered .pushed)) := by simp only [step, ht, if_pos]
    refine simulated_moves hstep hevents (.effect o t _ (h.status_eq ht)) (h.goTo rfl ?_ ?_ ?_)
    · exact h.locked.goTo (by rw [ht]; rfl) (by rw [ht]; rfl)
    · exact h.elsewhere ht (by rintro ⟨_, _, ⟨⟩⟩) (by rintro ⟨_, _, ⟨⟩⟩)
    · rintro op' ⟨⟩
  · rcases h.locked.lock ht with hwaits | ⟨hlocks, hlocked⟩
    · have hstep : s.step (.run t) = .ok s := by
        simp only [step, ht, if_neg hnull, hwaits, Bool.false_eq_true, if_false]
      exact simulated_stays hstep hevents h
    · have hstep : s.step (.run t) = .ok ({ s with mLock := (s.mLock.tryLock t).2 }.goTo t (.locking op)) := by
        simp only [step, ht, if_neg hnull, hlocks, if_true]
      refine simulated_stays hstep hevents (h.goTo (h.status_update (by rw [ht]; rfl)) hlocked ?_ ?_)
      · exact h.elsewhere ht (by rintro ⟨_, _, ⟨⟩⟩) (by rintro ⟨_, _, ⟨⟩⟩)
      · rintro op' ⟨⟩
        exact hnull

theorem Follows.locking (h : Follows s o) {op : Op} (ht : s.place t = .locking op) : Simulated s o (.run t) := by
  have hevents : s.events (.run t) = [] := by simp only [events, ht]
  have hstep : s.step (.run t) = .ok ({ s with mLock := s.mLock.writeOwner t }.goTo t (.inside op op.code)) := by
    simp only [step, ht]
  have hothers := h.others (by rw [ht]; exact trivial)
  have hnone : ∀ u, ¬ (s.place u).Inside := by
    intro u hu
    by_cases hut : u = t
    · rw [hut, ht] at hu
      obtain ⟨_, _, ⟨⟩⟩ := hu
    · exact hothers u hut hu
  refine simulated_stays hstep hevents (h.goTo (h.status_update (by rw [ht]; rfl)) ?_ ?_ ?_)
  · exact h.locked.writeOwner ht rfl trivial
  · refine consistent_only hothers ?_ fun houtside => absurd ⟨op, op.code, rfl⟩ houtside
    rintro _ _ ⟨⟩
    rw [h.consistent.alone hnone]
    exact ends_code (h.entering t op ht) s.mList
  · rintro op' ⟨⟩

/-- A call takes effect with the last access of its code. -/
theorem Follows.inside (h : Follows s o) {op : Op} {code : Code} (ht : s.place t = .inside op code) :
    Simulated s o (.run t) := by
  have hevents : s.events (.run t) = [] := by simp only [events, ht]
  have hothers := h.others (by rw [ht]; exact trivial)
  rcases (h.consistent.inside t op code ht).step with hlast | ⟨list, code', hmore, hrest⟩
  · have hstep : s.step (.run t) = .ok ({ s with mList := (effect o.data op).1 }.goTo t (.leaving (effect o.data op).2)) := by
      simp only [step, ht, hlast]
      rfl
    refine simulated_moves hstep hevents (.effect o t _ (h.status_eq ht)) (h.goTo rfl ?_ ?_ ?_)
    · exact h.locked.goTo (by rw [ht]; rfl) (by rw [ht]; exact Iff.rfl)
    · refine consistent_only hothers ?_ fun _ => rfl
      rintro _ _ ⟨⟩
    · rintro op' ⟨⟩
  · have hstep : s.step (.run t) = .ok ({ s with mList := list }.goTo t (.inside op code')) := by
      simp only [step, ht, hmore]
      rfl
    refine simulated_stays hstep hevents (h.goTo (h.status_update (by rw [ht]; rfl)) ?_ ?_ ?_)
    · exact h.locked.goTo (by rw [ht]; rfl) (by rw [ht]; exact Iff.rfl)
    · refine consistent_only hothers ?_ fun houtside => absurd ⟨op, code', rfl⟩ houtside
      rintro _ _ ⟨⟩
      exact hrest
    · rintro op' ⟨⟩

theorem Follows.leaving (h : Follows s o) {r : Res} (ht : s.place t = .leaving r) : Simulated s o (.run t) := by
  have hevents : s.events (.run t) = [] := by simp only [events, ht]
  have hstep : s.step (.run t) = .ok ({ s with mLock := s.mLock.unlock t }.goTo t (.unlocking r)) := by simp only [step, ht]
  refine simulated_stays hstep hevents (h.goTo (h.status_update (by rw [ht]; rfl)) (h.locked.unlock ht) ?_ ?_)
  · exact h.elsewhere ht (by rintro ⟨_, _, ⟨⟩⟩) (by rintro ⟨_, _, ⟨⟩⟩)
  · rintro op ⟨⟩

theorem Follows.unlocking (h : Follows s o) {r : Res} (ht : s.place t = .unlocking r) : Simulated s o (.run t) := by
  have hevents : s.events (.run t) = [] := by simp only [events, ht]
  have hstep : s.step (.run t) = .ok ({ s with mLock := s.mLock.writeInvalid t }.goTo t (.answered r)) := by
    simp only [step, ht]
  refine simulated_stays hstep hevents (h.goTo (h.status_update (by rw [ht]; rfl)) ?_ ?_ ?_)
  · exact h.locked.writeInvalid ht rfl id
  · exact h.elsewhere ht (by rintro ⟨_, _, ⟨⟩⟩) (by rintro ⟨_, _, ⟨⟩⟩)
  · rintro op ⟨⟩

theorem Follows.answered (h : Follows s o) {r : Res} (ht : s.place t = .answered r) : Simulated s o (.run t) := by
  have hevents : s.events (.run t) = [.answer t r] := by simp only [events, ht]
  have hstep : s.step (.run t) = .ok (s.goTo t .outside) := by simp only [step, ht]
  refine simulated_moves hstep hevents (.answer o t r (h.status_eq ht)) (h.goTo rfl ?_ ?_ ?_)
  · exact h.locked.goTo (by rw [ht]; rfl) (by rw [ht]; exact Iff.rfl)
  · exact h.elsewhere ht (by rintro ⟨_, _, ⟨⟩⟩) (by rintro ⟨_, _, ⟨⟩⟩)
  · rintro op ⟨⟩

theorem Follows.simulated (h : Follows s o) (a : Action T) : Simulated s o a := by
  cases a with
  | call t op => exact h.call t op
  | run t =>
    cases ht : s.place t with
    | outside => exact simulated_stays (by simp only [step, ht]) (by simp only [events, ht]) h
    | called op => exact h.called ht
    | locking op => exact h.locking ht
    | inside op code => exact h.inside ht
    | leaving r => exact h.leaving ht
    | unlocking r => exact h.unlocking ht
    | answered r => exact h.answered ht

end Simulation

section Items
variable {T : Type} {log : List (T × Op × Res)} {list list' : List ℕ}

/-- The items that went in, that came out at the front, and that were erased. -/
def pushed (log : List (T × Op × Res)) : List ℕ :=
  log.filterMap fun
    | (_, .push_back data, _) => if data = 0 then none else some data
    | _ => none

def popped (log : List (T × Op × Res)) : List ℕ :=
  log.filterMap fun
    | (_, _, .popped ret _) => if ret = 0 then none else some ret
    | _ => none

def erased (log : List (T × Op × Res)) : List ℕ :=
  log.filterMap fun
    | (_, .erase data, .erased true) => some data
    | _ => none

/-- Items come out in the order in which they went in, and each of them comes out once or stays. -/
def Keeps (list : List ℕ) (log : List (T × Op × Res)) (list' : List ℕ) : Prop :=
  (popped log ++ list').Sublist (list ++ pushed log) ∧ (list ++ pushed log).Perm (popped log ++ (erased log ++ list'))

theorem keeps_of_legal (hlist : 0 ∉ list) (h : Legal effect list log list') : Keeps list log list' := by
  induction log generalizing list with
  | nil =>
    obtain rfl : list' = list := h
    exact ⟨by simp [popped, pushed], by simp [popped, pushed, erased]⟩
  | cons c rest ih =>
    obtain ⟨t, op, r⟩ := c
    obtain ⟨rfl, hrest⟩ := h
    cases op with
    | pop_front =>
      cases list with
      | nil => exact ih hlist hrest
      | cons p list =>
        obtain ⟨hsub, hperm⟩ := ih (fun hmem => hlist (List.mem_cons_of_mem p hmem)) hrest
        have hp : p ≠ 0 := fun hnull => hlist (hnull ▸ List.mem_cons_self)
        have hpopped : popped ((t, .pop_front, (effect (p :: list) .pop_front).2) :: rest) = p :: popped rest := by
          simp [popped, effect, hp]
        rw [Keeps, hpopped]
        exact ⟨hsub.cons_cons p, hperm.cons p⟩
    | push_back data =>
      by_cases hdata : data = 0
      · subst hdata
        exact ih hlist hrest
      · simp only [effect, if_neg hdata] at hrest
        obtain ⟨hsub, hperm⟩ := ih (by simp [hlist, Ne.symm hdata]) hrest
        have hpushed : pushed ((t, .push_back data, (effect list (.push_back data)).2) :: rest) = data :: pushed rest := by
          simp [pushed, hdata]
        rw [Keeps, hpushed, List.append_cons]
        exact ⟨hsub, hperm⟩
    | erase data =>
      by_cases hdata : data = 0
      · subst hdata
        exact ih hlist hrest
      · simp only [effect, if_neg hdata] at hrest ⊢
        obtain ⟨hsub, hperm⟩ := ih (fun hmem => hlist (List.mem_of_mem_erase hmem)) hrest
        by_cases hmem : data ∈ list
        · refine ⟨hsub.trans ((List.erase_sublist ..).append_right _), ?_⟩
          have herased : erased ((t, .erase data, .erased (decide (data ∈ list))) :: rest) = data :: erased rest := by
            simp [erased, hmem]
          rw [herased]
          have hback := (List.perm_cons_erase hmem).append_right (pushed rest)
          refine hback.trans ((hperm.cons data).trans ?_)
          exact List.perm_middle.symm
        · rw [List.erase_of_not_mem hmem] at hsub hperm
          have herased : erased ((t, .erase data, .erased (decide (data ∈ list))) :: rest) = erased rest := by
            simp [erased, hmem]
          refine ⟨hsub, ?_⟩
          rw [herased]
          exact hperm

end Items

section Runs

/-- Whatever the threads do, no method goes wrong, and the calls and answers are ones of a queue on
which every call takes effect at once and as a whole. One order of the calls explains all results, and
the list is the one behind the calls that took effect, unless a thread is in the middle of a method. -/
theorem run_atomic (as : List (Action T)) :
    ∃ u, final (recorded step events) (create, []) as = .ok u ∧ ∃ o, Trace effect (Obj.init []) u.2 o ∧
      Legal effect [] o.log o.data ∧ (∀ t, o.status t = (u.1.place t).status) ∧
      ((∀ t, ¬ (u.1.place t).Inside) → u.1.mList = o.data) ∧
      ∀ t t', (u.1.place t).Inside → (u.1.place t').Inside → t = t' := by
  obtain ⟨u, hu, o, htrace, hfollows⟩ := trace_of_simulation (fun s a o h => Follows.simulated h a) follows_create as
  refine ⟨u, hu, o, htrace, htrace.legal rfl, fun t => hfollows.status_eq rfl, fun hnone => ?_, fun t t' ht ht' => ?_⟩
  · exact (hfollows.consistent.alone hnone).symm
  · exact hfollows.locked.only ht'.holds ht.holds

/-- When all calls are answered, there is one order of them that is the one of every thread and in
which items come out as they went in: none is lost, doubled or overtaken. -/
theorem quiet_keepsItems {as : List (Action T)} {u : NetIoMuxSyncFifo T × List (Event T Op Res)}
    (h : final (recorded step events) (create, []) as = .ok u) (hquiet : ∀ t, u.1.place t = .outside) :
    ∃ log : List (T × Op × Res),
      (∀ t, calls t u.2 = (effects t log).map Prod.fst ∧ answers t u.2 = (effects t log).map Prod.snd) ∧
      (popped log ++ u.1.mList).Sublist (pushed log) ∧ (pushed log).Perm (popped log ++ (erased log ++ u.1.mList)) := by
  obtain ⟨v, hv, o, htrace, hfollows⟩ := trace_of_simulation (fun s a o h => Follows.simulated h a) follows_create as
  obtain rfl : u = v := Except.ok.inj (h.symm.trans hv)
  have hnone : ∀ t, ¬ (u.1.place t).Inside := by
    intro t
    rw [hquiet t]
    rintro ⟨_, _, ⟨⟩⟩
  have hkeeps : Keeps [] o.log o.data := keeps_of_legal List.not_mem_nil (htrace.legal rfl)
  rw [hfollows.consistent.alone hnone] at hkeeps
  refine ⟨o.log, fun t => ?_, hkeeps⟩
  obtain ⟨hcalls, hanswers⟩ := htrace.told t
  rw [hfollows.status_eq (hquiet t)] at hcalls hanswers
  exact ⟨hcalls.trans (List.append_nil _), (hanswers.trans (List.append_nil _)).symm⟩

/-- One thread waits for the lock that the other one has. -/
def contendedRun : List (Action Bool) :=
  [.call true (.push_back 5), .call false (.push_back 7), .run true, .run true, .run false, .run true, .run true,
    .run true, .run false, .run true, .run false, .run false, .run false, .run false, .run false, .call true .pop_front] ++
    List.replicate 9 (.run true)

theorem quiet_keepsItems_contendedRun :
    ∃ u, final (recorded step events) (create, []) contendedRun = .ok u ∧ ∃ log : List (Bool × Op × Res),
      (∀ t, calls t u.2 = (effects t log).map Prod.fst ∧ answers t u.2 = (effects t log).map Prod.snd) ∧
      (popped log ++ u.1.mList).Sublist (pushed log) ∧ (pushed log).Perm (popped log ++ (erased log ++ u.1.mList)) := by
  have hrun : ∃ u, final (recorded step events) (create, []) contendedRun = .ok u ∧ ∀ t, u.1.place t = .outside :=
    ⟨_, rfl, by decide⟩
  obtain ⟨u, hu, hquiet⟩ := hrun
  exact ⟨u, hu, quiet_keepsItems hu hquiet⟩

end Runs

end NetIoMuxSyncFifo
end LibXpf
