import LibXpf.Foundation.GuardedRuns
import Mathlib.Logic.Function.Basic

/-! # Atomic objects

Threads call an object and are answered. In between a call takes effect in one moment, as a whole.
A machine behaves like the object if its calls and answers are ones of the object. Code that runs
alone from its entry to its end has the effect of its call.
-/
namespace LibXpf.AtomicObjects
open GuardedRuns

variable {T S Op Res : Type*}

inductive Event (T Op Res : Type*) where
  | call (t : T) (op : Op)
  | answer (t : T) (r : Res)

inductive Status (Op Res : Type*) where
  | idle
  | pending (op : Op)
  | effected (r : Res)

structure Obj (T S Op Res : Type*) where
  data : S
  status : T → Status Op Res
  /-- The calls in the order in which they took effect. -/
  log : List (T × Op × Res)

def Obj.init (s : S) : Obj T S Op Res := ⟨s, fun _ => .idle, []⟩

section Traces
variable [DecidableEq T] (effect : S → Op → S × Res)

inductive Move : Obj T S Op Res → List (Event T Op Res) → Obj T S Op Res → Prop
  | call (o : Obj T S Op Res) (t : T) (op : Op) (hidle : o.status t = .idle) :
      Move o [.call t op] { o with status := Function.update o.status t (.pending op) }
  | effect (o : Obj T S Op Res) (t : T) (op : Op) (hpending : o.status t = .pending op) :
      Move o []
        { data := (effect o.data op).1
          status := Function.update o.status t (.effected (effect o.data op).2)
          log := o.log ++ [(t, op, (effect o.data op).2)] }
  | answer (o : Obj T S Op Res) (t : T) (r : Res) (heffected : o.status t = .effected r) :
      Move o [.answer t r] { o with status := Function.update o.status t .idle }

/-- The calls and answers along some moves. -/
inductive Trace (o : Obj T S Op Res) : List (Event T Op Res) → Obj T S Op Res → Prop
  | nil : Trace o [] o
  | snoc {w w' : List (Event T Op Res)} {o' o'' : Obj T S Op Res} (h : Trace o w o')
      (hmove : Move effect o' w' o'') : Trace o (w ++ w') o''

variable {effect} {o o' o'' : Obj T S Op Res} {w w' : List (Event T Op Res)}

theorem Trace.trans (h : Trace effect o w o') (h' : Trace effect o' w' o'') : Trace effect o (w ++ w') o'' := by
  induction h' with
  | nil => rwa [List.append_nil]
  | snoc _ hmove ih =>
    rw [← List.append_assoc]
    exact ih.snoc hmove

theorem Move.trace (h : Move effect o w o') : Trace effect o w o' := .snoc .nil h

/-- One call after the other takes the data from one value to another one, with these results. -/
def Legal (effect : S → Op → S × Res) : S → List (T × Op × Res) → S → Prop
  | s, [], s' => s' = s
  | s, (_, op, r) :: rest, s' => (effect s op).2 = r ∧ Legal effect (effect s op).1 rest s'

omit [DecidableEq T] in
theorem Legal.snoc {s s' : S} {log : List (T × Op × Res)} (h : Legal effect s log s') (t : T) (op : Op) :
    Legal effect s (log ++ [(t, op, (effect s' op).2)]) (effect s' op).1 := by
  induction log generalizing s with
  | nil =>
    obtain rfl : s' = s := h
    exact ⟨rfl, rfl⟩
  | cons c rest ih => exact ⟨h.1, ih h.2⟩

/-- The calls that took effect did so as in a run of one thread. -/
theorem Trace.legal {s : S} (h : Trace effect o w o') (hlegal : Legal effect s o.log o.data) : Legal effect s o'.log o'.data := by
  induction h with
  | nil => exact hlegal
  | snoc _ hmove ih =>
    cases hmove with
    | call => exact ih
    | effect t op _ => exact ih.snoc t op
    | answer => exact ih

/-- The calls of one thread among calls and answers, and the answers to it. -/
def calls (t : T) (w : List (Event T Op Res)) : List Op :=
  w.filterMap fun
    | .call u op => if u = t then some op else none
    | .answer _ _ => none

def answers (t : T) (w : List (Event T Op Res)) : List Res :=
  w.filterMap fun
    | .call _ _ => none
    | .answer u r => if u = t then some r else none

/-- The calls of one thread that took effect, with their results. -/
def effects (t : T) (log : List (T × Op × Res)) : List (Op × Res) :=
  log.filterMap fun c => if c.1 = t then some c.2 else none

/-- The call that has not taken effect, and the result that has not been answered. -/
@[simp] def Status.pendingOps : Status Op Res → List Op
  | .pending op => [op]
  | .idle | .effected _ => []

@[simp] def Status.pendingResults : Status Op Res → List Res
  | .effected r => [r]
  | .idle | .pending _ => []

section Recorded
variable {t u : T} {w w' : List (Event T Op Res)} {log log' : List (T × Op × Res)}

@[simp] theorem calls_append : calls t (w ++ w') = calls t w ++ calls t w' := List.filterMap_append

@[simp] theorem answers_append : answers t (w ++ w') = answers t w ++ answers t w' := List.filterMap_append

@[simp] theorem effects_append : effects t (log ++ log') = effects t log ++ effects t log' := List.filterMap_append

@[simp] theorem calls_call (op : Op) : calls t [(.call u op : Event T Op Res)] = if u = t then [op] else [] := by
  by_cases hu : u = t <;> simp [calls, hu]

@[simp] theorem calls_answer (r : Res) : calls t [(.answer u r : Event T Op Res)] = [] := rfl

@[simp] theorem answers_call (op : Op) : answers t [(.call u op : Event T Op Res)] = [] := rfl

@[simp] theorem answers_answer (r : Res) : answers t [(.answer u r : Event T Op Res)] = if u = t then [r] else [] := by
  by_cases hu : u = t <;> simp [answers, hu]

@[simp] theorem effects_single (x : Op × Res) : effects t [(u, x)] = if u = t then [x] else [] := by
  by_cases hu : u = t <;> simp [effects, hu]

end Recorded

/-- What is recorded of a thread and where its call is agree. -/
def Told (w : List (Event T Op Res)) (o : Obj T S Op Res) (t : T) : Prop :=
  calls t w = (effects t o.log).map Prod.fst ++ (o.status t).pendingOps ∧
    (effects t o.log).map Prod.snd = answers t w ++ (o.status t).pendingResults

theorem status_other {t u : T} (hu : u ≠ t) (x : Status Op Res) :
    Function.update o.status u x t = o.status t := Function.update_of_ne (Ne.symm hu) ..

theorem Told.move {t : T} (h : Told w o t) (hmove : Move effect o w' o') : Told (w ++ w') o' t := by
  obtain ⟨hcalls, hanswers⟩ := h
  cases hmove with
  | call u op hidle =>
    by_cases hu : u = t
    · subst hu
      rw [hidle] at hcalls hanswers
      exact ⟨by simp [hcalls], by simp [hanswers]⟩
    · simp [Told, hu, hcalls, hanswers, status_other hu]
  | effect u op hpending =>
    by_cases hu : u = t
    · subst hu
      rw [hpending] at hcalls hanswers
      exact ⟨by simp [hcalls], by simp [hanswers]⟩
    · simp [Told, hu, hcalls, hanswers, status_other hu]
  | answer u r heffected =>
    by_cases hu : u = t
    · subst hu
      rw [heffected] at hcalls hanswers
      exact ⟨by simp [hcalls], by simp [hanswers]⟩
    · simp [Told, hu, hcalls, hanswers, status_other hu]

/-- The calls of a thread take effect in the order in which it makes them, each with its own answer. -/
theorem Trace.told {s : S} (h : Trace effect (Obj.init s) w o) (t : T) : Told w o t := by
  induction h with
  | nil => exact ⟨rfl, rfl⟩
  | snoc _ hmove ih => exact ih.move hmove

/-- A machine whose steps are simulated by moves of the object makes calls and answers of the object. -/
theorem trace_of_simulation {σ ι ε : Type*} {step : σ → ι → Except ε σ} {events : σ → ι → List (Event T Op Res)}
    {R : σ → Obj T S Op Res → Prop}
    (hstep : ∀ s a o, R s o → ∃ s', step s a = .ok s' ∧ ∃ o', Trace effect o (events s a) o' ∧ R s' o')
    {s : σ} (hs : R s o) (as : List ι) :
    ∃ u, final (recorded step events) (s, []) as = .ok u ∧ ∃ o', Trace effect o u.2 o' ∧ R u.1 o' := by
  have hkeep : ∀ (v : σ × List (Event T Op Res)) a, (∃ o', Trace effect o v.2 o' ∧ R v.1 o') → True →
      ∃ v', recorded step events v a = .ok v' ∧ ∃ o', Trace effect o v'.2 o' ∧ R v'.1 o' := by
    rintro v a ⟨o', htrace, hR⟩ -
    obtain ⟨s', hs', o'', hmore, hR'⟩ := hstep v.1 a o' hR
    exact ⟨_, recorded_of_ok hs', o'', htrace.trans hmore, hR'⟩
  have hfree : Along (recorded step events) (fun _ _ => True) (s, []) as := along_of_forall fun _ _ => trivial
  exact (throughout_of_invariant hkeep ⟨o, .nil, hs⟩ hfree).final

end Traces

section Bodies
variable {L ε : Type*}

/-- The code of a call goes on, or ends with a result. -/
inductive Outcome (S L Res : Type*) where
  | more (s : S) (l : L)
  | ended (s : S) (r : Res)

/-- Code that runs alone ends with some data and a result. -/
inductive Ends (body : S → L → Except ε (Outcome S L Res)) : S → L → S × Res → Prop
  | last {s s' : S} {l : L} {r : Res} (h : body s l = .ok (.ended s' r)) : Ends body s l (s', r)
  | more {s s' : S} {l l' : L} {x : S × Res} (h : body s l = .ok (.more s' l')) (hrest : Ends body s' l' x) : Ends body s l x

variable {body : S → L → Except ε (Outcome S L Res)} {s : S} {l : L} {x : S × Res}

theorem Ends.step (h : Ends body s l x) :
    body s l = .ok (.ended x.1 x.2) ∨ ∃ s' l', body s l = .ok (.more s' l') ∧ Ends body s' l' x := by
  cases h with
  | last h => exact .inl h
  | more h hrest => exact .inr ⟨_, _, h, hrest⟩

end Bodies

end LibXpf.AtomicObjects
