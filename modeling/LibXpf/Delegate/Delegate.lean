import LibXpf.Foundation.GuardedRuns
import LibXpf.Foundation.LinkedCells

/-! # Delegates

A delegate is a pointer to the newest of its functors, each of which points to the one that
was added before it. The functors lie in a heap that all delegates share, and an
allocation or the copy of a functor may throw. A functor that a delegate calls may use
any delegate, so a call is a step up to the functor, and every return of a functor
is another step.
-/
namespace LibXpf.Delegate

inductive Fault where
  | useAfterFree
  | doubleFree
  | nullDereference
  | diverges
  deriving DecidableEq, Repr

variable {F : Type}

structure DelegateImpl (F : Type) where
  functor : F
  previous : Option ℕ
  deriving DecidableEq, Repr

structure Heap (F : Type) where
  node : ℕ → Option (DelegateImpl F)
  nextNode : ℕ
  /-- How many copies of functors succeed before one throws, `none` if all do. -/
  copies : Option ℕ

namespace Heap

def read (h : Heap F) (a : ℕ) : Except Fault (DelegateImpl F) :=
  match h.node a with
  | none => .error .useAfterFree
  | some impl => .ok impl

def delete (h : Heap F) (a : ℕ) : Except Fault (Heap F) :=
  match h.node a with
  | none => .error .doubleFree
  | some _ => .ok { h with node := Function.update h.node a none }

/-- `new DelegateImpl`, `none` if it throws. -/
def new (h : Heap F) (f : F) : Option (Heap F × ℕ) :=
  if h.copies = some 0 then none
  else some
    ({ node := Function.update h.node h.nextNode (some ⟨f, none⟩)
       nextNode := h.nextNode + 1
       copies := h.copies.map (· - 1) }, h.nextNode)

/-- Writes through a pointer to a pointer: to `Previous` of a node, or to the pointer `head`. -/
def store (h : Heap F) (head pp p : Option ℕ) : Except Fault (Heap F × Option ℕ) :=
  match pp with
  | none => .ok (h, p)
  | some a => do
    let impl ← h.read a
    .ok ({ h with node := Function.update h.node a (some { impl with previous := p }) }, head)

def freeDelegateList : ℕ → Heap F → Option ℕ → Except Fault (Heap F)
  | _, h, none => .ok h
  | 0, _, some _ => .error .diverges
  | fuel + 1, h, some list => do
    let impl ← h.read list
    let h ← h.delete list
    freeDelegateList fuel h impl.previous

/-- The loop of `CloneDelegateList`. What was cloned is freed when a copy throws. -/
def cloneLoop : ℕ → Heap F → Option ℕ → Option ℕ → Option ℕ → Except Fault (Heap F × Option (Option ℕ))
  | _, h, none, newList, _ => .ok (h, some newList)
  | 0, _, some _, _, _ => .error .diverges
  | fuel + 1, h, some list2, newList, pp => do
    let impl ← h.read list2
    match h.new impl.functor with
    | none =>
      let h ← freeDelegateList h.nextNode h newList
      .ok (h, none)
    | some (h, temp) =>
      let (h, newList) ← h.store newList pp (some temp)
      let impl ← h.read list2
      cloneLoop fuel h impl.previous newList (some temp)

/-- The new list, `none` if a copy threw. -/
def cloneDelegateList (h : Heap F) (list : Option ℕ) : Except Fault (Heap F × Option (Option ℕ)) :=
  cloneLoop h.nextNode h list none none

/-- The nodes in the order in which `InvokeDelegateList` calls their functors. -/
def invokeDelegateList (h : Heap F) : ℕ → Option ℕ → Except Fault (List ℕ)
  | _, none => .ok []
  | 0, some _ => .error .diverges
  | fuel + 1, some list => do
    let impl ← h.read list
    let older ← h.invokeDelegateList fuel impl.previous
    .ok (older ++ [list])

section Operators

variable (same : F → F → Bool)

/-- The new value of `_last`, `none` if the copy threw. -/
def add (h : Heap F) (last : Option ℕ) (f : F) : Except Fault (Heap F × Option (Option ℕ)) :=
  match h.new f with
  | none => .ok (h, none)
  | some (h, d) => do
    let (h, _) ← h.store none (some d) last
    .ok (h, some (some d))

/-- `same` is the comparison after the cast to the type of the functor. -/
def removeLoop (h : Heap F) (f : F) : ℕ → (last d pp : Option ℕ) → Except Fault (Heap F × Option ℕ × Bool)
  | _, last, none, _ => .ok (h, last, false)
  | 0, _, some _, _ => .error .diverges
  | fuel + 1, last, some d, pp => do
    let impl ← h.read d
    if same impl.functor f then
      let (h, last) ← h.store last pp impl.previous
      let h ← h.delete d
      .ok (h, last, true)
    else h.removeLoop f fuel last impl.previous (some d)

def remove (h : Heap F) (last : Option ℕ) (f : F) : Except Fault (Heap F × Option ℕ × Bool) :=
  h.removeLoop same f h.nextNode last last none

/-- The assignment of a functor. -/
def assign (h : Heap F) (last : Option ℕ) (f : F) : Except Fault (Heap F × Option (Option ℕ)) :=
  match h.new f with
  | none => .ok (h, none)
  | some (h, d) => do
    let h ← freeDelegateList h.nextNode h last
    .ok (h, some (some d))

/-- The assignment of another delegate. -/
def assignDelegate (h : Heap F) (last other : Option ℕ) : Except Fault (Heap F × Option (Option ℕ)) := do
  let (h, list) ← h.cloneDelegateList other
  match list with
  | none => .ok (h, none)
  | some list =>
    let h ← freeDelegateList h.nextNode h last
    .ok (h, some list)

/-- The value of an expression is copied, and the temporary it was is destroyed, also
when the copy throws. -/
def returned (h : Heap F) (temp : Option ℕ) : Except Fault (Heap F × Option (Option ℕ)) := do
  let (h, result) ← h.assignDelegate none temp
  let h ← freeDelegateList h.nextNode h temp
  .ok (h, result)

/-- `operator+` -/
def plus (h : Heap F) (last : Option ℕ) (f : F) : Except Fault (Heap F × Option (Option ℕ)) := do
  let (h, copy) ← h.assignDelegate none last
  match copy with
  | none => .ok (h, none)
  | some temp =>
    let (h, sum) ← h.add temp f
    match sum with
    | none =>
      let h ← freeDelegateList h.nextNode h temp
      .ok (h, none)
    | some temp => h.returned temp

/-- `operator-` -/
def minus (h : Heap F) (last : Option ℕ) (f : F) : Except Fault (Heap F × Option (Option ℕ)) := do
  let (h, copy) ← h.assignDelegate none last
  match copy with
  | none => .ok (h, none)
  | some temp =>
    let (h, temp, _) ← h.remove same temp f
    h.returned temp

def isMulticast (h : Heap F) (last : Option ℕ) : Except Fault Bool :=
  match last with
  | none => .ok false
  | some d => do
    let impl ← h.read d
    .ok impl.previous.isSome

def equals (h : Heap F) (last : Option ℕ) (f : F) : Except Fault Bool :=
  match last with
  | none => .ok false
  | some d => do
    let impl ← h.read d
    if impl.previous.isSome then .ok false else .ok (same impl.functor f)

end Operators
end Heap

/-- A call of a delegate that has not returned. The last two fields are history. -/
structure Call (F : Type) where
  delegate : ℕ
  /-- The nodes whose functors `InvokeDelegateList` has still to call. -/
  pending : List ℕ
  /-- Whether the call through `_last` is in progress. -/
  atLast : Bool
  /-- The functors of the delegate when it was called, the newest first. -/
  functors : List F
  /-- The functors that were called. -/
  invoked : List F
  deriving Repr

inductive Outcome where
  | done
  | threw
  | answered (b : Bool)
  deriving DecidableEq, Repr

structure State (F : Type) where
  heap : Heap F
  /-- `_last` of the delegates that exist. -/
  last : ℕ → Option (Option ℕ)
  nextDelegate : ℕ
  /-- The calls in progress, the innermost first. -/
  calls : List (Call F)
  outcomes : List Outcome
  /-- History: the calls that came to their end. -/
  finished : List (Call F)

inductive Operation (F : Type) where
  | construct
  | constructFrom (f : F)
  | copyConstruct (d : ℕ)
  | destroy (d : ℕ)
  | add (d : ℕ) (f : F)
  | remove (d : ℕ) (f : F)
  | clear (d : ℕ)
  | assign (d : ℕ) (f : F)
  | assignDelegate (d e : ℕ)
  | plus (d : ℕ) (f : F)
  | minus (d : ℕ) (f : F)
  | equals (d : ℕ) (f : F)
  | isEmpty (d : ℕ)
  | isMulticast (d : ℕ)
  deriving Repr

def Operation.operands : Operation F → List ℕ
  | construct => []
  | constructFrom _ => []
  | copyConstruct d => [d]
  | destroy d => [d]
  | add d _ => [d]
  | remove d _ => [d]
  | clear d => [d]
  | assign d _ => [d]
  | assignDelegate d e => [d, e]
  | plus d _ => [d]
  | minus d _ => [d]
  | equals d _ => [d]
  | isEmpty d => [d]
  | isMulticast d => [d]

inductive Label (F : Type) where
  /-- An operation during which that many copies succeed. -/
  | operate (op : Operation F) (copies : Option ℕ)
  /-- Whether the functors of the delegate return nothing. -/
  | call (d : ℕ) (isVoid : Bool)
  /-- The functor that runs in the innermost call returns. -/
  | returned
  /-- It throws, and so does the call. -/
  | thrown
  deriving Repr

namespace State

variable (same : F → F → Bool)

def pointer (s : State F) (d : ℕ) : Option ℕ := (s.last d).join

/-- A new delegate, unless its construction threw. -/
def made (s : State F) (r : Heap F × Option (Option ℕ)) : State F × Outcome :=
  match r.2 with
  | none => ({ s with heap := r.1 }, .threw)
  | some last =>
    ({ s with
        heap := r.1
        last := Function.update s.last s.nextDelegate (some last)
        nextDelegate := s.nextDelegate + 1 }, .done)

/-- The delegate after an operation, as it was if that threw. -/
def assigned (s : State F) (d : ℕ) (r : Heap F × Option (Option ℕ)) : State F × Outcome :=
  match r.2 with
  | none => ({ s with heap := r.1 }, .threw)
  | some last => ({ s with heap := r.1, last := Function.update s.last d (some last) }, .done)

def operate (s : State F) : Operation F → Except Fault (State F × Outcome)
  | .construct => .ok (s.made (s.heap, some none))
  | .constructFrom f => do
    let r ← s.heap.assign none f
    .ok (s.made r)
  | .copyConstruct d => do
    let r ← s.heap.assignDelegate none (s.pointer d)
    .ok (s.made r)
  | .destroy d => do
    let h ← Heap.freeDelegateList s.heap.nextNode s.heap (s.pointer d)
    .ok ({ s with heap := h, last := Function.update s.last d none }, .done)
  | .add d f => do
    let r ← s.heap.add (s.pointer d) f
    .ok (s.assigned d r)
  | .remove d f => do
    let (h, last, b) ← s.heap.remove same (s.pointer d) f
    .ok ({ s with heap := h, last := Function.update s.last d (some last) }, .answered b)
  | .clear d => do
    let h ← Heap.freeDelegateList s.heap.nextNode s.heap (s.pointer d)
    .ok ({ s with heap := h, last := Function.update s.last d (some none) }, .done)
  | .assign d f => do
    let r ← s.heap.assign (s.pointer d) f
    .ok (s.assigned d r)
  | .assignDelegate d e =>
    if d = e then .ok (s, .done)
    else do
      let r ← s.heap.assignDelegate (s.pointer d) (s.pointer e)
      .ok (s.assigned d r)
  | .plus d f => do
    let r ← s.heap.plus (s.pointer d) f
    .ok (s.made r)
  | .minus d f => do
    let r ← s.heap.minus same (s.pointer d) f
    .ok (s.made r)
  | .equals d f => do
    let b ← s.heap.equals same (s.pointer d) f
    .ok (s, .answered b)
  | .isEmpty d => .ok (s, .answered (s.pointer d).isNone)
  | .isMulticast d => do
    let b ← s.heap.isMulticast (s.pointer d)
    .ok (s, .answered b)

/-- The innermost call goes on to its next functor, or ends. -/
def resume (s : State F) : Except Fault (State F) :=
  match s.calls with
  | [] => .ok s
  | call :: rest =>
    match call.pending with
    | a :: pending => do
      let impl ← s.heap.read a
      .ok { s with calls := { call with pending := pending, invoked := call.invoked ++ [impl.functor] } :: rest }
    | [] =>
      if call.atLast then .ok { s with calls := rest, finished := s.finished ++ [call] }
      else match s.last call.delegate with
        | none => .error .useAfterFree
        | some none => .error .nullDereference
        | some (some a) => do
          let impl ← s.heap.read a
          .ok { s with calls := { call with atLast := true, invoked := call.invoked ++ [impl.functor] } :: rest }

/-- The functors of a list, for the history of a call. -/
def functors (s : State F) : ℕ → Option ℕ → List F
  | _, none => []
  | 0, some _ => []
  | fuel + 1, some a =>
    match s.heap.node a with
    | none => []
    | some impl => impl.functor :: s.functors fuel impl.previous

/-- `operator()` up to the first functor. -/
def call (s : State F) (d : ℕ) (isVoid : Bool) : Except Fault (State F) :=
  match s.last d with
  | none => .ok s
  | some none => .ok { s with outcomes := s.outcomes ++ [if isVoid then .done else .threw] }
  | some (some a) => do
    let impl ← s.heap.read a
    let pending ← s.heap.invokeDelegateList s.heap.nextNode impl.previous
    resume { s with calls := ⟨d, pending, false, s.functors s.heap.nextNode (some a), []⟩ :: s.calls }

def initial : State F where
  heap := ⟨fun _ => none, 0, none⟩
  last _ := none
  nextDelegate := 0
  calls := []
  outcomes := []
  finished := []

end State

/-- An operation on a delegate that does not exist leaves the state alone. -/
def step (same : F → F → Bool) (s : State F) : Label F → Except Fault (State F)
  | .operate op copies =>
    if op.operands.all (fun d => (s.last d).isSome) then do
      let (t, outcome) ← { s with heap := { s.heap with copies := copies } }.operate same op
      .ok { t with outcomes := t.outcomes ++ [outcome] }
    else .ok s
  | .call d isVoid => s.call d isVoid
  | .returned => s.resume
  | .thrown => .ok { s with calls := s.calls.tail }

end LibXpf.Delegate
