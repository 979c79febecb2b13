import LibXpf.Platform
import LibXpf.Foundation.GuardedRuns
import Mathlib.Order.Compare

/-! # Coroutines of a thread

A thread keeps its coroutines in a manager behind thread-local storage. There
are two POSIX backends: one saves contexts with `swapcontext`, the other with
`jump_fcontext`. A context is modelled by where it resumes, and every coroutine
gets a serial number when it is created, so that the coroutine that really runs
can be told from the one the manager takes for the current one.
-/
namespace LibXpf.Coroutine
open Std GuardedRuns

abbrev Address := ℕ

/-- Which context primitives the library is built on. -/
inductive Backend where
  | ucontext
  | fcontext
  deriving DecidableEq, Repr

/-- Whether a failed runtime assertion stops the program. -/
inductive Build where
  | debug
  | ndebug
  deriving DecidableEq, Repr

/-- Why control does not come back to any coroutine of the thread. -/
inductive Halt where
  | assertion (message : String)
  | threadExit
  /-- Memory or a context is used that is gone. -/
  | undefined
  deriving DecidableEq, Repr

/-- `xpfAssert` under a build. -/
def Build.xpfAssert : Build → String → (condition : Prop) → [Decidable condition] → Except Halt Unit
  | .debug, message, condition, _ => if condition then .ok () else .error (.assertion message)
  | .ndebug, _, _, _ => .ok ()

/-- The serial number of a coroutine. -/
abbrev Instance := ℕ

/-- Where a saved context resumes. -/
inductive Continuation where
  /-- In a frame that has returned, or nowhere yet. -/
  | unset
  /-- At the start of the body, with the argument `makecontext` was given. -/
  | entry (i : Instance) (argument : Option ℕ)
  /-- In a call of `SwitchToCoroutine`; `caller` is its local `curctx` or the key
  its local `sit` points to. -/
  | afterSwitch (i : Instance) (caller : Address)
  deriving DecidableEq

structure CoroutineSlot where
  Context : Continuation
  Data : ℕ
  StackBuffer : Address
  StackSize : ℕ
  deriving DecidableEq

structure CoroutineManager where
  MainContext : Address
  CurrentContext : Address
  Slots : TreeMap Address CoroutineSlot

/-- What a coroutine was created with, and the handle its creator got. -/
structure Birth where
  handle : Address
  data : ℕ
  deriving DecidableEq

/-- A thread with its local storage. The manager knows nothing of the last three
fields: which coroutine runs, how each one was created, and the handles given
out and not deleted since. -/
structure World where
  tls : Option CoroutineManager
  running : Instance
  births : List Birth
  given : List Address

def thread : World := ⟨none, 0, [], []⟩

def defaultStackSize : ℕ := 1048576

/-- How a call of `SwitchToCoroutine` ends: it returns at once, or control turns
up at the start of a body, or behind the switch that the resumed coroutine made. -/
inductive Arrival where
  | returned
  | entered (argument : ℕ)
  | resumed (assertion : Bool)
  deriving DecidableEq

section Calls
variable (build : Build)

def assertNormalThread (w : World) : Except Halt Unit :=
  build.xpfAssert "Calling coroutine functions from a normal thread." (w.tls.isSome)

def getCurrentCoroutine (w : World) : Except Halt Address := do
  assertNormalThread build w
  match w.tls with
  | some mgr => return mgr.CurrentContext
  | none => return 0

def getCoroutineData (w : World) : Except Halt ℕ := do
  assertNormalThread build w
  match w.tls with
  | none => return 0
  | some mgr =>
    build.xpfAssert "No matching slot for current context." (mgr.CurrentContext ∈ mgr.Slots)
    match mgr.Slots[mgr.CurrentContext]? with
    | some slot => return slot.Data
    | none => return 0

/-- The manager with a first slot for the calling thread. -/
def World.install (w : World) (key : Address) (slot : CoroutineSlot) : World where
  tls := some { MainContext := key, CurrentContext := key, Slots := (∅ : TreeMap Address CoroutineSlot).insertIfNew key slot }
  running := w.births.length
  births := w.births ++ [⟨key, slot.Data⟩]
  given := key :: w.given

/-- The manager with one more slot. -/
def World.enroll (w : World) (mgr : CoroutineManager) (key : Address) (slot : CoroutineSlot) : World :=
  { w with
    tls := some { mgr with Slots := mgr.Slots.insertIfNew key slot }
    births := w.births ++ [⟨key, slot.Data⟩]
    given := key :: w.given }

/-- Storing the caller's context in its slot. -/
def CoroutineManager.save (mgr : CoroutineManager) (key : Address) (context : Continuation) :
    Except Halt CoroutineManager :=
  match mgr.Slots[key]? with
  | some slot => .ok { mgr with Slots := mgr.Slots.insert key { slot with Context := context } }
  | none => .error .undefined

/-- The text of the assertion behind a switch. -/
def afterSwitchText : String := "Current context check after swapcontext() returns."

namespace Ucontext

def initThreadForCoroutines (w : World) (data : ℕ) (slotAddress : Address) : Address × World :=
  match w.tls with
  | some mgr => (mgr.MainContext, w)
  | none => (slotAddress, w.install slotAddress { Context := .unset, Data := data, StackBuffer := 0, StackSize := 0 })

def createCoroutine (w : World) (stackSize : ℕ) (body : Address) (data : ℕ)
    (slotAddress stackAddress : Address) : Except Halt (Address × World) := do
  assertNormalThread build w
  match w.tls with
  | none => return (0, w)
  | some mgr =>
    if body = 0 then return (0, w)
    let slot : CoroutineSlot := {
      Context := .entry w.births.length (some data)
      Data := data
      StackBuffer := stackAddress
      StackSize := if stackSize ≠ 0 then stackSize else defaultStackSize }
    return (slotAddress, w.enroll mgr slotAddress slot)

/-- The return from `swapcontext` into a saved context. -/
def resume (w : World) (mgr : CoroutineManager) : Continuation → Except Halt (Arrival × World)
  | .unset => .error .undefined
  | .entry i argument => return (.entered (argument.getD 0), { w with tls := some mgr, running := i })
  | .afterSwitch i curctx => do
    build.xpfAssert afterSwitchText (mgr.CurrentContext = curctx)
    return (.resumed (mgr.CurrentContext = curctx), { w with tls := some mgr, running := i })

/-- The context of the caller goes to the first argument, and that in the second
one takes over. -/
def swapcontext (w : World) (mgr : CoroutineManager) (curctx coroutine : Address) :
    Except Halt (Arrival × World) := do
  let mgr ← mgr.save curctx (.afterSwitch w.running curctx)
  match mgr.Slots[coroutine]? with
  | none => .error .undefined
  | some slot => resume build w mgr slot.Context

def switchToCoroutine (w : World) (coroutine : Address) : Except Halt (Arrival × World) := do
  assertNormalThread build w
  match w.tls with
  | none => return (.returned, w)
  | some mgr =>
    if coroutine = 0 ∨ coroutine = (← getCurrentCoroutine build w) then return (.returned, w)
    if coroutine ∉ mgr.Slots then
      build.xpfAssert "Switching to an un-recognized coroutine." False
      return (.returned, w)
    let curctx := mgr.CurrentContext
    swapcontext build w { mgr with CurrentContext := coroutine } curctx coroutine

end Ucontext

namespace Fcontext

/-- The key of the main coroutine. -/
def mainKey : Address := 0x42

def initThreadForCoroutines (w : World) (data : ℕ) : Address × World :=
  match w.tls with
  | some mgr => (mgr.MainContext, w)
  | none => (mainKey, w.install mainKey { Context := .unset, Data := data, StackBuffer := mainKey, StackSize := 0 })

def createCoroutine (w : World) (stackSize : ℕ) (body : Address) (data : ℕ) (stackAddress : Address) :
    Except Halt (Address × World) := do
  assertNormalThread build w
  match w.tls with
  | none => return (0, w)
  | some mgr =>
    if body = 0 then return (0, w)
    let slot : CoroutineSlot := {
      Context := .entry w.births.length none
      Data := data
      StackBuffer := stackAddress
      StackSize := if stackSize ≠ 0 then stackSize else defaultStackSize }
    return (slot.StackBuffer, w.enroll mgr slot.StackBuffer slot)

/-- The return from `jump_fcontext` into a saved context; a body starts with the
value passed along. -/
def resume (w : World) (mgr : CoroutineManager) (passed : ℕ) :
    Continuation → Except Halt (Arrival × World)
  | .unset => .error .undefined
  | .entry i argument => return (.entered (argument.getD passed), { w with tls := some mgr, running := i })
  | .afterSwitch i sit => do
    match mgr.Slots[sit]? with
    | none => .error .undefined
    | some slot =>
      build.xpfAssert afterSwitchText (mgr.CurrentContext = slot.StackBuffer)
      return (.resumed (mgr.CurrentContext = slot.StackBuffer), { w with tls := some mgr, running := i })

/-- `sit` and `tit` are the keys of the two iterators. The arguments are read
before the caller's context is stored. -/
def jumpFcontext (w : World) (mgr : CoroutineManager) (sit tit : Address) :
    Except Halt (Arrival × World) := do
  match mgr.Slots[tit]? with
  | none => .error .undefined
  | some slot =>
    let mgr ← mgr.save sit (.afterSwitch w.running sit)
    resume build w mgr slot.Data slot.Context

def switchToCoroutine (w : World) (coroutine : Address) : Except Halt (Arrival × World) := do
  assertNormalThread build w
  match w.tls with
  | none => return (.returned, w)
  | some mgr =>
    if coroutine = 0 ∨ coroutine = (← getCurrentCoroutine build w) then return (.returned, w)
    if coroutine ∉ mgr.Slots then
      build.xpfAssert "Switching to an un-recognized coroutine." False
      return (.returned, w)
    let sit ← getCurrentCoroutine build w
    if sit ∉ mgr.Slots then
      build.xpfAssert "Switching from an un-recognized coroutine." False
      return (.returned, w)
    jumpFcontext build w { mgr with CurrentContext := coroutine } sit coroutine

end Fcontext

/-- The same text in both backends. Deleting the current or the main coroutine
releases everything and ends the thread. -/
def deleteCoroutine (w : World) (coroutine : Address) : Except Halt World := do
  assertNormalThread build w
  match w.tls with
  | none => return w
  | some mgr =>
    if coroutine = 0 then return w
    if coroutine ≠ mgr.CurrentContext ∧ coroutine ≠ mgr.MainContext then
      return { w with
        tls := some { mgr with Slots := mgr.Slots.erase coroutine }
        given := w.given.filter (· ≠ coroutine) }
    else
      build.xpfAssert "Unable to locate current context." (mgr.CurrentContext ∈ mgr.Slots)
      if mgr.CurrentContext ∈ mgr.Slots then .error .threadExit else .error .undefined

end Calls

/-- The calls of the running coroutine; `slotAddress` and `stackAddress` are
what the heap answers. -/
inductive Op where
  | create (stackSize : ℕ) (body : Address) (data : ℕ) (slotAddress stackAddress : Address)
  | switchTo (coroutine : Address)
  | delete (coroutine : Address)

namespace Backend

/-- The address that serves as the handle of a new coroutine. -/
def key : Backend → (slotAddress stackAddress : Address) → Address
  | .ucontext, slotAddress, _ => slotAddress
  | .fcontext, _, stackAddress => stackAddress

variable (b : Backend) (build : Build)

def initThreadForCoroutines (w : World) (data : ℕ) (slotAddress : Address) : Address × World :=
  match b with
  | .ucontext => Ucontext.initThreadForCoroutines w data slotAddress
  | .fcontext => Fcontext.initThreadForCoroutines w data

def createCoroutine (w : World) (stackSize : ℕ) (body : Address) (data : ℕ)
    (slotAddress stackAddress : Address) : Except Halt (Address × World) :=
  match b with
  | .ucontext => Ucontext.createCoroutine build w stackSize body data slotAddress stackAddress
  | .fcontext => Fcontext.createCoroutine build w stackSize body data stackAddress

def switchToCoroutine (w : World) (coroutine : Address) : Except Halt (Arrival × World) :=
  match b with
  | .ucontext => Ucontext.switchToCoroutine build w coroutine
  | .fcontext => Fcontext.switchToCoroutine build w coroutine

def step (w : World) : Op → Except Halt World
  | .create stackSize body data slotAddress stackAddress =>
    (b.createCoroutine build w stackSize body data slotAddress stackAddress).map Prod.snd
  | .switchTo coroutine => (b.switchToCoroutine build w coroutine).map Prod.snd
  | .delete coroutine => deleteCoroutine build w coroutine

end Backend

end LibXpf.Coroutine
