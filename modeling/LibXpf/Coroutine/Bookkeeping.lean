import LibXpf.Coroutine.Manager

/-! # The manager follows the running coroutine

The manager is updated before control leaves a coroutine, and looked at again
when some later switch resumes it. What carries over is that every saved context
belongs to the coroutine whose handle is the key of its slot, and that the
running coroutine is the one whose handle is the current context.
-/
namespace LibXpf.Coroutine
open Std GuardedRuns

/-- The calls the running coroutine may make: the heap gives memory that no
coroutine occupies, and neither the running coroutine nor the main one is
deleted. A switch may name any handle. -/
def Admits (b : Backend) (w : World) : Op → Prop
  | .create _ _ _ slotAddress stackAddress =>
    b.key slotAddress stackAddress ≠ 0 ∧ b.key slotAddress stackAddress ∉ w.given
  | .switchTo _ => True
  | .delete coroutine =>
    (∀ birth ∈ w.births[w.running]?, coroutine ≠ birth.handle) ∧
      ∀ birth ∈ w.births[0]?, coroutine ≠ birth.handle

instance (b : Backend) (w : World) : (op : Op) → Decidable (Admits b w op)
  | .create .. => inferInstanceAs (Decidable (_ ∧ _))
  | .switchTo _ => isTrue trivial
  | .delete _ => inferInstanceAs (Decidable (_ ∧ _))

/-- Control has gone to a coroutine created with `data`, which finds it as the
argument of its body, or finds the assertion behind its own switch true. -/
def Arrival.Sound (data : ℕ) : Arrival → Prop
  | .returned => False
  | .entered argument => argument = data
  | .resumed assertion => assertion = true

/-- What the running coroutine finds, and what any switch it makes will do. -/
structure Follows (b : Backend) (build : Build) (w : World) : Prop where
  registered : ∃ mgr, w.tls = some mgr ∧ mgr.MainContext ∈ mgr.Slots ∧ mgr.CurrentContext ∈ mgr.Slots
  running : ∃ birth, w.births[w.running]? = some birth ∧
    getCurrentCoroutine build w = .ok birth.handle ∧ getCoroutineData build w = .ok birth.data
  switches : ∀ c ∈ w.given, getCurrentCoroutine build w ≠ .ok c →
    ∃ arrival w' birth, b.switchToCoroutine build w c = .ok (arrival, w') ∧ arrival.Sound birth.data ∧
      w'.births[w'.running]? = some birth ∧ birth.handle = c
  stays : ∀ c, c = 0 ∨ getCurrentCoroutine build w = .ok c →
    b.switchToCoroutine build w c = .ok (.returned, w)
  unknown : ∀ c, c ∉ w.given → c ≠ 0 → b.switchToCoroutine build w c =
    (build.xpfAssert "Switching to an un-recognized coroutine." False).map fun _ => (.returned, w)

/-- The argument a body starts with, where the backend keeps it in the context. -/
def Backend.Keeps : Backend → Option ℕ → ℕ → Prop
  | .ucontext, argument, data => argument = some data
  | .fcontext, argument, _ => argument = none

/-- The context resumes the coroutine that was created with this handle and data. -/
def Continuation.Of (b : Backend) (births : List Birth) (key : Address) (data : ℕ) : Continuation → Prop
  | .unset => False
  | .entry i argument => births[i]? = some ⟨key, data⟩ ∧ b.Keeps argument data
  | .afterSwitch i caller => births[i]? = some ⟨key, data⟩ ∧ caller = key

/-- The invariant of the manager. -/
structure Coherent (b : Backend) (w : World) (mgr : CoroutineManager) : Prop where
  zero : 0 ∉ mgr.Slots
  given : ∀ a, a ∈ w.given ↔ a ∈ mgr.Slots
  mainSlot : mgr.MainContext ∈ mgr.Slots
  mainBirth : ∃ data, w.births[0]? = some ⟨mgr.MainContext, data⟩
  current : ∃ slot, mgr.Slots[mgr.CurrentContext]? = some slot ∧
    w.births[w.running]? = some ⟨mgr.CurrentContext, slot.Data⟩
  saved : ∀ (a : Address) (slot : CoroutineSlot), mgr.Slots[a]? = some slot → a ≠ mgr.CurrentContext →
    slot.Context.Of b w.births a slot.Data
  buffer : b = .fcontext → ∀ (a : Address) (slot : CoroutineSlot), mgr.Slots[a]? = some slot → slot.StackBuffer = a

/-- The thread has a manager in order. -/
def Managed (b : Backend) (w : World) : Prop := ∃ mgr, w.tls = some mgr ∧ Coherent b w mgr

section Slots
variable {slots : TreeMap Address CoroutineSlot} {a k : Address} {slot : CoroutineSlot}

theorem getElem?_insert_self : (slots.insert k slot)[k]? = some slot := by
  rw [TreeMap.getElem?_insert_self]

theorem getElem?_insert_of_ne (h : k ≠ a) : (slots.insert k slot)[a]? = slots[a]? := by
  rw [TreeMap.getElem?_insert, if_neg (by rwa [Std.compare_eq_iff_eq])]

theorem getElem?_insertIfNew_self (h : k ∉ slots) : (slots.insertIfNew k slot)[k]? = some slot := by
  rw [TreeMap.getElem?_insertIfNew, if_pos ⟨Std.compare_eq_iff_eq.mpr rfl, h⟩]

theorem getElem?_insertIfNew_of_ne (h : k ≠ a) : (slots.insertIfNew k slot)[a]? = slots[a]? := by
  rw [TreeMap.getElem?_insertIfNew, if_neg (by rw [Std.compare_eq_iff_eq]; exact fun hk => h hk.1)]

theorem mem_iff_getElem? : a ∈ slots ↔ ∃ slot, slots[a]? = some slot := by
  rw [TreeMap.mem_iff_isSome_getElem?, Option.isSome_iff_exists]

end Slots

theorem getElem?_born {births : List Birth} {i : Instance} {birth new : Birth} (h : births[i]? = some birth) :
    (births ++ [new])[i]? = some birth := by
  obtain ⟨hlt, _⟩ := List.getElem?_eq_some_iff.mp h
  exact (List.getElem?_append_left hlt).trans h

theorem Continuation.Of.born {b : Backend} {births : List Birth} {key : Address} {data : ℕ} {new : Birth}
    {c : Continuation} (h : c.Of b births key data) : c.Of b (births ++ [new]) key data := by
  cases c with
  | unset => exact h
  | entry i argument => exact ⟨getElem?_born h.1, h.2⟩
  | afterSwitch i caller => exact ⟨getElem?_born h.1, h.2⟩

section Invariant
variable {b : Backend} {build : Build} {w : World} {mgr : CoroutineManager}

theorem Coherent.current_mem (h : Coherent b w mgr) : mgr.CurrentContext ∈ mgr.Slots := by
  obtain ⟨slot, hslot, _⟩ := h.current
  exact mem_iff_getElem?.mpr ⟨slot, hslot⟩

theorem assertNormalThread_ok (hw : w.tls = some mgr) : assertNormalThread build w = .ok () := by
  cases build with
  | debug => exact if_pos (by rw [hw]; rfl)
  | ndebug => rfl

theorem getCurrentCoroutine_eq (hw : w.tls = some mgr) :
    getCurrentCoroutine build w = .ok mgr.CurrentContext := by
  simp only [getCurrentCoroutine, assertNormalThread_ok hw, hw]
  rfl

theorem xpfAssert_ok {message : String} {condition : Prop} [Decidable condition] (h : condition) :
    build.xpfAssert message condition = .ok () := by
  cases build with
  | debug => exact if_pos h
  | ndebug => rfl

theorem Coherent.getCoroutineData_eq (h : Coherent b w mgr) (hw : w.tls = some mgr) {slot : CoroutineSlot}
    (hslot : mgr.Slots[mgr.CurrentContext]? = some slot) : getCoroutineData build w = .ok slot.Data := by
  simp only [getCoroutineData, assertNormalThread_ok hw, hw, xpfAssert_ok h.current_mem, hslot]
  rfl

section Creation

/-- One more coroutine in the manager. -/
theorem Coherent.enroll (h : Coherent b w mgr) {key : Address} {slot : CoroutineSlot} (hzero : key ≠ 0)
    (hfresh : key ∉ w.given) (hentry : slot.Context.Of b (w.births ++ [⟨key, slot.Data⟩]) key slot.Data)
    (hbuffer : b = .fcontext → slot.StackBuffer = key) :
    Coherent b (w.enroll mgr key slot) { mgr with Slots := mgr.Slots.insertIfNew key slot } := by
  have hnew : key ∉ mgr.Slots := fun hmem => hfresh ((h.given key).mpr hmem)
  have hmem : ∀ a : Address, a ∈ mgr.Slots.insertIfNew key slot ↔ key = a ∨ a ∈ mgr.Slots := by
    intro a
    rw [TreeMap.mem_insertIfNew, Std.compare_eq_iff_eq]
  -- an entry is the new one or an earlier one
  have hcases : ∀ (a : Address) (s : CoroutineSlot), (mgr.Slots.insertIfNew key slot)[a]? = some s →
      a = key ∧ s = slot ∨ mgr.Slots[a]? = some s := by
    intro a s hs
    by_cases hka : key = a
    · subst hka
      rw [getElem?_insertIfNew_self hnew] at hs
      exact .inl ⟨rfl, (Option.some.inj hs).symm⟩
    · rw [getElem?_insertIfNew_of_ne hka] at hs
      exact .inr hs
  constructor
  · intro h0
    rcases (hmem 0).mp h0 with h0 | h0
    · exact hzero h0
    · exact h.zero h0
  · intro a
    rw [hmem a, ← h.given a, World.enroll, List.mem_cons]
    exact or_congr_left eq_comm
  · exact (hmem _).mpr (.inr h.mainSlot)
  · obtain ⟨data, hdata⟩ := h.mainBirth
    exact ⟨data, getElem?_born hdata⟩
  · obtain ⟨current, hcurrent, hbirth⟩ := h.current
    have hne : key ≠ mgr.CurrentContext := fun heq => hnew (heq ▸ h.current_mem)
    exact ⟨current, (getElem?_insertIfNew_of_ne hne).trans hcurrent, getElem?_born hbirth⟩
  · intro a s hs hne
    rcases hcases a s hs with ⟨rfl, rfl⟩ | hold
    · exact hentry
    · exact (h.saved a s hold hne).born
  · intro hb a s hs
    rcases hcases a s hs with ⟨rfl, rfl⟩ | hold
    · exact hbuffer hb
    · exact h.buffer hb a s hold

/-- The slot that a backend makes for a new coroutine. -/
def Backend.newSlot (b : Backend) (i : Instance) (stackSize data : ℕ) (stackAddress : Address) : CoroutineSlot where
  Context := match b with
    | .ucontext => .entry i (some data)
    | .fcontext => .entry i none
  Data := data
  StackBuffer := stackAddress
  StackSize := if stackSize ≠ 0 then stackSize else defaultStackSize

theorem createCoroutine_eq (hw : w.tls = some mgr) (stackSize : ℕ) (body : Address) (data : ℕ)
    (slotAddress stackAddress : Address) :
    b.createCoroutine build w stackSize body data slotAddress stackAddress =
      if body = 0 then .ok (0, w) else
        .ok (b.key slotAddress stackAddress, w.enroll mgr (b.key slotAddress stackAddress)
          (b.newSlot w.births.length stackSize data stackAddress)) := by
  cases b with
  | ucontext =>
    simp only [Backend.createCoroutine, Ucontext.createCoroutine, assertNormalThread_ok hw, hw]
    rfl
  | fcontext =>
    simp only [Backend.createCoroutine, Fcontext.createCoroutine, assertNormalThread_ok hw, hw]
    rfl

theorem newSlot_context (stackSize data : ℕ) (stackAddress key : Address) :
    (b.newSlot w.births.length stackSize data stackAddress).Context.Of b (w.births ++ [⟨key, data⟩]) key data := by
  have hlast : (w.births ++ [⟨key, data⟩])[w.births.length]? = some ⟨key, data⟩ := List.getElem?_concat_length
  cases b with
  | ucontext => exact ⟨hlast, rfl⟩
  | fcontext => exact ⟨hlast, rfl⟩

end Creation

section Deletion

theorem deleteCoroutine_eq (hw : w.tls = some mgr) {coroutine : Address} (hzero : coroutine ≠ 0)
    (hcurrent : coroutine ≠ mgr.CurrentContext) (hmain : coroutine ≠ mgr.MainContext) :
    deleteCoroutine build w coroutine = .ok { w with
      tls := some { mgr with Slots := mgr.Slots.erase coroutine }
      given := w.given.filter (· ≠ coroutine) } := by
  simp only [deleteCoroutine, assertNormalThread_ok hw, hw]
  simp [hzero, hcurrent, hmain]

theorem deleteCoroutine_zero (hw : w.tls = some mgr) : deleteCoroutine build w 0 = .ok w := by
  simp only [deleteCoroutine, assertNormalThread_ok hw, hw]
  rfl

theorem Coherent.erase (h : Coherent b w mgr) {coroutine : Address}
    (hcurrent : coroutine ≠ mgr.CurrentContext) (hmain : coroutine ≠ mgr.MainContext) {tls : Option CoroutineManager} :
    Coherent b { w with
      tls := tls
      given := w.given.filter (· ≠ coroutine) } { mgr with Slots := mgr.Slots.erase coroutine } := by
  have hmem : ∀ a : Address, a ∈ mgr.Slots.erase coroutine ↔ a ≠ coroutine ∧ a ∈ mgr.Slots := by
    intro a
    rw [TreeMap.mem_erase, Ne, Std.compare_eq_iff_eq, ne_comm]
  have hof : ∀ (a : Address) (s : CoroutineSlot), (mgr.Slots.erase coroutine)[a]? = some s → mgr.Slots[a]? = some s := by
    intro a s hs
    have hne : a ≠ coroutine := ((hmem a).mp (mem_iff_getElem?.mpr ⟨s, hs⟩)).1
    rwa [TreeMap.getElem?_erase, if_neg (by rw [Std.compare_eq_iff_eq]; exact hne.symm)] at hs
  constructor
  · exact fun h0 => h.zero ((hmem 0).mp h0).2
  · intro a
    rw [hmem a, List.mem_filter, h.given a, decide_eq_true_iff, and_comm]
  · exact (hmem _).mpr ⟨hmain.symm, h.mainSlot⟩
  · exact h.mainBirth
  · obtain ⟨slot, hslot, hbirth⟩ := h.current
    refine ⟨slot, ?_, hbirth⟩
    rwa [TreeMap.getElem?_erase, if_neg (by rwa [Std.compare_eq_iff_eq])]
  · exact fun a s hs hne => h.saved a s (hof a s hs) hne
  · exact fun hb a s hs => h.buffer hb a s (hof a s hs)

end Deletion

section Switching
variable (build)

/-- The manager behind a switch: the caller's slot holds its switch point. -/
def CoroutineManager.switched (mgr : CoroutineManager) (slot : CoroutineSlot) (i : Instance)
    (coroutine : Address) : CoroutineManager where
  MainContext := mgr.MainContext
  CurrentContext := coroutine
  Slots := mgr.Slots.insert mgr.CurrentContext { slot with Context := .afterSwitch i mgr.CurrentContext }

theorem save_eq {slot : CoroutineSlot} (h : mgr.Slots[mgr.CurrentContext]? = some slot) (i : Instance)
    (coroutine : Address) :
    ({ mgr with CurrentContext := coroutine } : CoroutineManager).save mgr.CurrentContext
      (.afterSwitch i mgr.CurrentContext) = .ok (mgr.switched slot i coroutine) := by
  simp only [CoroutineManager.save, h]
  rfl

/-- A switch keeps the invariant for the coroutine it goes to. -/
theorem Coherent.switched (h : Coherent b w mgr) {slot target : CoroutineSlot} {coroutine : Address}
    {i : Instance} (hslot : mgr.Slots[mgr.CurrentContext]? = some slot)
    (hrunning : w.births[w.running]? = some ⟨mgr.CurrentContext, slot.Data⟩)
    (htarget : mgr.Slots[coroutine]? = some target) (hne : coroutine ≠ mgr.CurrentContext)
    (hbirth : w.births[i]? = some ⟨coroutine, target.Data⟩) {tls : Option CoroutineManager} :
    Coherent b { w with
      tls := tls
      running := i } (mgr.switched slot w.running coroutine) := by
  have hmem : ∀ a : Address, a ∈ (mgr.switched slot w.running coroutine).Slots ↔ a ∈ mgr.Slots := by
    intro a
    rw [CoroutineManager.switched, TreeMap.mem_insert, Std.compare_eq_iff_eq]
    constructor
    · rintro (rfl | ha)
      · exact h.current_mem
      · exact ha
    · exact .inr
  -- the caller's entry has a new context, the others are as they were
  have hcases : ∀ (a : Address) (s : CoroutineSlot), (mgr.switched slot w.running coroutine).Slots[a]? = some s →
      a = mgr.CurrentContext ∧ s = { slot with Context := .afterSwitch w.running mgr.CurrentContext } ∨
        a ≠ mgr.CurrentContext ∧ mgr.Slots[a]? = some s := by
    intro a s hs
    by_cases ha : mgr.CurrentContext = a
    · subst ha
      rw [CoroutineManager.switched, getElem?_insert_self] at hs
      exact .inl ⟨rfl, (Option.some.inj hs).symm⟩
    · rw [CoroutineManager.switched, getElem?_insert_of_ne ha] at hs
      exact .inr ⟨Ne.symm ha, hs⟩
  constructor
  · exact fun h0 => h.zero ((hmem 0).mp h0)
  · exact fun a => (h.given a).trans (hmem a).symm
  · exact (hmem _).mpr h.mainSlot
  · exact h.mainBirth
  · exact ⟨target, (getElem?_insert_of_ne hne.symm).trans htarget, hbirth⟩
  · intro a s hs _
    rcases hcases a s hs with ⟨rfl, rfl⟩ | ⟨hold, hs⟩
    · exact ⟨hrunning, rfl⟩
    · exact h.saved a s hs hold
  · intro hb a s hs
    rcases hcases a s hs with ⟨rfl, rfl⟩ | ⟨_, hs⟩
    · exact h.buffer hb _ slot hslot
    · exact h.buffer hb a s hs

/-- Resuming the context of a slot runs the coroutine that the slot is for. -/
theorem Ucontext.resume_ok {data : ℕ} {context : Continuation}
    (h : context.Of .ucontext w.births mgr.CurrentContext data) :
    ∃ arrival i, Ucontext.resume build w mgr context = .ok (arrival, { w with
      tls := some mgr
      running := i }) ∧ arrival.Sound data ∧ w.births[i]? = some ⟨mgr.CurrentContext, data⟩ := by
  cases context with
  | unset => exact h.elim
  | entry i argument =>
    obtain ⟨hbirth, rfl⟩ := h
    exact ⟨.entered data, i, rfl, rfl, hbirth⟩
  | afterSwitch i caller =>
    obtain ⟨hbirth, rfl⟩ := h
    refine ⟨.resumed true, i, ?_, rfl, hbirth⟩
    simp only [Ucontext.resume, xpfAssert_ok, decide_true]
    rfl

theorem Fcontext.resume_ok {data : ℕ} {context : Continuation} {slot : CoroutineSlot}
    (h : context.Of .fcontext w.births mgr.CurrentContext data)
    (hslot : mgr.Slots[mgr.CurrentContext]? = some slot) (hbuffer : slot.StackBuffer = mgr.CurrentContext) :
    ∃ arrival i, Fcontext.resume build w mgr data context = .ok (arrival, { w with
      tls := some mgr
      running := i }) ∧ arrival.Sound data ∧ w.births[i]? = some ⟨mgr.CurrentContext, data⟩ := by
  cases context with
  | unset => exact h.elim
  | entry i argument =>
    obtain ⟨hbirth, rfl⟩ := h
    exact ⟨.entered data, i, rfl, rfl, hbirth⟩
  | afterSwitch i caller =>
    obtain ⟨hbirth, rfl⟩ := h
    refine ⟨.resumed true, i, ?_, rfl, hbirth⟩
    simp only [Fcontext.resume, hslot, hbuffer, xpfAssert_ok, decide_true]
    rfl

/-- A switch to another coroutine of the manager. -/
theorem Coherent.switchToCoroutine_eq (h : Coherent b w mgr) (hw : w.tls = some mgr)
    {slot target : CoroutineSlot} {coroutine : Address} (hslot : mgr.Slots[mgr.CurrentContext]? = some slot)
    (htarget : mgr.Slots[coroutine]? = some target) (hne : coroutine ≠ mgr.CurrentContext) :
    ∃ arrival i, b.switchToCoroutine build w coroutine = .ok (arrival, { w with
      tls := some (mgr.switched slot w.running coroutine)
      running := i }) ∧ arrival.Sound target.Data ∧ w.births[i]? = some ⟨coroutine, target.Data⟩ := by
  have hmem : coroutine ∈ mgr.Slots := mem_iff_getElem?.mpr ⟨target, htarget⟩
  have hzero : coroutine ≠ 0 := fun heq => h.zero (heq ▸ hmem)
  have hother : (mgr.switched slot w.running coroutine).Slots[coroutine]? = some target :=
    (getElem?_insert_of_ne hne.symm).trans htarget
  have hof : target.Context.Of b w.births (mgr.switched slot w.running coroutine).CurrentContext target.Data :=
    h.saved coroutine target htarget hne
  cases b with
  | ucontext =>
    obtain ⟨arrival, i, hresume, harrival, hbirth⟩ := Ucontext.resume_ok
      build hof
    refine ⟨arrival, i, ?_, harrival, hbirth⟩
    simp only [Backend.switchToCoroutine, Ucontext.switchToCoroutine, assertNormalThread_ok hw, hw,
      getCurrentCoroutine_eq hw, bind, Except.bind, hzero, hne, hmem, or_self, not_true_eq_false, ↓reduceIte,
      Ucontext.swapcontext, save_eq hslot, hother]
    exact hresume
  | fcontext =>
    obtain ⟨arrival, i, hresume, harrival, hbirth⟩ := Fcontext.resume_ok build hof hother
      (h.buffer rfl coroutine target htarget)
    refine ⟨arrival, i, ?_, harrival, hbirth⟩
    simp only [Backend.switchToCoroutine, Fcontext.switchToCoroutine, assertNormalThread_ok hw, hw,
      getCurrentCoroutine_eq hw, bind, Except.bind, hzero, hne, hmem, h.current_mem, or_self, not_true_eq_false,
      ↓reduceIte, Fcontext.jumpFcontext, htarget, save_eq hslot]
    exact hresume

/-- A switch to the current coroutine or to the null handle. -/
theorem switchToCoroutine_stays (hw : w.tls = some mgr) {coroutine : Address}
    (h : coroutine = 0 ∨ coroutine = mgr.CurrentContext) :
    b.switchToCoroutine build w coroutine = .ok (.returned, w) := by
  cases b with
  | ucontext =>
    simp only [Backend.switchToCoroutine, Ucontext.switchToCoroutine, assertNormalThread_ok hw, hw,
      getCurrentCoroutine_eq hw, bind, Except.bind, h, ↓reduceIte]
    rfl
  | fcontext =>
    simp only [Backend.switchToCoroutine, Fcontext.switchToCoroutine, assertNormalThread_ok hw, hw,
      getCurrentCoroutine_eq hw, bind, Except.bind, h, ↓reduceIte]
    rfl

/-- A switch to a handle that the manager does not have: nothing but the
assertion happens. -/
theorem switchToCoroutine_unknown (hw : w.tls = some mgr) {coroutine : Address} (hzero : coroutine ≠ 0)
    (hcurrent : coroutine ≠ mgr.CurrentContext) (hmem : coroutine ∉ mgr.Slots) :
    b.switchToCoroutine build w coroutine =
      (build.xpfAssert "Switching to an un-recognized coroutine." False).map fun _ => (.returned, w) := by
  cases b with
  | ucontext =>
    simp only [Backend.switchToCoroutine, Ucontext.switchToCoroutine, assertNormalThread_ok hw, hw,
      getCurrentCoroutine_eq hw, bind, Except.bind, hzero, hcurrent, hmem, or_self, not_false_eq_true, ↓reduceIte]
    rfl
  | fcontext =>
    simp only [Backend.switchToCoroutine, Fcontext.switchToCoroutine, assertNormalThread_ok hw, hw,
      getCurrentCoroutine_eq hw, bind, Except.bind, hzero, hcurrent, hmem, or_self, not_false_eq_true, ↓reduceIte]
    rfl

end Switching

theorem Coherent.follows (h : Coherent b w mgr) (hw : w.tls = some mgr) : Follows b build w := by
  obtain ⟨slot, hslot, hbirth⟩ := h.current
  have hcurrent : ∀ c, getCurrentCoroutine build w = .ok c ↔ c = mgr.CurrentContext := by
    intro c
    rw [getCurrentCoroutine_eq hw, Except.ok.injEq, eq_comm]
  constructor
  · exact ⟨mgr, hw, h.mainSlot, h.current_mem⟩
  · exact ⟨_, hbirth, getCurrentCoroutine_eq hw, h.getCoroutineData_eq hw hslot⟩
  · intro c hc hne
    obtain ⟨target, htarget⟩ := mem_iff_getElem?.mp ((h.given c).mp hc)
    obtain ⟨arrival, i, hswitch, harrival, htbirth⟩ := h.switchToCoroutine_eq build hw hslot htarget
      (fun heq => hne ((hcurrent c).mpr heq))
    exact ⟨arrival, _, ⟨c, target.Data⟩, hswitch, harrival, htbirth, rfl⟩
  · intro c hc
    exact switchToCoroutine_stays build hw (hc.imp id (hcurrent c).mp)
  · intro c hc hzero
    have hmem : c ∉ mgr.Slots := fun hm => hc ((h.given c).mpr hm)
    exact switchToCoroutine_unknown build hw hzero (fun heq => hmem (heq ▸ h.current_mem)) hmem

/-- Every admitted call that control comes back from keeps the invariant. -/
theorem Coherent.step (h : Coherent b w mgr) (hw : w.tls = some mgr) {op : Op} (hadmits : Admits b w op)
    {w' : World} (hstep : b.step build w op = .ok w') : Managed b w' := by
  cases op with
  | create stackSize body data slotAddress stackAddress =>
    obtain ⟨hzero, hfresh⟩ := hadmits
    simp only [Backend.step, createCoroutine_eq hw] at hstep
    split at hstep
    · obtain rfl := Except.ok.inj hstep
      exact ⟨mgr, hw, h⟩
    · obtain rfl := Except.ok.inj hstep
      refine ⟨_, rfl, h.enroll hzero hfresh (newSlot_context stackSize data stackAddress _) ?_⟩
      rintro rfl
      rfl
  | switchTo coroutine =>
    obtain ⟨slot, hslot, hrunning⟩ := h.current
    by_cases hstays : coroutine = 0 ∨ coroutine = mgr.CurrentContext
    · rw [Backend.step, switchToCoroutine_stays build hw hstays] at hstep
      obtain rfl := Except.ok.inj hstep
      exact ⟨mgr, hw, h⟩
    · obtain ⟨hzero, hne⟩ := not_or.mp hstays
      by_cases hmem : coroutine ∈ mgr.Slots
      · obtain ⟨target, htarget⟩ := mem_iff_getElem?.mp hmem
        obtain ⟨arrival, i, hswitch, _, hbirth⟩ := h.switchToCoroutine_eq build hw hslot htarget hne
        rw [Backend.step, hswitch] at hstep
        obtain rfl := Except.ok.inj hstep
        exact ⟨_, rfl, h.switched hslot hrunning htarget hne hbirth⟩
      · rw [Backend.step, switchToCoroutine_unknown build hw hzero hne hmem] at hstep
        cases build with
        | debug => cases hstep
        | ndebug =>
          obtain rfl := Except.ok.inj hstep
          exact ⟨mgr, hw, h⟩
  | delete coroutine =>
    obtain ⟨hrunning, hmain⟩ := hadmits
    obtain ⟨_, _, hbirth⟩ := h.current
    obtain ⟨_, hfirst⟩ := h.mainBirth
    have hnotCurrent : coroutine ≠ mgr.CurrentContext := hrunning _ hbirth
    have hnotMain : coroutine ≠ mgr.MainContext := hmain _ hfirst
    by_cases hzero : coroutine = 0
    · subst hzero
      rw [Backend.step, deleteCoroutine_zero hw] at hstep
      obtain rfl := Except.ok.inj hstep
      exact ⟨mgr, hw, h⟩
    · rw [Backend.step, deleteCoroutine_eq hw hzero hnotCurrent hnotMain] at hstep
      obtain rfl := Except.ok.inj hstep
      exact ⟨_, rfl, h.erase hnotCurrent hnotMain⟩

/-- The manager of a thread that has only its main coroutine. -/
theorem managed_install {key : Address} {slot : CoroutineSlot} (hzero : key ≠ 0)
    (hbuffer : b = .fcontext → slot.StackBuffer = key) : Managed b (thread.install key slot) := by
  have hmem : ∀ a : Address, a ∈ (∅ : TreeMap Address CoroutineSlot).insertIfNew key slot ↔ a = key := by
    intro a
    rw [TreeMap.mem_insertIfNew, Std.compare_eq_iff_eq, eq_comm]
    exact or_iff_left TreeMap.not_mem_emptyc
  have hself : ((∅ : TreeMap Address CoroutineSlot).insertIfNew key slot)[key]? = some slot :=
    getElem?_insertIfNew_self TreeMap.not_mem_emptyc
  have hof : ∀ (a : Address) (s : CoroutineSlot),
      ((∅ : TreeMap Address CoroutineSlot).insertIfNew key slot)[a]? = some s → a = key ∧ s = slot := by
    intro a s hs
    obtain rfl := (hmem a).mp (mem_iff_getElem?.mpr ⟨s, hs⟩)
    exact ⟨rfl, Option.some.inj (hs.symm.trans hself)⟩
  refine ⟨_, rfl, ?_⟩
  constructor
  · exact fun h0 => hzero ((hmem 0).mp h0).symm
  · exact fun a => List.mem_singleton.trans (hmem a).symm
  · exact (hmem key).mpr rfl
  · exact ⟨slot.Data, rfl⟩
  · exact ⟨slot, hself, rfl⟩
  · exact fun a s hs hne => (hne (hof a s hs).1).elim
  · intro hb a s hs
    obtain ⟨rfl, rfl⟩ := hof a s hs
    exact hbuffer hb

theorem managed_init (data : ℕ) {slotAddress : Address} (h : slotAddress ≠ 0) :
    Managed b (b.initThreadForCoroutines thread data slotAddress).2 := by
  cases b with
  | ucontext => exact managed_install h Backend.noConfusion
  | fcontext => exact managed_install (by decide) (fun _ => rfl)

end Invariant

/-- Two coroutines, entered one from the other; the second one deletes the first
and resumes the main coroutine. -/
def nestedOps : List Op :=
  [.create 0 1 10 100 200, .create 0 1 20 300 400, .switchTo 200, .switchTo 400, .delete 200, .switchTo 0x42]

end LibXpf.Coroutine
