import LibXpf.Tls.KeyConversions
import Mathlib.Data.Set.Function
import Mathlib.Order.Compare

/-! # `TlsMap`

A map from thread IDs to values behind one lock, so its calls follow one
another. Its default comparator is chosen from the value type. What a thread
observes of the map should depend on the calls made for that thread alone.
-/
namespace LibXpf.Tls
open Std

/-- `std::less<ValueType>` on two keys. -/
def ValueType.compareKeys (K : ValueType) : ThreadID → ThreadID → Ordering := compareOn K.convert

instance (K : ValueType) : TransCmp K.compareKeys := inferInstanceAs (TransCmp (compareOn K.convert))

/-- The storage; `V` is the value type itself, whose kind is `K`. -/
structure TlsMap (K : ValueType) (V : Type) where
  mMap : TreeMap ThreadID V K.compareKeys

namespace TlsMap
variable {K : ValueType} {V : Type}

def empty : TlsMap K V := ⟨∅⟩

/-- The ID a call is for; `self` is the ID of the calling thread. -/
def effective (self tid : ThreadID) : ThreadID := if 0 = tid then self else tid

def put (m : TlsMap K V) (self : ThreadID) (data : V) (replace : Bool) (tid : ThreadID) :
    Bool × TlsMap K V :=
  let tid := effective self tid
  let mMap := if replace then m.mMap.erase tid else m.mMap
  let (present, mMap) := mMap.containsThenInsertIfNew tid data
  (!present, ⟨mMap⟩)

def get (m : TlsMap K V) (self tid : ThreadID) : Option V := m.mMap[effective self tid]?

def clear (m : TlsMap K V) (self tid : ThreadID) : Bool × TlsMap K V :=
  let tid := effective self tid
  (m.mMap.contains tid, ⟨m.mMap.erase tid⟩)

end TlsMap

/-- The three calls, without the thread they are for. -/
inductive Op (V : Type) where
  | put (data : V) (replace : Bool)
  | get
  | clear

/-- What a call returns; `get` returns its value through a reference. -/
inductive Reply (V : Type) where
  | put (inserted : Bool)
  | get (found : Option V)
  | clear (erased : Bool)
  deriving DecidableEq

structure Call (V : Type) where
  self : ThreadID
  tid : ThreadID
  op : Op V

def Call.thread {V : Type} (c : Call V) : ThreadID := TlsMap.effective c.self c.tid

section Runs
variable {K : ValueType} {V : Type}

def step (m : TlsMap K V) (c : Call V) : Reply V × TlsMap K V :=
  match c.op with
  | .put data replace =>
    let (inserted, m) := m.put c.self data replace c.tid
    (.put inserted, m)
  | .get => (.get (m.get c.self c.tid), m)
  | .clear =>
    let (erased, m) := m.clear c.self c.tid
    (.clear erased, m)

/-- The replies of a sequence of calls, each with the thread it was for. -/
def replies (m : TlsMap K V) : List (Call V) → List (ThreadID × Reply V)
  | [] => []
  | c :: rest => (c.thread, (step m c).1) :: replies (step m c).2 rest

/-- Storage for one thread: what `put` stored last, unless cleared since. -/
def cellStep (cell : Option V) : Op V → Reply V × Option V
  | .put data replace =>
    if replace ∨ cell = none then (.put true, some data) else (.put false, cell)
  | .get => (.get cell, cell)
  | .clear => (.clear cell.isSome, none)

def cellReplies (cell : Option V) : List (Op V) → List (Reply V)
  | [] => []
  | op :: rest => (cellStep cell op).1 :: cellReplies (cellStep cell op).2 rest

/-- What is observed for each thread is what its own calls give, on storage of
its own. -/
def Isolated (K : ValueType) (calls : List (Call V)) : Prop :=
  ∀ t, ((replies (TlsMap.empty : TlsMap K V) calls).filter (fun r => r.1 = t)).map Prod.snd =
    cellReplies none ((calls.filter (fun c => c.thread = t)).map Call.op)

end Runs

section Steps
variable {K : ValueType} {V : Type} {m : TlsMap K V} {c : Call V} {s t : ThreadID}

theorem compareKeys_eq_iff : K.compareKeys s t = .eq ↔ K.convert s = K.convert t := by
  rw [ValueType.compareKeys, compareOn, Std.compare_eq_iff_eq]

section Equations

/-- The entries that `put` inserts into. -/
def putBase (m : TlsMap K V) (t : ThreadID) (replace : Bool) : TreeMap ThreadID V K.compareKeys :=
  if replace then m.mMap.erase t else m.mMap

theorem step_put {data : V} {replace : Bool} (hop : c.op = .put data replace) :
    step m c = (.put (!(putBase m c.thread replace).contains c.thread),
      ⟨(putBase m c.thread replace).insertIfNew c.thread data⟩) := by
  simp only [step, hop, TlsMap.put, TreeMap.containsThenInsertIfNew_fst,
    TreeMap.containsThenInsertIfNew_snd]
  rfl

theorem step_get (hop : c.op = .get) : step m c = (.get m.mMap[c.thread]?, m) := by
  simp only [step, hop]
  rfl

theorem step_clear (hop : c.op = .clear) :
    step m c = (.clear (m.mMap.contains c.thread), ⟨m.mMap.erase c.thread⟩) := by
  simp only [step, hop]
  rfl

end Equations

/-- A call leaves alone what is stored under keys that convert to other values. -/
theorem step_other (h : K.convert c.thread ≠ K.convert t) : (step m c).2.mMap[t]? = m.mMap[t]? := by
  have hne : K.compareKeys c.thread t ≠ .eq := fun heq => h (compareKeys_eq_iff.mp heq)
  cases hop : c.op with
  | put data replace =>
    have hbase : (putBase m c.thread replace)[t]? = m.mMap[t]? := by
      cases replace with
      | false => rfl
      | true =>
        rw [putBase, if_pos rfl, TreeMap.getElem?_erase]
        exact if_neg hne
    rw [step_put hop, TreeMap.getElem?_insertIfNew, if_neg (fun hsame => hne hsame.1), hbase]
  | get => rw [step_get hop]
  | clear =>
    rw [step_clear hop, TreeMap.getElem?_erase]
    exact if_neg hne

/-- Whether an entry is there and what it holds, after it was tried to insert. -/
theorem insertIfNew_own {entries : TreeMap ThreadID V K.compareKeys} {data : V} :
    (!entries.contains t, (entries.insertIfNew t data)[t]?) =
      if entries[t]? = none then (true, some data) else (false, entries[t]?) := by
  have hself : K.compareKeys t t = .eq := compareKeys_eq_iff.mpr rfl
  rw [TreeMap.getElem?_insertIfNew, TreeMap.contains_eq_isSome_getElem?]
  cases hentry : entries[t]? with
  | none =>
    have hnot : t ∉ entries := by
      rw [TreeMap.mem_iff_isSome_getElem?, hentry]
      exact Bool.false_ne_true
    rw [if_pos ⟨hself, hnot⟩, if_pos rfl]
    rfl
  | some v =>
    have hmem : t ∈ entries := by
      rw [TreeMap.mem_iff_isSome_getElem?, hentry]
      rfl
    rw [if_neg (fun hnew => hnew.2 hmem), if_neg (Option.some_ne_none v)]
    rfl

/-- What a call replies and does to the entry of its own thread. -/
theorem step_own : ((step m c).1, (step m c).2.mMap[c.thread]?) = cellStep m.mMap[c.thread]? c.op := by
  have hself : K.compareKeys c.thread c.thread = .eq := compareKeys_eq_iff.mpr rfl
  cases hop : c.op with
  | put data replace =>
    have hbase : (putBase m c.thread replace)[c.thread]? =
        if replace then none else m.mMap[c.thread]? := by
      cases replace with
      | false => rfl
      | true =>
        rw [putBase, if_pos rfl, TreeMap.getElem?_erase]
        exact if_pos hself
    obtain ⟨hcontains, hentry⟩ : (!(putBase m c.thread replace).contains c.thread) =
          decide (replace = true ∨ m.mMap[c.thread]? = none) ∧
        ((putBase m c.thread replace).insertIfNew c.thread data)[c.thread]? =
          if replace = true ∨ m.mMap[c.thread]? = none then some data else m.mMap[c.thread]? := by
      have hput := @insertIfNew_own K V c.thread (putBase m c.thread replace) data
      rw [hbase] at hput
      cases replace <;> cases hcell : m.mMap[c.thread]? <;> simpa [hcell] using hput
    rw [step_put hop, cellStep, hcontains, hentry]
    split <;> simp_all
  | get => rw [step_get hop, cellStep]
  | clear =>
    rw [step_clear hop, cellStep, TreeMap.contains_eq_isSome_getElem?, TreeMap.getElem?_erase, if_pos hself]

end Steps

section Isolation
variable {K : ValueType} {V : Type} {m : TlsMap K V}

/-- Where the other calls are for keys that convert to other values, a thread
observes its own calls on its own entry. -/
theorem observed_eq (t : ThreadID) {calls : List (Call V)}
    (h : ∀ c ∈ calls, c.thread ≠ t → K.convert c.thread ≠ K.convert t) :
    ((replies m calls).filter (fun r => r.1 = t)).map Prod.snd =
      cellReplies m.mMap[t]? ((calls.filter (fun c => c.thread = t)).map Call.op) := by
  induction calls generalizing m with
  | nil => rfl
  | cons c rest ih =>
    have hrest := @ih (step m c).2 (fun d hd => h d (List.mem_cons_of_mem c hd))
    by_cases hct : c.thread = t
    · subst hct
      have hreply := congrArg Prod.fst (@step_own K V m c)
      have hentry := congrArg Prod.snd (@step_own K V m c)
      dsimp only at hreply hentry
      simp only [replies, List.filter_cons, decide_true, if_true, List.map_cons, cellReplies]
      rw [hrest, hreply, hentry]
    · have hother := step_other (m := m) (h c List.mem_cons_self hct)
      have hfalse : decide (c.thread = t) = false := decide_eq_false hct
      simp only [replies, List.filter_cons, hfalse, Bool.false_eq_true, if_false]
      rw [hrest, hother]

theorem replies_threads (calls : List (Call V)) :
    (replies m calls).map Prod.fst = calls.map Call.thread := by
  induction calls generalizing m with
  | nil => rfl
  | cons c rest ih => rw [replies, List.map_cons, List.map_cons, ih]

/-- For every value type and every set of thread IDs: what each thread observes
depends on its own calls alone, in every run for these threads, if and only if
the value type tells the IDs apart. -/
theorem isolated_iff_injOn (K : ValueType) (V : Type) [Inhabited V] (ids : Set ThreadID) :
    (∀ calls : List (Call V), (∀ c ∈ calls, c.thread ∈ ids) → Isolated K calls) ↔
      Set.InjOn K.convert ids := by
  constructor
  · intro hlaw s hs t ht heq
    by_contra hne
    -- a value put for one of two IDs is found for the other
    let stored : Call V := ⟨s, s, .put default false⟩
    let asked : Call V := ⟨t, t, .get⟩
    have hstored : stored.thread = s := ite_self s
    have hasked : asked.thread = t := ite_self t
    have hfound : (step (TlsMap.empty : TlsMap K V) stored).2.mMap[t]? = some default := by
      rw [step_put (c := stored) rfl, TreeMap.getElem?_insertIfNew, hstored]
      exact if_pos ⟨compareKeys_eq_iff.mpr heq, TreeMap.not_mem_emptyc⟩
    have hobserved := hlaw [stored, asked] (by simp [hstored, hasked, hs, ht]) t
    simp only [replies, step_get (c := asked) rfl, hstored, hasked, hfound, List.filter_cons,
      decide_eq_false hne, List.filter_nil, decide_true, if_true, Bool.false_eq_true, if_false,
      List.map_cons, List.map_nil, cellReplies, asked, cellStep] at hobserved
    simp at hobserved
  · intro hinj calls hcalls t
    have hempty : (TlsMap.empty : TlsMap K V).mMap[t]? = none := TreeMap.getElem?_emptyc
    by_cases ht : ∃ c ∈ calls, c.thread = t
    · obtain ⟨c, hc, rfl⟩ := ht
      rw [← hempty]
      apply observed_eq
      intro d hd hne heq
      exact hne (hinj (hcalls d hd) (hcalls c hc) heq)
    · -- a thread without calls observes nothing
      have hcalls : calls.filter (fun c => c.thread = t) = [] := by
        apply List.filter_eq_nil_iff.mpr
        intro c hc
        simpa using fun heq => ht ⟨c, hc, heq⟩
      have hreplies : (replies (TlsMap.empty : TlsMap K V) calls).filter (fun r => r.1 = t) = [] := by
        apply List.filter_eq_nil_iff.mpr
        intro r hr
        have hmem : r.1 ∈ calls.map Call.thread := by
          rw [← replies_threads (m := (TlsMap.empty : TlsMap K V))]
          exact List.mem_map_of_mem hr
        obtain ⟨c, hc, hcr⟩ := List.mem_map.mp hmem
        simpa using fun heq => ht ⟨c, hc, hcr.trans heq⟩
      rw [hcalls, hreplies]
      rfl

/-- Every run isolates threads exactly for the types of at least 64 bits. -/
theorem isolated_always_iff (K : ValueType) (V : Type) [Inhabited V] :
    (∀ calls : List (Call V), Isolated K calls) ↔ K.Wide := by
  rw [← convert_injective_iff, ← Set.injOn_univ, ← isolated_iff_injOn K V]
  simp

/-- Threads 1 and 257 share one entry of a map of bytes. -/
def sharedEntryRun : List (Call UInt8) := [⟨1, 1, .put 7 false⟩, ⟨257, 257, .get⟩]

theorem sharedEntryRun_notIsolated :
    (replies (TlsMap.empty : TlsMap (.unsigned 8) UInt8) sharedEntryRun).map Prod.snd =
        [.put true, .get (some 7)] ∧
      ¬ Isolated (.unsigned 8) sharedEntryRun := by
  refine ⟨by decide, ?_⟩
  intro hlaw
  have hlate := hlaw 257
  revert hlate
  decide

end Isolation
end LibXpf.Tls
