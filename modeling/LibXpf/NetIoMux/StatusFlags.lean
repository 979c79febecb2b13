import LibXpf.NetIoMux.Tracking

/-! # The status flags of sockets

`join` makes a socket non-blocking, and `depart` is to make it blocking again. What
`depart` clears are all flags but the one for non-blocking sockets, so no socket that
departs has its flags back.
-/
namespace LibXpf.NetIoMux
open GuardedRuns

/-- The flags of a platform. `F_SETFL` changes those that are settable, and no other ones. -/
structure Platform where
  O_NONBLOCK : BitVec 32
  settable : BitVec 32
  nonblock_ne_zero : O_NONBLOCK ≠ 0
  nonblock_settable : O_NONBLOCK &&& settable = O_NONBLOCK

namespace Platform

/-- The flags of a blocking socket. -/
def Blocking (p : Platform) : Type := { F : BitVec 32 // F &&& p.O_NONBLOCK = 0 }

/-- `fcntl(sock, F_SETFL, flags)`. -/
def setfl (p : Platform) (current flags : BitVec 32) : BitVec 32 := current &&& ~~~p.settable ||| flags &&& p.settable

/-- The flags after `join`. -/
def joined (p : Platform) (flags : BitVec 32) : BitVec 32 := p.setfl flags (flags ||| p.O_NONBLOCK)

/-- The flags after `depart`. -/
def departed (p : Platform) (flags : BitVec 32) : BitVec 32 := p.setfl flags (flags &&& (0 ^^^ p.O_NONBLOCK))

variable {p : Platform} {flags : BitVec 32}

theorem setfl_nonblock (p : Platform) (current flags : BitVec 32) :
    p.setfl current flags &&& p.O_NONBLOCK = flags &&& p.O_NONBLOCK := by
  refine BitVec.eq_of_getLsbD_eq fun i hi => ?_
  have hsettable := congrArg (fun w => w.getLsbD i) p.nonblock_settable
  simp only [BitVec.getLsbD_and] at hsettable
  simp only [setfl, BitVec.getLsbD_and, BitVec.getLsbD_or, BitVec.getLsbD_not, hi, decide_true, Bool.true_and]
  cases hnonblock : p.O_NONBLOCK.getLsbD i with
  | false => rw [Bool.and_false, Bool.and_false]
  | true =>
    rw [hnonblock, Bool.true_and] at hsettable
    simp only [hsettable, Bool.not_true, Bool.and_false, Bool.false_or, Bool.and_true]

theorem joined_nonblock (p : Platform) (flags : BitVec 32) : p.joined flags &&& p.O_NONBLOCK = p.O_NONBLOCK := by
  rw [joined, setfl_nonblock]
  refine BitVec.eq_of_getLsbD_eq fun i _ => ?_
  simp only [BitVec.getLsbD_and, BitVec.getLsbD_or]
  cases flags.getLsbD i <;> cases p.O_NONBLOCK.getLsbD i <;> rfl

theorem departed_nonblock (p : Platform) (flags : BitVec 32) : p.departed flags &&& p.O_NONBLOCK = flags &&& p.O_NONBLOCK := by
  have hmask : 0 ^^^ p.O_NONBLOCK = p.O_NONBLOCK := BitVec.zero_xor
  rw [departed, setfl_nonblock, hmask, BitVec.and_assoc, BitVec.and_self]

/-- A socket that has departed is still non-blocking. -/
theorem departed_joined_ne (p : Platform) (F : p.Blocking) : p.departed (p.joined F.val) ≠ F.val := by
  intro h
  have hnonblock := congrArg (· &&& p.O_NONBLOCK) h
  simp only [departed_nonblock, joined_nonblock, F.property] at hnonblock
  exact p.nonblock_ne_zero hnonblock

end Platform

/-- What `depart` returned, and the context and the flags of its endpoint before and after. -/
structure Departure where
  ret : Bool
  original : BitVec 32
  before : Option AsyncContext × BitVec 32
  after : Option AsyncContext × BitVec 32
  deriving DecidableEq

namespace Departure

/-- The endpoint is as it was before it joined. -/
def Undone (o : Departure) : Prop := o.ret = true ∧ o.after = (none, o.original)

/-- A departure of a joined endpoint undoes the joining, or returns `false` and leaves the endpoint joined. -/
def Lawful (o : Departure) : Prop := o.before.1 ≠ none → o.Undone ∨ o.ret = false ∧ o.after = o.before

instance (o : Departure) : Decidable o.Undone := inferInstanceAs (Decidable (_ ∧ _))

instance (o : Departure) : Decidable o.Lawful := inferInstanceAs (Decidable (_ → _))

end Departure

/-- The multiplexer with the flags of its sockets, and the flags that they had when they joined. -/
structure Flagged (p : Platform) (n : ℕ) where
  state : State n
  flags : ℕ → BitVec 32
  original : ℕ → p.Blocking
  departures : List Departure

inductive FlaggedLabel (p : Platform) (n : ℕ) where
  /-- A step of the multiplexer. The sockets that join in it have these flags. -/
  | step (l : Label n) (fresh : ℕ → p.Blocking)
  /-- A call of `depart` for which the kernel reports another error than `ENOENT`. -/
  | departRefused (ep : ℕ)

section Steps
variable {p : Platform} {n : ℕ}

namespace Flagged

def context (s : Flagged p n) (ep : ℕ) : Option AsyncContext := s.state.context ep

/-- The endpoint joins in the step to a state. -/
def Joins (s : State n) (t : State n) (ep : ℕ) : Prop := s.nextEp ≤ ep ∧ ep < t.nextEp

instance (s t : State n) (ep : ℕ) : Decidable (Joins s t ep) := inferInstanceAs (Decidable (_ ∧ _))

/-- The endpoint of a call of `depart` that ends with the step. -/
def departed : Label n → Option ℕ
  | .departContext ep => some ep
  | _ => none

/-- The step deletes the context of an endpoint, so `depart` goes on to the flags. -/
def Deletes (s : State n) (l : Label n) (ep : ℕ) : Prop :=
  departed l = some ep ∧ s.departing ep ≠ none ∧ s.context ep ≠ none

instance (s : State n) (l : Label n) (ep : ℕ) : Decidable (Deletes s l ep) := inferInstanceAs (Decidable (_ ∧ _))

def flagsAfter (s : Flagged p n) (l : Label n) (fresh : ℕ → p.Blocking) (t : State n) (ep : ℕ) : BitVec 32 :=
  if Joins s.state t ep then p.joined (fresh ep).val
  else if Deletes s.state l ep then p.departed (s.flags ep)
  else s.flags ep

/-- The departure that ends with the step. -/
def departuresOf (s : Flagged p n) (l : Label n) (after : ℕ → Option AsyncContext × BitVec 32) : List Departure :=
  match departed l with
  | none => []
  | some ep =>
    match s.state.departing ep with
    | none => []
    | some removed =>
      [{ ret := (s.context ep).isSome && removed, original := (s.original ep).val
         before := (s.context ep, s.flags ep), after := after ep }]

def step (b : Backend) (s : Flagged p n) : FlaggedLabel p n → Except Fault (Flagged p n)
  | .step l fresh =>
    match NetIoMux.step b s.state l with
    | .error e => .error e
    | .ok t => .ok
      { state := t
        flags := s.flagsAfter l fresh t
        original := fun ep => if Joins s.state t ep then fresh ep else s.original ep
        departures := s.departures ++ s.departuresOf l fun ep => (t.context ep, s.flagsAfter l fresh t ep) }
  | .departRefused ep => .ok
    { s with
      state := { s.state with failed := s.state.failed ++ ["(ec == 0 || errno == ENOENT)"] }
      departures := s.departures ++
        [{ ret := false, original := (s.original ep).val
           before := (s.context ep, s.flags ep), after := (s.context ep, s.flags ep) }] }

def initial (p : Platform) (n : ℕ) : Flagged p n where
  state := State.initial n
  flags := fun _ => 0
  original := fun _ => ⟨0, BitVec.zero_and⟩
  departures := []

variable {b : Backend} {s t : State n} {l : Label n}

theorem context_of_setContext {e ep : ℕ} {ctx : AsyncContext} {c : Option AsyncContext} (he : s.context e = some ctx)
    (h : (s.setContext e c).context ep ≠ none) : s.context ep ≠ none := by
  rw [setContext_context] at h
  split at h
  next hep => exact hep ▸ he ▸ Option.some_ne_none ctx
  next => exact h

theorem context_departKernel (e : ℕ) {ep : ℕ} : (s.departKernel b e).context ep = s.context ep := by
  unfold State.departKernel
  split
  · cases b with
    | epoll => exact congrArg NetEndpoint.asyncContext (setDescriptor_endpoint s e ep _)
    | kqueue => exact congrArg NetEndpoint.asyncContext (setDescriptor_endpoint s e ep _)
  · rfl

/-- A step gives a context to the endpoints that join in it only, and numbers are not used again. -/
theorem context_of_step (h : NetIoMux.step b s l = .ok t) {ep : ℕ} (hctx : t.context ep ≠ none) :
    s.context ep ≠ none ∨ Joins s t ep := by
  cases step_move h with
  | stutter => exact .inl hctx
  | nullContext => exact .inl hctx
  | turn => exact .inl hctx
  | waitFails => exact .inl hctx
  | popCompletion => exact .inl hctx
  | popReady => exact .inl hctx
  | departNull => exact .inl hctx
  | join status hstatus =>
    rw [State.context, State.endpoint, openSocket_socket] at hctx
    split at hctx
    next hep => exact .inr ⟨hep.ge, hep.trans_lt (Nat.lt_succ_self s.nextEp)⟩
    next => exact .inl hctx
  | async e call ctx he => exact .inl (context_of_setContext he hctx)
  | handle w evt rest ctx hpc he => exact .inl (context_of_setContext he hctx)
  | ready w results e cnt ctx hpc he =>
    by_cases hep : ep = e
    · exact .inl (hep ▸ he ▸ Option.some_ne_none ctx)
    · let q := s.performQueues e ctx results
      have hsocket : ((s.ready b e ctx results).setWorker w (.waiting cnt)).socket ep =
          joinAll s.nextEp q.progress.accepted s.socket ep := Function.update_of_ne hep _ _
      rw [State.context, State.endpoint, hsocket] at hctx
      rcases joinAll_cases (performQueues_accepted s e ctx results) s.nextEp s.socket ep with heq | ⟨hle, hlt, -⟩
      · rw [heq] at hctx
        exact .inl hctx
      · exact .inr ⟨hle, hlt⟩
  | wait w evts cnt socket hpc hharvest =>
    have hendpoint := (harvest_socket hharvest ep).1
    exact .inl fun hnone => hctx ((congrArg NetEndpoint.asyncContext hendpoint).trans hnone)
  | settle e success hconn =>
    rw [State.context, setDescriptor_endpoint] at hctx
    exact .inl hctx
  | departKernel e => exact .inl (context_departKernel e ▸ hctx)
  | departContext e removed ctx hdeparting he =>
    have hkeep : (s.setContext e none).context ep ≠ none := hctx
    rw [setContext_context] at hkeep
    split at hkeep
    next => exact absurd rfl hkeep
    next => exact .inl hkeep

/-- A step that deletes a context leaves none, and nothing joins in it. -/
theorem deletes_step (h : NetIoMux.step b s l = .ok t) {ep : ℕ} (hdeletes : Deletes s l ep) :
    t.context ep = none ∧ t.nextEp = s.nextEp := by
  obtain ⟨hl, hdeparting, hctx⟩ := hdeletes
  cases l with
  | departContext e =>
    obtain rfl := Option.some.inj hl
    obtain ⟨removed, hremoved⟩ := Option.ne_none_iff_exists'.mp hdeparting
    obtain ⟨ctx, hsome⟩ := Option.ne_none_iff_exists'.mp hctx
    simp only [NetIoMux.step, State.departContext, hremoved, hsome, Except.ok.injEq] at h
    rw [← h]
    exact ⟨(setContext_context s e e none).trans (if_pos rfl), rfl⟩
  | _ => cases hl

variable {u v : Flagged p n} {a : FlaggedLabel p n}

/-- The sockets of joined endpoints have the flags that `join` gave them. -/
def Kept (u : Flagged p n) : Prop := ∀ ep, u.context ep ≠ none → u.flags ep = p.joined (u.original ep).val

theorem step_cases (h : step b u a = .ok v) :
    (∃ ep, a = .departRefused ep ∧ v =
        { u with
          state := { u.state with failed := u.state.failed ++ ["(ec == 0 || errno == ENOENT)"] }
          departures := u.departures ++
            [⟨false, (u.original ep).val, (u.context ep, u.flags ep), (u.context ep, u.flags ep)⟩] }) ∨
      ∃ l fresh t, a = .step l fresh ∧ NetIoMux.step b u.state l = .ok t ∧ v =
        { state := t
          flags := u.flagsAfter l fresh t
          original := fun ep => if Joins u.state t ep then fresh ep else u.original ep
          departures := u.departures ++ u.departuresOf l fun ep => (t.context ep, u.flagsAfter l fresh t ep) } := by
  cases a with
  | departRefused ep => exact .inl ⟨ep, rfl, (Except.ok.inj h).symm⟩
  | step l fresh =>
    rw [step] at h
    cases hstep : NetIoMux.step b u.state l with
    | error e =>
      rw [hstep] at h
      cases h
    | ok t =>
      rw [hstep] at h
      exact .inr ⟨l, fresh, t, rfl, hstep, (Except.ok.inj h).symm⟩

theorem kept_step (hu : u.Kept) (h : step b u a = .ok v) : v.Kept := by
  rcases step_cases h with ⟨ep, -, rfl⟩ | ⟨l, fresh, t, -, hstep, rfl⟩
  · exact hu
  · intro ep hctx
    change u.flagsAfter l fresh t ep = p.joined (if Joins u.state t ep then fresh ep else u.original ep).val
    rw [flagsAfter]
    by_cases hjoins : Joins u.state t ep
    · rw [if_pos hjoins, if_pos hjoins]
    · have hold : u.context ep ≠ none := (context_of_step hstep hctx).resolve_right hjoins
      have hdeletes : ¬ Deletes u.state l ep := fun hdeletes => hctx (deletes_step hstep hdeletes).1
      rw [if_neg hjoins, if_neg hjoins, if_neg hdeletes]
      exact hu ep hold

/-- No call of `depart` gets to the flags of a joined endpoint in the step. -/
def Refused (u : Flagged p n) : FlaggedLabel p n → Prop
  | .step l _ => ∀ ep ∈ departed l, u.state.departing ep = none ∨ u.context ep = none
  | .departRefused _ => True

instance (u : Flagged p n) (a : FlaggedLabel p n) : Decidable (u.Refused a) :=
  match a with
  | .step l _ => inferInstanceAs (Decidable (∀ ep ∈ departed l, u.state.departing ep = none ∨ u.context ep = none))
  | .departRefused _ => isTrue trivial

variable {ep : ℕ} {fresh : ℕ → p.Blocking}

/-- A departure that deletes a context is neither undone nor without effect. -/
theorem departure_deletes (hu : u.Kept) (h : NetIoMux.step b u.state l = .ok t) (hdeletes : Deletes u.state l ep)
    {o : Departure} (horiginal : o.original = (u.original ep).val) (hbefore : o.before = (u.context ep, u.flags ep))
    (hafter : o.after = (t.context ep, u.flagsAfter l fresh t ep)) : ¬ o.Undone ∧ ¬ o.Lawful := by
  obtain ⟨hnone, hnext⟩ := deletes_step h hdeletes
  have hctx : u.context ep ≠ none := hdeletes.2.2
  have hjoins : ¬ Joins u.state t ep := fun hjoins => absurd (hjoins.1.trans_lt hjoins.2) (by omega)
  have hflags : u.flagsAfter l fresh t ep = p.departed (p.joined (u.original ep).val) := by
    rw [flagsAfter, if_neg hjoins, if_pos hdeletes, hu ep hctx]
  have hundone : ¬ o.Undone := by
    rintro ⟨-, hdone⟩
    rw [hafter, horiginal, hflags] at hdone
    exact p.departed_joined_ne (u.original ep) (congrArg Prod.snd hdone)
  refine ⟨hundone, fun hlawful => ?_⟩
  rw [Departure.Lawful, hbefore, hafter] at hlawful
  rcases hlawful hctx with hdone | ⟨-, hsame⟩
  · exact hundone hdone
  · exact hctx ((congrArg Prod.fst hsame).symm.trans hnone)

/-- A step adds no departure, unless it ends a call of `depart`. -/
theorem departuresOf_cases (u : Flagged p n) (l : Label n) (after : ℕ → Option AsyncContext × BitVec 32) :
    (u.departuresOf l after = [] ∧ ∀ ep ∈ departed l, u.state.departing ep = none) ∨
      ∃ ep removed, departed l = some ep ∧ u.state.departing ep = some removed ∧ u.departuresOf l after =
        [⟨(u.context ep).isSome && removed, (u.original ep).val, (u.context ep, u.flags ep), after ep⟩] := by
  cases hl : departed l with
  | none =>
    refine .inl ⟨by simp only [departuresOf, hl], fun ep hep => ?_⟩
    cases hep
  | some ep =>
    cases hdeparting : u.state.departing ep with
    | none =>
      refine .inl ⟨by simp only [departuresOf, hl, hdeparting], fun e he => ?_⟩
      obtain rfl := Option.some.inj he
      exact hdeparting
    | some removed => exact .inr ⟨ep, removed, rfl, hdeparting, by simp only [departuresOf, hl, hdeparting]⟩

/-- The departures that a step of the multiplexer adds. -/
theorem departuresOf_step (hu : u.Kept) (h : NetIoMux.step b u.state l = .ok t) {new : List Departure}
    (hnew : new = u.departuresOf l fun ep => (t.context ep, u.flagsAfter l fresh t ep)) :
    (∀ o ∈ new, ¬ o.Undone) ∧ (u.Refused (.step l fresh) → ∀ o ∈ new, o.Lawful) ∧
      (¬ u.Refused (.step l fresh) → ∃ o ∈ new, ¬ o.Lawful) := by
  rcases departuresOf_cases u l fun ep => (t.context ep, u.flagsAfter l fresh t ep) with
    ⟨hempty, hdeparting⟩ | ⟨ep, removed, hl, hdeparting, hone⟩
  · rw [hnew, hempty]
    exact ⟨List.forall_mem_nil _, fun _ => List.forall_mem_nil _,
      fun hnot => absurd (fun ep hep => .inl (hdeparting ep hep)) hnot⟩
  · rw [hnew, hone, List.forall_mem_singleton, List.forall_mem_singleton]
    simp only [List.mem_singleton, exists_eq_left]
    by_cases hctx : u.context ep = none
    · have hret : ((u.context ep).isSome && removed) = false := by
        rw [hctx]
        rfl
      refine ⟨fun hundone => absurd (hret.symm.trans hundone.1) Bool.false_ne_true, fun _ hne => absurd hctx hne, fun hnot => ?_⟩
      exact absurd (fun e he => .inr (Option.some.inj (hl.symm.trans he) ▸ hctx)) hnot
    · have hsome : u.state.departing ep ≠ none := hdeparting.trans_ne (Option.some_ne_none removed)
      let o : Departure := ⟨(u.context ep).isSome && removed, (u.original ep).val, (u.context ep, u.flags ep),
        (t.context ep, u.flagsAfter l fresh t ep)⟩
      obtain ⟨hundone, hlawful⟩ := departure_deletes (o := o) hu h ⟨hl, hsome, hctx⟩ rfl rfl rfl
      refine ⟨hundone, fun hrefused => ?_, fun _ => hlawful⟩
      exact ((hrefused ep hl).elim hsome hctx).elim

theorem departures_step (hu : u.Kept) (h : step b u a = .ok v) :
    ∃ new, v.departures = u.departures ++ new ∧ (∀ o ∈ new, ¬ o.Undone) ∧
      (u.Refused a → ∀ o ∈ new, o.Lawful) ∧ (¬ u.Refused a → ∃ o ∈ new, ¬ o.Lawful) := by
  rcases step_cases h with ⟨ep, rfl, rfl⟩ | ⟨l, fresh, t, rfl, hstep, rfl⟩
  · refine ⟨_, rfl, ?_⟩
    rw [List.forall_mem_singleton, List.forall_mem_singleton]
    exact ⟨fun hundone => absurd hundone.1 Bool.false_ne_true, fun _ _ => .inr ⟨rfl, rfl⟩, fun hnot => absurd trivial hnot⟩
  · exact ⟨_, rfl, departuresOf_step hu hstep rfl⟩

/-- A step in which `depart` gets to a context does not fault. -/
theorem step_of_not_refused (h : ¬ u.Refused a) : ∃ v, step b u a = .ok v := by
  cases a with
  | step l fresh =>
    cases l with
    | departContext ep => exact ⟨_, rfl⟩
    | _ => exact absurd (fun _ hep => by cases hep) h
  | departRefused ep => exact absurd trivial h

def AllLawful (u : Flagged p n) : Prop := ∀ o ∈ u.departures, o.Lawful

def NoneUndone (u : Flagged p n) : Prop := ∀ o ∈ u.departures, ¬ o.Undone

end Flagged
open Flagged

theorem noneUndone_step (b : Backend) {u v : Flagged p n} {a : FlaggedLabel p n} (hu : u.Kept ∧ u.NoneUndone)
    (h : Flagged.step b u a = .ok v) : v.Kept ∧ v.NoneUndone := by
  obtain ⟨new, hnew, hundone, -⟩ := departures_step hu.1 h
  refine ⟨kept_step hu.1 h, fun o ho => ?_⟩
  rw [hnew] at ho
  exact (List.mem_append.mp ho).elim (hu.2 o) (hundone o)

/-- In every run the departures from joined endpoints are as `depart` promises up to a fault, if and only if
the kernel refuses each of them. None of them gives an endpoint its flags back. -/
theorem departures_lawful_iff (p : Platform) (b : Backend) (n : ℕ) (labels : List (FlaggedLabel p n)) :
    (UntilFault (Flagged.step b) AllLawful (Flagged.initial p n) labels ↔
        Along (Flagged.step b) Refused (Flagged.initial p n) labels) ∧
      UntilFault (Flagged.step b) NoneUndone (Flagged.initial p n) labels := by
  have hkept : (Flagged.initial p n).Kept := fun _ hctx => absurd rfl hctx
  have hlawful : (Flagged.initial p n).AllLawful := fun o ho => absurd ho List.not_mem_nil
  have hundone : (Flagged.initial p n).NoneUndone := fun o ho => absurd ho List.not_mem_nil
  constructor
  · refine untilFault_iff_along_of_invariant (fun _ _ _ hu h => kept_step hu h) ?_ ?_ hkept hlawful
    · intro u a v hu hall hrefused h
      obtain ⟨new, hnew, -, hgood, -⟩ := departures_step hu h
      intro o ho
      rw [hnew] at ho
      exact (List.mem_append.mp ho).elim (hall o) (hgood hrefused o)
    · intro u a hu hall hrefused
      obtain ⟨v, h⟩ := step_of_not_refused (b := b) hrefused
      obtain ⟨new, hnew, -, -, hbad⟩ := departures_step hu h
      obtain ⟨o, ho, hnot⟩ := hbad hrefused
      exact ⟨v, h, fun hall' => hnot (hall' o (hnew ▸ List.mem_append_right _ ho))⟩
  · exact (untilFault_of_invariant (fun _ _ _ => noneUndone_step b) ⟨hkept, hundone⟩ labels).mono fun _ h => h.2

/-- The flags of Linux. -/
def linux : Platform where
  O_NONBLOCK := 0x800
  settable := 0x46C00
  nonblock_ne_zero := by decide
  nonblock_settable := by decide

/-- A socket with the flag `O_RDWR` joins and departs, and was never armed. -/
def unarmedRun : List (FlaggedLabel linux 1) :=
  [.join .init, .departKernel 0, .departContext 0].map fun l => .step l fun _ => ⟨2, by decide⟩

theorem unarmedRun_departs (b : Backend) :
    Returns (final (Flagged.step b) (Flagged.initial linux 1) unarmedRun) fun u =>
      u.departures = [⟨false, 2, (some AsyncContext.empty, 0x802), (none, 0x802)⟩] := by
  cases b <;> decide +kernel

theorem unarmedRun_unlawful (b : Backend) :
    ¬ UntilFault (Flagged.step b) AllLawful (Flagged.initial linux 1) unarmedRun := by
  intro h
  obtain ⟨u, hu, hdepartures⟩ := unarmedRun_departs b
  have hlawful := h.final hu ⟨false, 2, (some AsyncContext.empty, 0x802), (none, 0x802)⟩ (hdepartures ▸ List.mem_cons_self)
  exact absurd hlawful (by decide)

/-- The endpoint has no context any more when `depart` returns `false`, and its socket has not got its flags back. -/
theorem unarmedRun_not_lawful :
    ¬ UntilFault (Flagged.step .epoll) AllLawful (Flagged.initial linux 1) unarmedRun ∧
      ¬ UntilFault (Flagged.step .kqueue) AllLawful (Flagged.initial linux 1) unarmedRun :=
  ⟨unarmedRun_unlawful .epoll, unarmedRun_unlawful .kqueue⟩

end Steps
end LibXpf.NetIoMux
