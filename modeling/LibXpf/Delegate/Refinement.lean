import LibXpf.Delegate.Ownership

/-! # Delegates as lists of functors

What a delegate is for: a list of functors, the newest first. An operation that throws
changes nothing, and it throws where it makes more copies than succeed. The delegates
in the heap are such lists whatever is done with them, and no node is lost.
-/
namespace LibXpf.Delegate
open GuardedRuns LinkedCells

variable {F : Type} (same : F → F → Bool)

section Lists

structure Spec (F : Type) where
  functors : ℕ → Option (List F)
  nextDelegate : ℕ
  outcomes : List Outcome

namespace Spec

def list (t : Spec F) (d : ℕ) : List F := (t.functors d).getD []

def made (t : Spec F) (copies : Option ℕ) (cost : ℕ) (fs : List F) : Spec F × Outcome :=
  if Affords copies cost then
    ({ t with
        functors := Function.update t.functors t.nextDelegate (some fs)
        nextDelegate := t.nextDelegate + 1 }, .done)
  else (t, .threw)

def assigned (t : Spec F) (copies : Option ℕ) (d cost : ℕ) (fs : List F) : Spec F × Outcome :=
  if Affords copies cost then ({ t with functors := Function.update t.functors d (some fs) }, .done)
  else (t, .threw)

def operate (t : Spec F) (copies : Option ℕ) : Operation F → Spec F × Outcome
  | .construct => t.made copies 0 []
  | .constructFrom f => t.made copies 1 [f]
  | .copyConstruct d => t.made copies (t.list d).length (t.list d)
  | .destroy d => ({ t with functors := Function.update t.functors d none }, .done)
  | .add d f => t.assigned copies d 1 (f :: t.list d)
  | .remove d f =>
    ({ t with functors := Function.update t.functors d (some ((t.list d).eraseP (same · f))) },
      .answered ((t.list d).any (same · f)))
  | .clear d => ({ t with functors := Function.update t.functors d (some []) }, .done)
  | .assign d f => t.assigned copies d 1 [f]
  | .assignDelegate d e => if d = e then (t, .done) else t.assigned copies d (t.list e).length (t.list e)
  | .plus d f => t.made copies ((t.list d).length + (1 + ((t.list d).length + 1))) (f :: t.list d)
  | .minus d f =>
    t.made copies ((t.list d).length + ((t.list d).eraseP (same · f)).length) ((t.list d).eraseP (same · f))
  | .equals d f =>
    (t, .answered (match t.list d with
      | [g] => same g f
      | _ => false))
  | .isEmpty d => (t, .answered (t.list d).isEmpty)
  | .isMulticast d => (t, .answered (decide (2 ≤ (t.list d).length)))

/-- A call only shows where the delegate is empty: it does nothing, or it throws. -/
def step (t : Spec F) : Label F → Spec F
  | .operate op copies =>
    if op.operands.all (fun d => (t.functors d).isSome) then
      { (t.operate same copies op).1 with
        outcomes := (t.operate same copies op).1.outcomes ++ [(t.operate same copies op).2] }
    else t
  | .call d isVoid =>
    match t.functors d with
    | some [] => { t with outcomes := t.outcomes ++ [if isVoid then .done else .threw] }
    | _ => t
  | .returned => t
  | .thrown => t

def initial : Spec F where
  functors _ := none
  nextDelegate := 0
  outcomes := []

end Spec
end Lists

section Representation

variable {same : F → F → Bool} {s s' : State F} {t : Spec F} {chains chains' : Option ℕ → List (ℕ × F)} {d e : ℕ}
  {op : Operation F} {copies : Option ℕ} {cost : ℕ} {fs : List F}

def State.heads (s : State F) : Option ℕ → Option ℕ
  | none => none
  | some d => s.pointer d

/-- The delegates are the lists, and every node is one of theirs. -/
structure Represents (s : State F) (t : Spec F) (chains : Option ℕ → List (ℕ × F)) : Prop where
  owns : Owns s.heap s.heads chains
  temporary : chains none = []
  functors : ∀ d, t.functors d = (s.last d).map (fun _ => values (chains (some d)))
  unborn : ∀ d, s.nextDelegate ≤ d → s.last d = none
  nextDelegate : t.nextDelegate = s.nextDelegate
  outcomes : t.outcomes = s.outcomes

/-- The delegate that an operation takes functors away from. -/
def Operation.disturbs : Operation F → Option ℕ
  | destroy d => some d
  | remove d _ => some d
  | clear d => some d
  | assign d _ => some d
  | assignDelegate d e => if d = e then none else some d
  | _ => none

/-- What an operation leaves of a delegate that it takes no functors away from. -/
def Operation.Keeps (op : Operation F) (d : ℕ) (l l' : List (ℕ × F)) : Prop :=
  l' = l ∨ ∃ a f, op = .add d f ∧ l' = (a, f) :: l

namespace Represents

theorem list_eq (h : Represents s t chains) (d : ℕ) : t.list d = values (chains (some d)) := by
  rw [Spec.list, h.functors]
  cases hlast : s.last d with
  | none =>
    have hchain := h.owns.shared.chain (some d)
    rw [State.heads, State.pointer, hlast] at hchain
    rw [chain_none.mp hchain]
    rfl
  | some p => rfl

theorem dead (h : Represents s t chains) (hd : s.last d = none) : chains (some d) = [] := by
  have hchain := h.owns.shared.chain (some d)
  rw [State.heads, State.pointer, hd] at hchain
  exact chain_none.mp hchain

/-- The list of one delegate changes. -/
theorem update (h : Represents s t chains) {h' : Heap F} {p : Option ℕ} {l : List (ℕ × F)} (d : ℕ)
    (hown : Owns h' (Function.update s.heads (some d) p) (Function.update chains (some d) l)) (last : Option (Option ℕ))
    (hlast : last.join = p) (hborn : d < s.nextDelegate) {functors : Option (List F)}
    (hfunctors : functors = last.map (fun _ => values l)) :
    Represents { s with heap := h', last := Function.update s.last d last }
      { t with functors := Function.update t.functors d functors } (Function.update chains (some d) l) where
  owns := by
    have hheads : State.heads { s with heap := h', last := Function.update s.last d last } =
        Function.update s.heads (some d) p := by
      funext k
      cases k with
      | none => rw [Function.update_of_ne (Option.some_ne_none d).symm]; rfl
      | some e =>
        rw [Function.update_apply]
        simp only [State.heads, State.pointer, Function.update_apply, Option.some.injEq]
        split
        · exact hlast
        · rfl
    rw [hheads]
    exact hown
  temporary := (Function.update_of_ne (Option.some_ne_none d).symm ..).trans h.temporary
  functors e := by
    simp only [Function.update_apply, Option.some.injEq]
    split
    · exact hfunctors
    · exact h.functors e
  unborn e he := by
    have hne : e ≠ d := by
      rintro rfl
      exact Nat.not_lt.mpr he hborn
    exact (Function.update_of_ne hne ..).trans (h.unborn e he)
  nextDelegate := h.nextDelegate
  outcomes := h.outcomes

/-- A new delegate has its list. -/
theorem born (h : Represents s t chains) {h' : Heap F} {p : Option ℕ} {l : List (ℕ × F)}
    (hown : Owns h' (Function.update s.heads (some s.nextDelegate) p)
      (Function.update chains (some s.nextDelegate) l)) :
    Represents
      { s with
        heap := h'
        last := Function.update s.last s.nextDelegate (some p)
        nextDelegate := s.nextDelegate + 1 }
      { t with
        functors := Function.update t.functors t.nextDelegate (some (values l))
        nextDelegate := t.nextDelegate + 1 } (Function.update chains (some s.nextDelegate) l) := by
  -- The number of the delegate is taken first.
  have hnext : Represents { s with nextDelegate := s.nextDelegate + 1 } { t with nextDelegate := t.nextDelegate + 1 }
      chains :=
    ⟨h.owns, h.temporary, h.functors, fun d hd => h.unborn d (Nat.le_of_succ_le hd),
      congrArg Nat.succ h.nextDelegate, h.outcomes⟩
  rw [h.nextDelegate]
  have hborn := hnext.update s.nextDelegate hown (some p) rfl (Nat.lt_succ_self _) rfl
  rwa [h.nextDelegate] at hborn

theorem lt_of_isSome (h : Represents s t chains) (hd : (s.last d).isSome = true) : d < s.nextDelegate := by
  by_contra hge
  rw [h.unborn d (Nat.not_lt.mp hge)] at hd
  cases hd

/-- The operation gave the delegate its functors or threw. -/
theorem assigned (h : Represents s t chains) (hd : d < s.nextDelegate)
    {r : Except Fault (Heap F × Option (Option ℕ))}
    (hyields : Yields s.heap s.heads chains (some d) cost fs r) :
    ∃ y chains', (r >>= fun x => .ok (s.assigned d x)) = .ok y ∧ y.2 = (t.assigned s.heap.copies d cost fs).2 ∧
      Represents y.1 (t.assigned s.heap.copies d cost fs).1 chains' ∧
      (y.1.calls = s.calls ∧ y.1.finished = s.finished) ∧ ∀ e, e ≠ d → chains' (some e) = chains (some e) := by
  by_cases hafford : Affords s.heap.copies cost
  · obtain ⟨h', p, l, rfl, _, rfl, hown⟩ := hyields.succeeds hafford
    rw [Spec.assigned, if_pos hafford]
    refine ⟨_, Function.update chains (some d) l, rfl, rfl, h.update d hown _ rfl hd rfl, ⟨rfl, rfl⟩, ?_⟩
    exact fun e he => Function.update_of_ne (fun heq => he (Option.some.inj heq)) ..
  · obtain ⟨h', rfl, hown⟩ := hyields.throws hafford
    rw [Spec.assigned, if_neg hafford]
    refine ⟨_, chains, rfl, rfl, ?_, ⟨rfl, rfl⟩, fun _ _ => rfl⟩
    exact ⟨hown, h.temporary, h.functors, h.unborn, h.nextDelegate, h.outcomes⟩

theorem made (h : Represents s t chains) {r : Except Fault (Heap F × Option (Option ℕ))}
    (hyields : Yields s.heap s.heads chains (some s.nextDelegate) cost fs r) :
    ∃ y chains', (r >>= fun x => .ok (s.made x)) = .ok y ∧ y.2 = (t.made s.heap.copies cost fs).2 ∧
      Represents y.1 (t.made s.heap.copies cost fs).1 chains' ∧
      (y.1.calls = s.calls ∧ y.1.finished = s.finished) ∧
      ∀ e, (s.last e).isSome = true → chains' (some e) = chains (some e) := by
  by_cases hafford : Affords s.heap.copies cost
  · obtain ⟨h', p, l, rfl, _, rfl, hown⟩ := hyields.succeeds hafford
    rw [Spec.made, if_pos hafford]
    refine ⟨_, Function.update chains (some s.nextDelegate) l, rfl, rfl, h.born hown, ⟨rfl, rfl⟩, ?_⟩
    exact fun e he => Function.update_of_ne (fun heq => Nat.ne_of_lt (h.lt_of_isSome he) (Option.some.inj heq)) ..
  · obtain ⟨h', rfl, hown⟩ := hyields.throws hafford
    rw [Spec.made, if_neg hafford]
    refine ⟨_, chains, rfl, rfl, ?_, ⟨rfl, rfl⟩, fun _ _ => rfl⟩
    exact ⟨hown, h.temporary, h.functors, h.unborn, h.nextDelegate, h.outcomes⟩

/-- A delegate gives up its nodes. -/
theorem freed (h : Represents s t chains) (hd : d < s.nextDelegate) (last : Option (Option ℕ)) (hlast : last.join = none) :
    ∃ h', Heap.freeDelegateList s.heap.nextNode s.heap (s.pointer d) = .ok h' ∧
      Represents { s with heap := h', last := Function.update s.last d last }
        { t with functors := Function.update t.functors d (last.map fun _ => []) }
        (Function.update chains (some d) []) := by
  obtain ⟨h', hfree, _, hown⟩ := h.owns.free (some d)
  exact ⟨h', hfree, h.update d hown last hlast hd rfl⟩

/-- `+=` puts the functor first or throws. -/
theorem added (h : Represents s t chains) (same : F → F → Bool) (hd : d < s.nextDelegate) (f : F) :
    ∃ x chains', s.operate same (.add d f) = .ok x ∧ x.2 = (t.operate same s.heap.copies (.add d f)).2 ∧
      Represents x.1 (t.operate same s.heap.copies (.add d f)).1 chains' ∧
      (x.1.calls = s.calls ∧ x.1.finished = s.finished) ∧
      ∀ e, (Operation.add d f).Keeps e (chains (some e)) (chains' (some e)) := by
  rw [State.operate, show s.pointer d = s.heads (some d) from rfl, Spec.operate, h.list_eq, Spec.assigned]
  by_cases hafford : Affords s.heap.copies 1
  · have hcopies : s.heap.copies ≠ some 0 := fun hzero => Nat.not_succ_le_zero 0 (hafford 0 hzero)
    obtain ⟨h', hadd, _, hown⟩ := h.owns.push (some d) hcopies f
    rw [hadd, if_pos hafford]
    refine ⟨_, _, rfl, rfl, h.update d hown _ rfl hd rfl, ⟨rfl, rfl⟩, fun e => ?_⟩
    by_cases he : e = d
    · rw [he, Function.update_self]
      exact .inr ⟨_, f, rfl, rfl⟩
    · exact .inl (Function.update_of_ne (fun heq => he (Option.some.inj heq)) ..)
  · obtain ⟨h', hadd, hown⟩ := (h.owns.add (some d) f).throws hafford
    rw [hadd, if_neg hafford]
    exact ⟨_, chains, rfl, rfl, ⟨hown, h.temporary, h.functors, h.unborn, h.nextDelegate, h.outcomes⟩, ⟨rfl, rfl⟩,
      fun _ => .inl rfl⟩

/-- A delegate without functors is one without a node. -/
theorem pointer_isNone (h : Represents s t chains) (d : ℕ) :
    (s.pointer d).isNone = (values (chains (some d))).isEmpty := by
  have hchain := h.owns.shared.chain (some d)
  cases hl : chains (some d) with
  | nil =>
    rw [hl] at hchain
    rw [show s.pointer d = none from hchain]
    rfl
  | cons y rest =>
    rw [hl] at hchain
    rw [show s.pointer d = some y.1 from hchain.1]
    rfl

/-- An operation on delegates that exist does on the heap what it does on the lists. -/
theorem operate (h : Represents s t chains) (same : F → F → Bool) (hop : ∀ d ∈ op.operands, (s.last d).isSome = true) :
    ∃ x chains', s.operate same op = .ok x ∧ x.2 = (t.operate same s.heap.copies op).2 ∧
      Represents x.1 (t.operate same s.heap.copies op).1 chains' ∧
      (x.1.calls = s.calls ∧ x.1.finished = s.finished) ∧
      ∀ e, (s.last e).isSome = true → op.disturbs ≠ some e → op.Keeps e (chains (some e)) (chains' (some e)) := by
  have hnil : chains (some s.nextDelegate) = [] := h.dead (h.unborn _ (Nat.le_refl _))
  have hhead : s.heads (some s.nextDelegate) = none := h.owns.head_none hnil
  have hsome : ∀ d, some d ≠ (none : Option ℕ) := fun d => Option.some_ne_none d
  cases op with
  | construct =>
    obtain ⟨y, chains', hy, hout, hrep, hcalls, hkeep⟩ := h.made (h.owns.empty hnil)
    exact ⟨y, chains', hy, hout, hrep, hcalls, fun e he _ => .inl (hkeep e he)⟩
  | constructFrom f =>
    have hyields := h.owns.assign h.temporary (hsome s.nextDelegate) f
    rw [hhead] at hyields
    obtain ⟨y, chains', hy, hout, hrep, hcalls, hkeep⟩ := h.made hyields
    exact ⟨y, chains', hy, hout, hrep, hcalls, fun e he _ => .inl (hkeep e he)⟩
  | copyConstruct d =>
    have hd := h.lt_of_isSome (hop d List.mem_cons_self)
    have hyields := h.owns.copy (k := some d) hnil (fun heq => Nat.ne_of_gt hd (Option.some.inj heq))
    rw [← values_length, ← h.list_eq] at hyields
    obtain ⟨y, chains', hy, hout, hrep, hcalls, hkeep⟩ := h.made hyields
    exact ⟨y, chains', hy, hout, hrep, hcalls, fun e he _ => .inl (hkeep e he)⟩
  | destroy d =>
    obtain ⟨h', hfree, hrep⟩ := h.freed (h.lt_of_isSome (hop d List.mem_cons_self)) none rfl
    refine ⟨({ s with heap := h', last := Function.update s.last d none }, .done), _, ?_, rfl, hrep, ⟨rfl, rfl⟩, ?_⟩
    · rw [State.operate, hfree, ok_bind]
    · exact fun e _ hne => .inl (Function.update_of_ne (fun heq => hne heq.symm) ..)
  | add d f =>
    obtain ⟨x, chains', hx, hout, hrep, hcalls, hkeep⟩ := h.added same (h.lt_of_isSome (hop d List.mem_cons_self)) f
    exact ⟨x, chains', hx, hout, hrep, hcalls, fun e _ _ => hkeep e⟩
  | remove d f =>
    have hd := h.lt_of_isSome (hop d List.mem_cons_self)
    obtain ⟨h', p, hremove, _, hown⟩ := h.owns.remove same (some d) f
    refine ⟨({ s with heap := h', last := Function.update s.last d (some p) },
      .answered ((values (chains (some d))).any (same · f))),
      Function.update chains (some d) ((chains (some d)).eraseP (fun y => same y.2 f)), ?_, ?_, ?_, ⟨rfl, rfl⟩, ?_⟩
    · rw [State.operate, show s.pointer d = s.heads (some d) from rfl, hremove, ok_bind]
    · rw [Spec.operate, h.list_eq]
    · rw [Spec.operate, h.list_eq, ← values_eraseP (same · f)]
      exact h.update d hown _ rfl hd rfl
    · exact fun e _ hne => .inl (Function.update_of_ne (fun heq => hne heq.symm) ..)
  | clear d =>
    obtain ⟨h', hfree, hrep⟩ := h.freed (h.lt_of_isSome (hop d List.mem_cons_self)) (some none) rfl
    refine ⟨({ s with heap := h', last := Function.update s.last d (some none) }, .done), _, ?_, rfl, hrep, ⟨rfl, rfl⟩, ?_⟩
    · rw [State.operate, hfree, ok_bind]
    · exact fun e _ hne => .inl (Function.update_of_ne (fun heq => hne heq.symm) ..)
  | assign d f =>
    have hd := h.lt_of_isSome (hop d List.mem_cons_self)
    obtain ⟨y, chains', hy, hout, hrep, hcalls, hkeep⟩ := h.assigned hd (h.owns.assign h.temporary (hsome d) f)
    exact ⟨y, chains', hy, hout, hrep, hcalls, fun e _ hne => .inl (hkeep e (fun heq => hne (heq ▸ rfl)))⟩
  | assignDelegate d e =>
    have hd := h.lt_of_isSome (hop d List.mem_cons_self)
    by_cases hde : d = e
    · rw [State.operate, if_pos hde, Spec.operate, if_pos hde]
      exact ⟨_, chains, rfl, rfl, h, ⟨rfl, rfl⟩, fun _ _ _ => .inl rfl⟩
    · have hyields := h.owns.assignDelegate h.temporary (hsome d) (hsome e)
      rw [← values_length, ← h.list_eq] at hyields
      obtain ⟨y, chains', hy, hout, hrep, hcalls, hkeep⟩ := h.assigned hd hyields
      rw [State.operate, if_neg hde, Spec.operate, if_neg hde]
      refine ⟨y, chains', hy, hout, hrep, hcalls, fun e' _ hne => .inl (hkeep e' (fun heq => hne ?_))⟩
      rw [Operation.disturbs, if_neg hde, heq]
  | plus d f =>
    have hyields := h.owns.plus h.temporary (hsome s.nextDelegate) hnil (hsome d) f
    rw [← values_length, ← h.list_eq] at hyields
    obtain ⟨y, chains', hy, hout, hrep, hcalls, hkeep⟩ := h.made hyields
    exact ⟨y, chains', hy, hout, hrep, hcalls, fun e he _ => .inl (hkeep e he)⟩
  | minus d f =>
    have hyields := h.owns.minus same h.temporary (hsome s.nextDelegate) hnil (hsome d) f
    rw [← values_length, ← h.list_eq] at hyields
    obtain ⟨y, chains', hy, hout, hrep, hcalls, hkeep⟩ := h.made hyields
    exact ⟨y, chains', hy, hout, hrep, hcalls, fun e he _ => .inl (hkeep e he)⟩
  | equals d f =>
    rw [State.operate, show s.pointer d = s.heads (some d) from rfl, equals_spec (h.owns.shared.chain (some d)),
      ok_bind, Spec.operate, h.list_eq]
    exact ⟨_, chains, rfl, rfl, h, ⟨rfl, rfl⟩, fun _ _ _ => .inl rfl⟩
  | isEmpty d =>
    rw [State.operate, h.pointer_isNone, Spec.operate, h.list_eq]
    exact ⟨_, chains, rfl, rfl, h, ⟨rfl, rfl⟩, fun _ _ _ => .inl rfl⟩
  | isMulticast d =>
    rw [State.operate, show s.pointer d = s.heads (some d) from rfl, isMulticast_spec (h.owns.shared.chain (some d)),
      ok_bind, Spec.operate, h.list_eq, values_length]
    exact ⟨_, chains, rfl, rfl, h, ⟨rfl, rfl⟩, fun _ _ _ => .inl rfl⟩

end Represents
end Representation

section Runs

variable {same : F → F → Bool} {s : State F} {t : Spec F} {chains : Option ℕ → List (ℕ × F)} {l : Label F} {d : ℕ}
  {isVoid : Bool}

/-- What the innermost call goes on to is gone: the node of a functor, or the delegate itself
when it is the turn of its newest functor. -/
def State.Stranded (s : State F) : Prop :=
  match s.calls with
  | [] => False
  | call :: _ =>
    match call.pending with
    | a :: _ => s.heap.node a = none
    | [] => call.atLast = false ∧ s.pointer call.delegate = none

def Strands (s : State F) : Label F → Prop
  | .returned => s.Stranded
  | _ => False

section Resuming

variable {call : Call F} {rest : List (Call F)} {a : ℕ} {pending : List ℕ}

theorem stranded_at (hcalls : s.calls = call :: rest) (hpending : call.pending = a :: pending) :
    s.Stranded ↔ s.heap.node a = none := by
  simp only [State.Stranded, hcalls, hpending]

theorem stranded_last (hcalls : s.calls = call :: rest) (hpending : call.pending = []) :
    s.Stranded ↔ call.atLast = false ∧ s.pointer call.delegate = none := by
  simp only [State.Stranded, hcalls, hpending]

theorem resume_at (hcalls : s.calls = call :: rest) (hpending : call.pending = a :: pending) :
    s.resume = s.heap.read a >>= fun impl =>
      .ok { s with calls := { call with pending := pending, invoked := call.invoked ++ [impl.functor] } :: rest } := by
  simp only [State.resume, hcalls, hpending]

theorem resume_finished (hcalls : s.calls = call :: rest) (hpending : call.pending = []) (hlast : call.atLast = true) :
    s.resume = .ok { s with calls := rest, finished := s.finished ++ [call] } := by
  simp only [State.resume, hcalls, hpending, if_pos hlast]

theorem resume_last (hcalls : s.calls = call :: rest) (hpending : call.pending = []) (hlast : call.atLast = false)
    (hpointer : s.last call.delegate = some (some a)) :
    s.resume = s.heap.read a >>= fun impl =>
      .ok { s with calls := { call with atLast := true, invoked := call.invoked ++ [impl.functor] } :: rest } := by
  simp only [State.resume, hcalls, hpending, hlast, Bool.false_eq_true, if_false, hpointer]

theorem resume_gone (hcalls : s.calls = call :: rest) (hpending : call.pending = []) (hlast : call.atLast = false)
    (hpointer : s.pointer call.delegate = none) : ∃ e, s.resume = .error e := by
  rcases Option.join_eq_none_iff.mp hpointer with hnone | hnone
  · exact ⟨.useAfterFree, by simp only [State.resume, hcalls, hpending, hlast, Bool.false_eq_true, if_false, hnone]⟩
  · exact ⟨.nullDereference, by simp only [State.resume, hcalls, hpending, hlast, Bool.false_eq_true, if_false, hnone]⟩

theorem resume_fails (h : s.Stranded) : ∃ e, s.resume = .error e := by
  cases hcalls : s.calls with
  | nil => simp only [State.Stranded, hcalls] at h
  | cons call rest =>
    cases hpending : call.pending with
    | nil =>
      obtain ⟨hlast, hpointer⟩ := (stranded_last hcalls hpending).mp h
      exact resume_gone hcalls hpending hlast hpointer
    | cons a pending =>
      rw [stranded_at hcalls hpending] at h
      rw [resume_at hcalls hpending, Heap.read, h]
      exact ⟨.useAfterFree, rfl⟩

end Resuming

namespace Represents

/-- The calls in progress are no part of what is represented. -/
theorem of_same (h : Represents s t chains) {s' : State F} (hheap : s'.heap = s.heap) (hlast : s'.last = s.last)
    (hnext : s'.nextDelegate = s.nextDelegate) (houtcomes : s'.outcomes = s.outcomes) : Represents s' t chains where
  owns := by
    have hheads : s'.heads = s.heads := by
      funext k
      cases k with
      | none => rfl
      | some d => exact congrArg Option.join (congrFun hlast d)
    rw [hheads, hheap]
    exact h.owns
  temporary := h.temporary
  functors d := by rw [hlast, h.functors]
  unborn d hd := by rw [hlast, h.unborn d (hnext ▸ hd)]
  nextDelegate := h.nextDelegate.trans hnext.symm
  outcomes := h.outcomes.trans houtcomes.symm

theorem node_of_pointer (h : Represents s t chains) {a : ℕ} (hd : s.pointer d = some a) :
    ∃ impl rest, s.heap.node a = some impl ∧ chains (some d) = (a, impl.functor) :: rest ∧
      s.heap.Nodes impl.previous rest := by
  have hchain := h.owns.shared.chain (some d)
  rw [State.heads, hd] at hchain
  exact chain_some.mp hchain

theorem resume (h : Represents s t chains) (hs : ¬ s.Stranded) :
    ∃ s', s.resume = .ok s' ∧ Represents s' t chains := by
  cases hcalls : s.calls with
  | nil => exact ⟨s, by simp only [State.resume, hcalls], h⟩
  | cons call rest =>
    cases hpending : call.pending with
    | cons a pending =>
      rw [stranded_at hcalls hpending] at hs
      obtain ⟨impl, himpl⟩ := Option.ne_none_iff_exists'.mp hs
      rw [resume_at hcalls hpending, read_ok himpl]
      exact ⟨_, rfl, h.of_same rfl rfl rfl rfl⟩
    | nil =>
      rw [stranded_last hcalls hpending] at hs
      cases hatLast : call.atLast with
      | true =>
        rw [resume_finished hcalls hpending hatLast]
        exact ⟨_, rfl, h.of_same rfl rfl rfl rfl⟩
      | false =>
        obtain ⟨a, ha⟩ := Option.ne_none_iff_exists'.mp (fun hnone => hs ⟨hatLast, hnone⟩)
        obtain ⟨impl, _, himpl, _⟩ := h.node_of_pointer ha
        rw [resume_last hcalls hpending hatLast (Option.join_eq_some_iff.mp ha), read_ok himpl]
        exact ⟨_, rfl, h.of_same rfl rfl rfl rfl⟩

/-- What is there when a delegate is called: the nodes behind the newest one, the oldest first. -/
theorem call_eq (h : Represents s t chains) (isVoid : Bool) {a : ℕ} (hd : s.last d = some (some a)) :
    ∃ x rest, chains (some d) = (a, x) :: rest ∧ s.call d isVoid =
      State.resume { s with
        calls := ⟨d, (addresses rest).reverse, false, s.functors s.heap.nextNode (some a), []⟩ :: s.calls } := by
  obtain ⟨impl, rest, himpl, hchain, hrest⟩ := h.node_of_pointer (d := d) (congrArg Option.join hd)
  have hle := h.owns.length_le (some d)
  rw [hchain] at hle
  refine ⟨impl.functor, rest, hchain, ?_⟩
  rw [State.call, hd]
  dsimp only
  rw [read_ok himpl, ok_bind, invoke_spec hrest (Nat.le_of_succ_le hle), ok_bind]

theorem call (h : Represents s t chains) (same : F → F → Bool) (d : ℕ) (isVoid : Bool) : ∃ s', s.call d isVoid = .ok s' ∧
    Represents s' (t.step same (.call d isVoid)) chains := by
  cases hlast : s.last d with
  | none =>
    have hfunctors : t.functors d = none := by rw [h.functors, hlast, Option.map_none]
    rw [State.call, hlast, Spec.step, hfunctors]
    exact ⟨s, rfl, h⟩
  | some p =>
    have hchain := h.owns.shared.chain (some d)
    rw [State.heads, State.pointer, hlast] at hchain
    cases p with
    | none =>
      have hfunctors : t.functors d = some [] := by rw [h.functors, hlast, chain_none.mp hchain]; rfl
      rw [State.call, hlast, Spec.step, hfunctors]
      exact ⟨_, rfl, ⟨h.owns, h.temporary, h.functors, h.unborn, h.nextDelegate, by rw [h.outcomes]⟩⟩
    | some a =>
      obtain ⟨x, rest, hnodes, hcall⟩ := h.call_eq isVoid hlast
      have hfunctors : t.functors d = some (x :: values rest) := by rw [h.functors, hlast, hnodes]; rfl
      rw [Spec.step, hfunctors, hcall]
      refine Represents.resume (s := { s with calls := _ :: s.calls }) (h.of_same rfl rfl rfl rfl) ?_
      unfold State.Stranded
      dsimp only
      split
      · next b pending hpending =>
        have hreverse : b ∈ (addresses rest).reverse := by
          rw [hpending]
          exact List.mem_cons_self
        have hb : b ∈ addresses (chains (some d)) := by
          rw [hnodes]
          exact List.mem_cons_of_mem _ (List.mem_reverse.mp hreverse)
        obtain ⟨impl, himpl⟩ := (h.owns.shared.chain (some d)).cell hb
        rw [himpl]
        exact Option.some_ne_none impl
      · rw [State.pointer, hlast]
        exact fun hand => Option.some_ne_none a hand.2

theorem operate_step (h : Represents s t chains) (same : F → F → Bool) (op : Operation F) (copies : Option ℕ) :
    ∃ s' chains', step same s (.operate op copies) = .ok s' ∧
      Represents s' (t.step same (.operate op copies)) chains' ∧ (s'.calls = s.calls ∧ s'.finished = s.finished) ∧
      ∀ e, (s.last e).isSome = true → op.disturbs ≠ some e → op.Keeps e (chains (some e)) (chains' (some e)) := by
  have hoperands : op.operands.all (fun d => (t.functors d).isSome) =
      op.operands.all (fun d => (s.last d).isSome) := by
    apply congrArg
    funext d
    rw [h.functors, Option.isSome_map]
  rw [step, Spec.step, hoperands]
  split
  · next hall =>
    have hcopies : Represents { s with heap := { s.heap with copies := copies } } t chains :=
      ⟨⟨h.owns.shared, h.owns.fresh⟩, h.temporary, h.functors, h.unborn, h.nextDelegate, h.outcomes⟩
    obtain ⟨x, chains', hx, hout, hrep, hcalls, hkeeps⟩ :=
      hcopies.operate same (fun d hd => List.all_eq_true.mp hall d hd)
    refine ⟨{ x.1 with outcomes := x.1.outcomes ++ [x.2] }, chains', ?_, ⟨hrep.owns, hrep.temporary, hrep.functors,
      hrep.unborn, hrep.nextDelegate, ?_⟩, hcalls, hkeeps⟩
    · rw [hx]
      rfl
    · rw [hout, ← hrep.outcomes]
  · exact ⟨s, chains, rfl, h, ⟨rfl, rfl⟩, fun _ _ _ => .inl rfl⟩

theorem step (h : Represents s t chains) (hl : ¬ Strands s l) :
    ∃ s', step same s l = .ok s' ∧ ∃ chains', Represents s' (t.step same l) chains' := by
  cases l with
  | operate op copies =>
    obtain ⟨s', chains', hs', hrep, _⟩ := h.operate_step same op copies
    exact ⟨s', hs', chains', hrep⟩
  | call d isVoid =>
    obtain ⟨s', hs', hrep⟩ := h.call same d isVoid
    exact ⟨s', hs', chains, hrep⟩
  | returned =>
    obtain ⟨s', hs', hrep⟩ := h.resume hl
    exact ⟨s', hs', chains, hrep⟩
  | thrown => exact ⟨_, rfl, chains, h.of_same rfl rfl rfl rfl⟩

theorem initial : Represents (F := F) State.initial Spec.initial (fun _ => []) where
  owns :=
    { shared :=
        { chain := fun k => by cases k <;> exact chain_none.mpr rfl
          disjoint := fun _ _ _ _ ha => absurd ha List.not_mem_nil
          covered := fun _ c hc => absurd hc (Option.some_ne_none c).symm }
      fresh := fun _ _ => rfl }
  temporary := rfl
  functors _ := rfl
  unborn _ _ := rfl
  nextDelegate := rfl
  outcomes := rfl

end Represents

/-- Whatever copies throw and whatever the functors that are called do to the delegates, a run
faults exactly where a call goes on to what is gone, and any other run leaves the
delegates that the lists describe, with no node that is not one of theirs. -/
theorem final_represents_iff (labels : List (Label F)) :
    (∃ s, final (step same) State.initial labels = .ok s ∧
      ∃ chains, Represents s (labels.foldl (Spec.step same) Spec.initial) chains) ↔
        Along (step same) (fun s l => ¬ Strands s l) State.initial labels := by
  apply final_iff_along (R := fun s t => ∃ chains, Represents s t chains)
  · rintro s t l ⟨chains, h⟩ hl
    exact h.step hl
  · rintro s t l _ hl
    cases l with
    | returned => exact resume_fails (not_not.mp hl)
    | _ => exact absurd id hl
  · exact ⟨fun _ => [], .initial⟩

end Runs
end LibXpf.Delegate
