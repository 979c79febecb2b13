import LibXpf.Foundation.ClassifiedQueues
import LibXpf.NetIoMux.Wakeups

/-! # Every operation is delivered once and in order

An operation waits in the queue of its endpoint and its side until it enters the
completion list, and leaves that list when its callback is called. The ledger of
`ClassifiedQueues` holds with one class for each side of each endpoint.
-/
namespace LibXpf.NetIoMux
open GuardedRuns ClassifiedQueues

variable {n : ℕ} {b : Backend} {s t : State n}

section Lines

/-- The queue an operation belongs to: its endpoint and a side. -/
def line (k : ℕ × ℕ × EIoType) : ℕ × Mode := (k.2.1, k.2.2.side)

def State.queue (s : State n) (ep : ℕ) (mode : Mode) : List Overlapped :=
  match s.context ep with
  | some ctx => ctx.queue mode
  | none => []

theorem queue_of_context {ep : ℕ} {ctx : AsyncContext} (h : s.context ep = some ctx) (mode : Mode) :
    s.queue ep mode = ctx.queue mode := by
  rw [State.queue, h]

theorem queue_of_socket {e : ℕ} (h : t.socket e = s.socket e) (mode : Mode) :
    t.queue e mode = s.queue e mode := by
  rw [State.queue, State.queue, State.context, State.context, State.endpoint, State.endpoint, h]

theorem queue_of_unused {e : ℕ} (h : s.socket e = Socket.unused) (mode : Mode) : s.queue e mode = [] := by
  rw [State.queue, State.context, State.endpoint, h]
  rfl

theorem queue_of_joined {e : ℕ} {a : NetEndpoint} (h : s.socket e = Socket.joined a) (mode : Mode) :
    s.queue e mode = [] := by
  rw [State.queue, State.context, State.endpoint, h]
  cases mode <;> rfl

theorem append_queue (ctx : AsyncContext) (call mode : Mode) (o : Overlapped) :
    (ctx.append call o).queue mode = if call = mode then ctx.queue mode ++ [o] else ctx.queue mode := by
  cases call <;> cases mode <;> rfl

/-- What waits on each line. -/
def State.waiting (s : State n) (g : ℕ × Mode) : List (ℕ × ℕ × EIoType) :=
  (s.queue g.1 g.2).map Overlapped.key

theorem overlapped_key (id ep : ℕ) (call : AsyncCall) :
    (call.overlapped id ep).id = id ∧ line (call.overlapped id ep).key = (ep, call.mode) := by
  cases call <;> exact ⟨rfl, rfl⟩

theorem ofClass_keys (ep : ℕ) (mode : Mode) (l : List Overlapped) :
    (ofClass line (ep, mode) (l.map Overlapped.key)).map Prod.fst =
      (l.filter (fun o => o.sep = ep ∧ o.iotype.side = mode)).map Overlapped.id := by
  rw [ofClass, List.filter_map, List.map_map]
  have hpred : (fun k => decide (line k = (ep, mode))) ∘ Overlapped.key =
      fun o => decide (o.sep = ep ∧ o.iotype.side = mode) := by
    funext o
    exact decide_eq_decide.mpr Prod.mk_inj
  rw [hpred]
  rfl

end Lines

/-- An event aborts the whole of a queue or nothing of it. -/
theorem handle_fronts (b : Backend) (evt : Event) (ctx : AsyncContext) :
    ∃ rd wr, (ctx.handle b evt).aborted = (rd ++ wr).map Overlapped.abort ∧
      rd ++ (ctx.handle b evt).ctx.rdqueue = ctx.rdqueue ∧
      wr ++ (ctx.handle b evt).ctx.wrqueue = ctx.wrqueue := by
  cases b with
  | epoll =>
    simp only [AsyncContext.handle]
    split
    · exact ⟨ctx.rdqueue, ctx.wrqueue, rfl, List.append_nil _, List.append_nil _⟩
    · split
      · exact ⟨[], [], rfl, rfl, rfl⟩
      · exact ⟨[], [], rfl, rfl, rfl⟩
  | kqueue =>
    simp only [AsyncContext.handle]
    split
    · split
      · exact ⟨ctx.rdqueue, [], by rw [List.append_nil], List.append_nil _, rfl⟩
      · exact ⟨[], ctx.wrqueue, rfl, rfl, List.append_nil _⟩
    · exact ⟨[], [], rfl, rfl, rfl⟩

/-- How often an operation occurs in a list. -/
def Overlapped.occurrences (o : Overlapped) (l : List Overlapped) : ℕ := (l.map Overlapped.id).count o.id

/-- Each submitted operation is in one place, no operation was delivered twice,
each queue holds operations of its own line only, and those of a line entered the
completion list in the order of their submission. -/
structure Delivered (s : State n) : Prop where
  once : ∀ o ∈ s.submitted, o.occurrences (s.queue o.sep .read) + o.occurrences (s.queue o.sep .write) +
    o.occurrences s.mCompletionList + o.occurrences s.popped = 1
  delivered_once : (s.popped.map Overlapped.id).Nodup
  own : ∀ ep mode, ∀ o ∈ s.queue ep mode, o.sep = ep ∧ o.iotype.side = mode
  in_order : ∀ ep mode,
    ((s.popped ++ s.mCompletionList).filter (fun o => o.sep = ep ∧ o.iotype.side = mode)).map Overlapped.id <+:
      (s.submitted.filter (fun o => o.sep = ep ∧ o.iotype.side = mode)).map Overlapped.id

/-- The invariant. -/
structure Accounted (s : State n) : Prop where
  tracked : Tracked s
  numbered : s.submitted.map Overlapped.id = List.range s.nextOp
  owned : ∀ o ∈ s.submitted, o.sep < s.nextEp
  balanced : Balanced line (s.submitted.map Overlapped.key)
    ((s.popped ++ s.mCompletionList).map Overlapped.key) s.waiting
  history : s.popped ++ s.mCompletionList = s.entered.map Prod.fst

namespace Accounted

theorem initial (n : ℕ) : Accounted (State.initial n) where
  tracked := .initial n
  numbered := rfl
  owned _ ho := absurd ho List.not_mem_nil
  balanced _ := rfl
  history := rfl

theorem ids_nodup (h : Accounted s) : ((s.submitted.map Overlapped.key).map Prod.fst).Nodup := by
  have hids : (s.submitted.map Overlapped.id).Nodup := by
    rw [h.numbered]
    exact List.nodup_range
  rw [List.map_map]
  exact hids

theorem keys_nodup (h : Accounted s) : (s.submitted.map Overlapped.key).Nodup := h.ids_nodup.of_map _

theorem ids_inj (h : Accounted s) : ∀ x ∈ s.submitted.map Overlapped.key,
    ∀ y ∈ s.submitted.map Overlapped.key, x.1 = y.1 → x = y :=
  List.inj_on_of_nodup_map h.ids_nodup

/-- Where all operations were submitted, the number of one tells it. -/
theorem occurrences_eq (h : Accounted s) {o : Overlapped} (ho : o ∈ s.submitted) {l : List Overlapped}
    (hl : ∀ k ∈ l.map Overlapped.key, k ∈ s.submitted.map Overlapped.key) :
    o.occurrences l = (l.map Overlapped.key).count o.key := by
  rw [Overlapped.occurrences, List.count, List.count, List.countP_map, List.countP_map]
  apply List.countP_congr
  intro x hx
  simp only [Function.comp_apply, beq_iff_eq]
  constructor
  · intro hid
    exact h.ids_inj _ (hl _ (List.mem_map_of_mem hx)) _ (List.mem_map_of_mem ho) hid
  · intro hkey
    exact congrArg Prod.fst hkey

theorem queue_own (h : Accounted s) {ep : ℕ} {mode : Mode} {o : Overlapped} (ho : o ∈ s.queue ep mode) :
    o.key ∈ s.submitted.map Overlapped.key ∧ o.sep = ep ∧ o.iotype.side = mode := by
  have hwaiting : o.key ∈ s.waiting (ep, mode) := List.mem_map_of_mem ho
  obtain ⟨hmem, hline⟩ := h.balanced.waiting_mem hwaiting
  exact ⟨hmem, congrArg Prod.fst hline, congrArg Prod.snd hline⟩

theorem occurrences_queue (h : Accounted s) {o : Overlapped} (ho : o ∈ s.submitted) :
    o.occurrences (s.queue o.sep .read) + o.occurrences (s.queue o.sep .write) =
      (s.waiting (line o.key)).count o.key := by
  have hin : ∀ mode, o.occurrences (s.queue o.sep mode) = (s.waiting (o.sep, mode)).count o.key := by
    intro mode
    refine h.occurrences_eq ho ?_
    intro k hk
    obtain ⟨x, hx, rfl⟩ := List.mem_map.mp hk
    exact (h.queue_own hx).1
  have hother : ∀ mode, mode ≠ o.iotype.side → (s.waiting (o.sep, mode)).count o.key = 0 := by
    intro mode hmode
    apply List.count_eq_zero_of_not_mem
    intro hwaiting
    exact hmode (congrArg Prod.snd (h.balanced.waiting_mem hwaiting).2).symm
  have hline : line o.key = (o.sep, o.iotype.side) := rfl
  rw [hin, hin, hline]
  cases hside : o.iotype.side with
  | read =>
    rw [hother .write (by rw [hside]; exact Mode.noConfusion)]
    rfl
  | write =>
    rw [hother .read (by rw [hside]; exact Mode.noConfusion)]
    exact Nat.zero_add _

theorem delivered (h : Accounted s) : Delivered s where
  once o ho := by
    have hgone : ∀ k ∈ (s.popped ++ s.mCompletionList).map Overlapped.key,
        k ∈ s.submitted.map Overlapped.key := fun k => h.balanced.gone_mem
    have hone := h.balanced.count_eq_one h.keys_nodup (List.mem_map_of_mem ho)
    rw [← h.occurrences_queue ho, ← h.occurrences_eq ho hgone] at hone
    have happend : o.occurrences (s.popped ++ s.mCompletionList) =
        o.occurrences s.popped + o.occurrences s.mCompletionList := by
      rw [Overlapped.occurrences, List.map_append, List.count_append]
      rfl
    omega
  delivered_once := by
    have hgone := (h.balanced.gone_nodup h.keys_nodup)
    rw [List.map_append] at hgone
    have hinj := h.ids_inj
    have hpopped := hgone.of_append_left
    have hmap := hpopped.map_on (f := Prod.fst) ?_
    · rwa [List.map_map] at hmap
    · intro x hx y hy hxy
      refine hinj x (h.balanced.gone_mem ?_) y (h.balanced.gone_mem ?_) hxy
      · rw [List.map_append]
        exact List.mem_append_left _ hx
      · rw [List.map_append]
        exact List.mem_append_left _ hy
  own ep mode o ho := (h.queue_own ho).2
  in_order ep mode := by
    have hprefix := (h.balanced.in_order (ep, mode)).map Prod.fst
    rwa [ofClass_keys, ofClass_keys] at hprefix

theorem of_same (h : Accounted s) (htracked : Tracked t) (hsubmitted : t.submitted = s.submitted)
    (hnext : t.nextOp = s.nextOp) (hle : s.nextEp ≤ t.nextEp) (hgone : t.popped ++ t.mCompletionList = s.popped ++ s.mCompletionList)
    (hentered : t.entered = s.entered) (hqueue : ∀ ep mode, t.queue ep mode = s.queue ep mode) :
    Accounted t where
  tracked := htracked
  numbered := by rw [hsubmitted, hnext, h.numbered]
  owned o ho := lt_of_lt_of_le (h.owned o (hsubmitted ▸ ho)) hle
  balanced := by
    have hwaiting : t.waiting = s.waiting := by
      funext g
      rw [State.waiting, State.waiting, hqueue]
    rw [hsubmitted, hgone, hwaiting]
    exact h.balanced
  history := by rw [hgone, hentered, h.history]

/-- Steps that move operations to the completion list. -/
theorem of_moved (h : Accounted s) (htracked : Tracked t) (hsubmitted : t.submitted = s.submitted)
    (hnext : t.nextOp = s.nextOp) (hle : s.nextEp ≤ t.nextEp) (hpopped : t.popped = s.popped)
    (moved : List (Overlapped × Connection))
    (hlist : t.mCompletionList = s.mCompletionList ++ moved.map Prod.fst)
    (hentered : t.entered = s.entered ++ moved)
    (hmoved : ∀ g, ofClass line g (moved.map (fun c => c.1.key)) ++ t.waiting g = s.waiting g) :
    Accounted t where
  tracked := htracked
  numbered := by rw [hsubmitted, hnext, h.numbered]
  owned o ho := lt_of_lt_of_le (h.owned o (hsubmitted ▸ ho)) hle
  balanced := by
    have hgone : (t.popped ++ t.mCompletionList).map Overlapped.key =
        (s.popped ++ s.mCompletionList).map Overlapped.key ++ moved.map (fun c => c.1.key) := by
      rw [hpopped, hlist, ← List.append_assoc, List.map_append, List.map_map]
      rfl
    rw [hsubmitted, hgone]
    exact h.balanced.move hmoved
  history := by rw [hpopped, hlist, hentered, ← List.append_assoc, h.history, List.map_append]

/-- One endpoint loses the fronts of its queues, and the other lines stay. -/
theorem moved_of_fronts (h : Accounted s) (ep : ℕ) {rd wr : List (Overlapped × Connection)}
    (hrd : rd.map (fun c => c.1.key) ++ t.waiting (ep, .read) = s.waiting (ep, .read))
    (hwr : wr.map (fun c => c.1.key) ++ t.waiting (ep, .write) = s.waiting (ep, .write))
    (hother : ∀ g, g.1 ≠ ep → t.waiting g = s.waiting g) (g : ℕ × Mode) :
    ofClass line g ((rd ++ wr).map (fun c => c.1.key)) ++ t.waiting g = s.waiting g := by
  have hline : ∀ (l : List (Overlapped × Connection)) (mode : Mode) (rest : List (ℕ × ℕ × EIoType)),
      l.map (fun c => c.1.key) ++ rest = s.waiting (ep, mode) →
        ∀ k ∈ l.map (fun c => c.1.key), line k = (ep, mode) := by
    intro l mode rest heq k hk
    refine (h.balanced.waiting_mem ?_).2
    rw [← heq]
    exact List.mem_append_left _ hk
  have hrdline := hline rd .read _ hrd
  have hwrline := hline wr .write _ hwr
  rw [List.map_append, ofClass_append]
  obtain ⟨e, mode⟩ := g
  by_cases he : e = ep
  · subst he
    cases mode with
    | read =>
      rw [ofClass_eq_self hrdline, ofClass_eq_nil, List.append_nil]
      · exact hrd
      · intro k hk
        rw [hwrline k hk]
        exact fun heq => Mode.noConfusion (congrArg Prod.snd heq)
    | write =>
      rw [ofClass_eq_self hwrline, ofClass_eq_nil, List.nil_append]
      · exact hwr
      · intro k hk
        rw [hrdline k hk]
        exact fun heq => Mode.noConfusion (congrArg Prod.snd heq)
  · rw [ofClass_eq_nil, ofClass_eq_nil, hother (e, mode) he]
    · rfl
    · intro k hk
      rw [hwrline k hk]
      exact fun heq => he (congrArg Prod.fst heq).symm
    · intro k hk
      rw [hrdline k hk]
      exact fun heq => he (congrArg Prod.fst heq).symm

theorem submit (h : Accounted s) {ep : ℕ} {ctx : AsyncContext} (call : AsyncCall)
    (hctx : s.context ep = some ctx) : Accounted (s.submit ep ctx call) := by
  obtain ⟨hid, hline⟩ := overlapped_key s.nextOp ep call
  have htracked : Tracked (s.submit ep ctx call) :=
    h.tracked.submit call (by rw [hctx]; exact Option.some_ne_none ctx)
  refine ⟨htracked, ?_, ?_, ?_, h.history⟩
  · simp only [State.submit, List.map_append, List.map_cons, List.map_nil, hid, h.numbered,
      List.range_succ]
  · intro o ho
    rcases List.mem_append.mp ho with ho | ho
    · exact h.owned o ho
    · rw [List.mem_singleton.mp ho]
      have hep : (call.overlapped s.nextOp ep).sep = ep := congrArg Prod.fst hline
      rw [hep]
      exact h.tracked.lt_nextEp (by rw [hctx]; exact Option.some_ne_none ctx)
  · have hkeys : (s.submit ep ctx call).submitted.map Overlapped.key =
        s.submitted.map Overlapped.key ++ [(call.overlapped s.nextOp ep).key] := List.map_append
    rw [hkeys]
    apply h.balanced.submit
    rintro ⟨e, mode⟩
    rw [hline]
    by_cases he : e = ep
    · subst he
      rw [State.waiting, State.waiting, queue_of_context (submit_context ..), queue_of_context hctx, append_queue]
      by_cases hmode : call.mode = mode
      · rw [if_pos hmode, if_pos (by rw [hmode]), List.map_append]
        rfl
      · rw [if_neg hmode, if_neg (fun heq => hmode (congrArg Prod.snd heq).symm)]
    · have hne : (e, mode) ≠ (ep, call.mode) := fun heq => he (congrArg Prod.fst heq)
      rw [if_neg hne, State.waiting, State.waiting, queue_of_socket]
      exact (setContext_socket ..).trans (if_neg he)

theorem ready (h : Accounted s) {ep : ℕ} {ctx : AsyncContext} (hctx : s.context ep = some ctx)
    (results : ℕ → IoResult) : Accounted (s.ready b ep ctx results) := by
  obtain ⟨rd, wr, hcompleted, hrd, hwr⟩ := performQueues_keys s ep ctx results
  apply h.of_moved (h.tracked.ready hctx results) rfl rfl (Nat.le_add_right ..) rfl (rd ++ wr)
  · rw [← hcompleted]
    rfl
  · rw [← hcompleted]
    rfl
  · apply h.moved_of_fronts ep
    · rw [State.waiting, State.waiting, queue_of_context ready_context, queue_of_context hctx]
      exact hrd
    · rw [State.waiting, State.waiting, queue_of_context ready_context, queue_of_context hctx]
      exact hwr
    · rintro ⟨e, mode⟩ he
      rw [State.waiting, State.waiting]
      rcases ready_socket_of_ne b s ctx results he with
        heq | ⟨hle, _, a, _, hjoined⟩
      · rw [queue_of_socket heq]
      · rw [queue_of_joined hjoined, queue_of_unused (h.tracked.unused e hle)]

theorem handle (h : Accounted s) {evt : Event} {ctx : AsyncContext}
    (hctx : s.context evt.ep = some ctx) : Accounted (s.handle b evt ctx) := by
  obtain ⟨rd, wr, haborted, hrd, hwr⟩ := handle_fronts b evt ctx
  have hkey : ∀ l : List Overlapped,
      (l.map (fun o => (o.abort, (s.descriptor evt.ep).connection))).map (fun c => c.1.key) =
        l.map Overlapped.key := by
    intro l
    rw [List.map_map]
    rfl
  apply h.of_moved (h.tracked.handle (by rw [hctx]; exact Option.some_ne_none ctx)) rfl rfl le_rfl rfl
    (rd.map (fun o => (o.abort, (s.descriptor evt.ep).connection)) ++
      wr.map (fun o => (o.abort, (s.descriptor evt.ep).connection)))
  · simp only [State.handle, State.setContext, haborted, List.map_append, List.map_map]
    rfl
  · simp only [State.handle, State.setContext, haborted, List.map_append, List.map_map]
    rfl
  · apply h.moved_of_fronts evt.ep
    · rw [hkey, State.waiting, State.waiting, queue_of_context (handle_context ..), queue_of_context hctx,
        ← List.map_append]
      exact congrArg _ hrd
    · rw [hkey, State.waiting, State.waiting, queue_of_context (handle_context ..), queue_of_context hctx,
        ← List.map_append]
      exact congrArg _ hwr
    · rintro ⟨e, mode⟩ he
      rw [State.waiting, State.waiting, queue_of_socket]
      exact (setContext_socket ..).trans (if_neg he)

theorem move (h : Accounted s) {l : Label n} (hl : ¬ l.departs) (hmove : Move b s l t) : Accounted t := by
  have htracked := h.tracked.move hl hmove
  cases hmove with
  | stutter => exact h
  | nullContext ep call => exact h.of_same htracked rfl rfl le_rfl rfl rfl (fun _ _ => rfl)
  | turn l w pc hturn => exact h.of_same htracked rfl rfl le_rfl rfl rfl (fun _ _ => rfl)
  | waitFails w cnt hpc => exact h.of_same htracked rfl rfl le_rfl rfl rfl (fun _ _ => rfl)
  | join status hstatus =>
    apply h.of_same htracked rfl rfl (Nat.le_succ _) rfl rfl
    intro e mode
    by_cases he : e = s.nextEp
    · rw [queue_of_unused (h.tracked.unused e he.ge)]
      exact queue_of_joined ((openSocket_socket ..).trans (if_pos he)) mode
    · exact queue_of_socket ((openSocket_socket ..).trans (if_neg he)) mode
  | async ep call ctx hctx => exact h.submit call hctx
  | popCompletion w co rest hpc hlist =>
    apply h.of_same htracked rfl rfl le_rfl ?_ rfl (fun _ _ => rfl)
    rw [hlist]
    exact List.append_assoc ..
  | popReady w ep rest hpc hlist => exact h.of_same htracked rfl rfl le_rfl rfl rfl (fun _ _ => rfl)
  | ready w results ep cnt ctx hpc hctx =>
    exact (h.ready hctx results).of_same htracked rfl rfl le_rfl rfl rfl (fun _ _ => rfl)
  | wait w evts cnt socket hpc hharvest =>
    apply h.of_same htracked rfl rfl le_rfl rfl rfl
    intro e mode
    have hendpoint := (harvest_socket hharvest e).1
    simp only [State.queue, State.context, State.endpoint, hendpoint]
  | handle w evt rest ctx hpc hctx =>
    exact (h.handle hctx).of_same htracked rfl rfl le_rfl rfl rfl (fun _ _ => rfl)
  | settle ep success hconn =>
    apply h.of_same htracked rfl rfl le_rfl rfl rfl
    intro e mode
    rw [State.queue, State.context, setDescriptor_endpoint, State.queue, State.context]
  | departKernel => exact absurd trivial hl
  | departNull => exact absurd trivial hl
  | departContext => exact absurd trivial hl

theorem entered_owned (h : Accounted s) {o : Overlapped} (ho : o ∈ s.entered.map Prod.fst) :
    o.sep < s.nextEp := by
  rw [← h.history] at ho
  obtain ⟨k, hk, hkey⟩ := List.mem_map.mp (h.balanced.gone_mem (List.mem_map_of_mem ho))
  have hsep : k.sep = o.sep := congrArg (fun key => key.2.1) hkey
  rw [← hsep]
  exact h.owned k hk

/-- What the ready section completes belongs to its endpoint. -/
theorem completed_own (h : Accounted s) {ep : ℕ} {ctx : AsyncContext} (hctx : s.context ep = some ctx)
    (results : ℕ → IoResult) :
    ∀ c ∈ (s.performQueues ep ctx results).progress.completed, c.1.sep = ep := by
  obtain ⟨rd, wr, hcompleted, hrd, hwr⟩ := performQueues_keys s ep ctx results
  have hown : ∀ (mode : Mode) (l : List (Overlapped × Connection)) (rest : List (ℕ × ℕ × EIoType)),
      l.map (fun c => c.1.key) ++ rest = (ctx.queue mode).map Overlapped.key →
        ∀ c ∈ l, c.1.sep = ep := by
    intro mode l rest heq c hc
    have hkey : c.1.key ∈ (ctx.queue mode).map Overlapped.key := by
      rw [← heq]
      exact List.mem_append_left _ (List.mem_map_of_mem (f := fun c => c.1.key) hc)
    obtain ⟨o, ho, hokey⟩ := List.mem_map.mp hkey
    have hsep : o.sep = c.1.sep := congrArg (fun key => key.2.1) hokey
    rw [← hsep]
    rw [← queue_of_context hctx] at ho
    exact (h.queue_own ho).2.1
  intro c hc
  rw [hcompleted] at hc
  rcases List.mem_append.mp hc with hc | hc
  · exact hown .read rd _ hrd c hc
  · exact hown .write wr _ hwr c hc

theorem throughout (b : Backend) (n : ℕ) (labels : List (Label n)) (h : ∀ l ∈ labels, ¬ l.departs) :
    Throughout (step b) Accounted (State.initial n) labels := by
  refine throughout_of_invariant ?_ (Accounted.initial n) (along_of_forall h)
  intro s l hs hl
  obtain ⟨t, ht⟩ := hs.tracked.step_ok b l
  exact ⟨t, ht, hs.move hl (step_move ht)⟩

end Accounted

/-- No run loses, duplicates or reorders an operation, with either backend. -/
theorem delivered_throughout (b : Backend) (n : ℕ) (labels : List (Label n))
    (h : ∀ l ∈ labels, ¬ l.departs) : Throughout (step b) Delivered (State.initial n) labels :=
  (Accounted.throughout b n labels h).mono (fun _ => Accounted.delivered)

theorem delivered_throughout_strayEventRun :
    Throughout (step .epoll) Delivered (State.initial 1) strayEventRun :=
  delivered_throughout .epoll 1 strayEventRun (by decide)

end LibXpf.NetIoMux
