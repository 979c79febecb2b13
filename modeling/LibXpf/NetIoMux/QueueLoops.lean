import LibXpf.NetIoMux.Operations

/-! # What one pass over a queue can do

The loop tries operations from the front and stops at the first one that would
block. Whatever the system calls return, the operations that complete and those
that stay are the queue again, in its order.
-/
namespace LibXpf.NetIoMux

/-- What trying an operation never changes of it. -/
def Overlapped.key (o : Overlapped) : ℕ × ℕ × EIoType := (o.id, o.sep, o.iotype)

/-- A status that a socket may have when it joins. -/
def EStatus.Settled (status : EStatus) : Prop := status ≠ .connecting ∧ status ≠ .accepting

/-- The assertions in `performIoLocked`. -/
def performMessages : List String := ["Invalid socket status.", "ec == 0", "Unexpected iotype."]

section Attempts

/-- What holds of every outcome of trying `o`. An accepted endpoint is connected,
or unusable. -/
structure Performed.Sound (o : Overlapped) (e : Performed) : Prop where
  key : e.op.key = o.key
  accepted : ∀ a, e.accepted = some a → a.status.Settled
  failed : ∀ m ∈ e.failed, m ∈ performMessages

theorem mem_asserting {message m : String} {condition : Prop} [Decidable condition]
    (h : m ∈ asserting message condition) : m = message ∧ ¬ condition := by
  rw [asserting] at h
  split at h
  · exact absurd h List.not_mem_nil
  · next hcondition => exact ⟨List.mem_singleton.mp h, hcondition⟩

theorem status_assertion {condition : Prop} [Decidable condition] :
    ∀ m ∈ asserting "Invalid socket status." condition, m ∈ performMessages := by
  intro m hm
  rw [(mem_asserting hm).1]
  exact List.mem_cons_self

theorem Performed.Sound.of_key {o : Overlapped} {e : Performed} (hkey : e.op.key = o.key)
    (haccepted : e.accepted = none) (hfailed : ∀ m ∈ e.failed, m ∈ performMessages) : e.Sound o where
  key := hkey
  accepted a ha := absurd (haccepted.symm.trans ha) (Option.some_ne_none a).symm
  failed := hfailed

variable (r : IoResult) (ep : NetEndpoint) (o : Overlapped) (tep : ℕ)

theorem transferCall_sound : (transferCall r ep o).Sound o := by
  unfold transferCall
  split
  · exact .of_key rfl rfl (by simp)
  · split
    · exact .of_key rfl rfl (by simp)
    · exact .of_key rfl rfl (by simp)

theorem performTransfer_sound : (performTransfer r ep o).Sound o := by
  unfold performTransfer
  split
  · dsimp only
    split
    · exact .of_key rfl rfl status_assertion
    · obtain ⟨hkey, haccepted, hfailed⟩ := transferCall_sound r ep
        { o with provisioned := true }
      exact ⟨hkey, haccepted, hfailed⟩
  · exact transferCall_sound r ep o

theorem acceptCall_sound : (acceptCall r ep o tep).Sound o := by
  unfold acceptCall
  split
  · refine ⟨rfl, ?_, by simp⟩
    intro a ha
    cases ha
    dsimp only
    split <;> simp [EStatus.Settled]
  · split
    · exact .of_key rfl rfl (by simp)
    · exact .of_key rfl rfl (by simp)

theorem performAccept_sound : (performAccept r ep o tep).Sound o := by
  unfold performAccept
  split
  · dsimp only
    split
    · exact .of_key rfl rfl status_assertion
    · obtain ⟨hkey, haccepted, hfailed⟩ := acceptCall_sound r ep
        { o with provisioned := true } tep
      exact ⟨hkey, haccepted, hfailed⟩
  · exact acceptCall_sound r ep o tep

theorem connectCall_sound : (connectCall r ep o).Sound o := by
  unfold connectCall
  split
  · split
    · exact .of_key rfl rfl (by simp)
    · split
      · exact .of_key rfl rfl (by simp)
      · exact .of_key rfl rfl (by simp)
  · have hfailed : ∀ m ∈ (if r.ret = some 0 then [] else ["ec == 0"]), m ∈ performMessages := by
      intro m hm
      split at hm
      · exact absurd hm List.not_mem_nil
      · rw [List.mem_singleton.mp hm]
        decide
    dsimp only
    split
    · exact .of_key rfl rfl hfailed
    · exact .of_key rfl rfl hfailed

theorem performConnect_sound : (performConnect r ep o).Sound o := by
  unfold performConnect
  split
  · dsimp only
    split
    · exact .of_key rfl rfl status_assertion
    · split
      · exact .of_key rfl rfl (by simp)
      · obtain ⟨hkey, haccepted, hfailed⟩ := connectCall_sound r ep
          { o with peer := true, provisioned := true }
        exact ⟨hkey, haccepted, hfailed⟩
  · exact connectCall_sound r ep o

theorem performIoLocked_sound : (performIoLocked r ep o tep).Sound o := by
  unfold performIoLocked
  cases o.iotype with
  | recv => exact performTransfer_sound r ep o
  | recvFrom => exact performTransfer_sound r ep o
  | accept => exact performAccept_sound r ep o tep
  | send => exact performTransfer_sound r ep o
  | sendTo => exact performTransfer_sound r ep o
  | connect => exact performConnect_sound r ep o
  | invalid =>
    refine .of_key rfl rfl ?_
    intro m hm
    rw [List.mem_singleton.mp hm]
    decide

end Attempts

section Loop

variable (results : ℕ → IoResult) (firstNew : ℕ)

/-- One round of the loop over a queue. -/
def attempt (o : Overlapped) (p : Progress) : Performed :=
  performIoLocked (results o.id) p.ep o (firstNew + p.accepted.length)

theorem attempt_sound (o : Overlapped) (p : Progress) : (attempt results firstNew o p).Sound o :=
  performIoLocked_sound (results o.id) p.ep o (firstNew + p.accepted.length)

variable {results : ℕ → IoResult} {firstNew : ℕ}

theorem performQueue_done {o : Overlapped} {p : Progress} (rest : List Overlapped)
    (h : (attempt results firstNew o p).completed = true) :
    performQueue results firstNew (o :: rest) p =
      performQueue results firstNew rest (p.add (attempt results firstNew o p)) := by
  rw [performQueue]
  exact if_pos h

theorem performQueue_stop {o : Overlapped} {p : Progress} (rest : List Overlapped)
    (h : (attempt results firstNew o p).completed = false) :
    performQueue results firstNew (o :: rest) p =
      ((attempt results firstNew o p).op :: rest, p.add (attempt results firstNew o p)) := by
  rw [performQueue]
  exact if_neg (Bool.eq_false_iff.mp h)

/-- The rule of the loop: `M` holds while rounds complete, and `N` where it ends. -/
theorem performQueue_rule {M N : List Overlapped → Progress → Prop}
    (hdone : ∀ o rest p, M (o :: rest) p → (attempt results firstNew o p).completed = true →
      M rest (p.add (attempt results firstNew o p)))
    (hstop : ∀ o rest p, M (o :: rest) p → (attempt results firstNew o p).completed = false →
      N ((attempt results firstNew o p).op :: rest) (p.add (attempt results firstNew o p)))
    (hnil : ∀ p, M [] p → N [] p) {queue : List Overlapped} {p : Progress} (h : M queue p) :
    N (performQueue results firstNew queue p).1 (performQueue results firstNew queue p).2 := by
  induction queue generalizing p with
  | nil => exact hnil p h
  | cons o rest ih =>
    cases hcase : (attempt results firstNew o p).completed with
    | true =>
      rw [performQueue_done rest hcase]
      exact ih (hdone o rest p h hcase)
    | false =>
      rw [performQueue_stop rest hcase]
      exact hstop o rest p h hcase

theorem Progress.add_completed_of_done {p : Progress} {e : Performed} (h : e.completed = true) :
    (p.add e).completed = p.completed ++ [(e.op, (p.add e).connection)] := if_pos h

theorem Progress.add_completed_of_stop {p : Progress} {e : Performed} (h : e.completed = false) :
    (p.add e).completed = p.completed := if_neg (Bool.eq_false_iff.mp h)

/-- No operation is lost, duplicated or moved past another one. -/
theorem performQueue_keys (results : ℕ → IoResult) (firstNew : ℕ) (queue : List Overlapped)
    (p : Progress) :
    ∃ moved, (performQueue results firstNew queue p).2.completed = p.completed ++ moved ∧
      moved.map (fun c => c.1.key) ++ (performQueue results firstNew queue p).1.map Overlapped.key =
        queue.map Overlapped.key := by
  let M : List Overlapped → Progress → Prop := fun l q => ∃ moved,
    q.completed = p.completed ++ moved ∧
      moved.map (fun c => c.1.key) ++ l.map Overlapped.key = queue.map Overlapped.key
  refine performQueue_rule (M := M) (N := M) ?_ ?_ (fun _ h => h) ?_
  · rintro o rest q ⟨moved, hmoved, hkeys⟩ hdone
    refine ⟨moved ++ [((attempt results firstNew o q).op, (q.add (attempt results firstNew o q)).connection)],
      ?_, ?_⟩
    · rw [Progress.add_completed_of_done hdone, hmoved, List.append_assoc]
    · rw [← hkeys]
      simp only [List.map_append, List.map_cons, List.map_nil, List.append_assoc,
        List.singleton_append, (attempt_sound results firstNew o q).key]
  · rintro o rest q ⟨moved, hmoved, hkeys⟩ hstop
    refine ⟨moved, ?_, ?_⟩
    · rw [Progress.add_completed_of_stop hstop, hmoved]
    · rw [← hkeys]
      simp only [List.map_cons, (attempt_sound results firstNew o q).key]
  · exact ⟨[], (List.append_nil _).symm, rfl⟩

/-- What every attempt adds to the progress, whether it completes or not. -/
theorem performQueue_progress {M : Progress → Prop}
    (hadd : ∀ o p, M p → M (p.add (attempt results firstNew o p))) (queue : List Overlapped)
    {p : Progress} (h : M p) : M (performQueue results firstNew queue p).2 :=
  performQueue_rule (M := fun _ q => M q) (N := fun _ q => M q) (fun o _ q hq _ => hadd o q hq)
    (fun o _ q hq _ => hadd o q hq) (fun _ hq => hq) h

theorem performQueue_accepted (queue : List Overlapped) {p : Progress}
    (h : ∀ a ∈ p.accepted, a.status.Settled) :
    ∀ a ∈ (performQueue results firstNew queue p).2.accepted, a.status.Settled := by
  apply performQueue_progress (M := fun q => ∀ a ∈ q.accepted, a.status.Settled)
  · intro o q hq a ha
    rcases List.mem_append.mp ha with ha | ha
    · exact hq a ha
    · exact (attempt_sound results firstNew o q).accepted a (Option.mem_toList.mp ha)
  · exact h

theorem performQueue_failed (queue : List Overlapped) {p : Progress}
    (h : ∀ m ∈ p.failed, m ∈ performMessages) :
    ∀ m ∈ (performQueue results firstNew queue p).2.failed, m ∈ performMessages := by
  apply performQueue_progress (M := fun q => ∀ m ∈ q.failed, m ∈ performMessages)
  · intro o q hq m hm
    rcases List.mem_append.mp hm with hm | hm
    · exact hq m hm
    · exact (attempt_sound results firstNew o q).failed m hm
  · exact h

end Loop

section Outcomes

/-- The operation of a side that moves the status of the endpoint. -/
def Mode.handshake : Mode → EIoType
  | .read => .accept
  | .write => .connect

/-- The status a handshake starts from, and comes back to when it fails. -/
def Mode.home : Mode → EStatus
  | .read => .listening
  | .write => .init

/-- The status while a handshake waits. -/
def Mode.busy : Mode → EStatus
  | .read => .accepting
  | .write => .connecting

/-- The status after a handshake that succeeds. -/
def Mode.reached : Mode → EStatus
  | .read => .listening
  | .write => .connected

/-- What trying a handshake comes to. It is refused while it is new, or it was
provisioned before or finds the endpoint at home. -/
inductive Outcome (mode : Mode) (ep : NetEndpoint) (o : Overlapped) (e : Performed) : Prop
  | refused (hnew : o.provisioned = false) (hdone : e.completed = true) (hep : e.ep = ep)
      (hop : e.op.provisioned = false)
  | finished (hstart : o.provisioned = true ∨ ep.status = mode.home) (hdone : e.completed = true)
      (hop : e.op.provisioned = true)
      (hstatus : e.ep.status = mode.home ∨ e.ep.status = mode.reached ∧ e.op.errorcode = 0)
  | blocked (hstart : o.provisioned = true ∨ ep.status = mode.home) (hstop : e.completed = false)
      (hop : e.op.provisioned = true) (hstatus : e.ep.status = mode.busy)

variable {r : IoResult} {ep : NetEndpoint} {o : Overlapped} {tep : ℕ}

theorem acceptCall_outcome (hstart : o.provisioned = true ∨ ep.status = .listening)
    (k : Overlapped) (hk : k.provisioned = true) : Outcome .read ep o (acceptCall r ep k tep) := by
  unfold acceptCall
  split
  · exact .finished hstart rfl hk (.inl rfl)
  · split
    · exact .finished hstart rfl hk (.inl rfl)
    · exact .blocked hstart rfl hk rfl

theorem performAccept_outcome : Outcome .read ep o (performAccept r ep o tep) := by
  unfold performAccept
  split
  · next hnew =>
    dsimp only
    split
    · exact .refused hnew rfl rfl hnew
    · next hlistening => exact acceptCall_outcome (.inr (not_not.mp hlistening).symm) _ rfl
  · next hprovisioned =>
    rw [Bool.not_eq_false] at hprovisioned
    exact acceptCall_outcome (.inl hprovisioned) o hprovisioned

theorem connectCall_outcome (hstart : o.provisioned = true ∨ ep.status = .init)
    (k : Overlapped) (hk : k.provisioned = true) : Outcome .write ep o (connectCall r ep k) := by
  unfold connectCall
  split
  · split
    · exact .finished hstart rfl hk (.inr ⟨rfl, rfl⟩)
    · split
      · exact .finished hstart rfl hk (.inl rfl)
      · exact .blocked hstart rfl hk rfl
  · dsimp only
    split
    · exact .finished hstart rfl hk (.inr ⟨rfl, rfl⟩)
    · exact .finished hstart rfl hk (.inl rfl)

theorem performConnect_outcome : Outcome .write ep o (performConnect r ep o) := by
  unfold performConnect
  split
  · next hnew =>
    dsimp only
    split
    · exact .refused hnew rfl rfl hnew
    · next hinit =>
      split
      · exact .refused hnew rfl rfl hnew
      · exact connectCall_outcome (.inr (not_not.mp (not_or.mp hinit).1).symm) _ rfl
  · next hprovisioned =>
    rw [Bool.not_eq_false] at hprovisioned
    exact connectCall_outcome (.inl hprovisioned) o hprovisioned

theorem transferCall_status : (transferCall r ep o).ep.status = ep.status := by
  unfold transferCall
  split
  · rfl
  · split <;> rfl

theorem performTransfer_status : (performTransfer r ep o).ep.status = ep.status := by
  unfold performTransfer
  split
  · dsimp only
    split
    · rfl
    · exact transferCall_status
  · exact transferCall_status

theorem transferCall_connection : (transferCall r ep o).connection = none := by
  unfold transferCall
  split
  · rfl
  · split <;> rfl

theorem performTransfer_connection : (performTransfer r ep o).connection = none := by
  unfold performTransfer
  split
  · dsimp only
    split
    · rfl
    · exact transferCall_connection
  · exact transferCall_connection

theorem acceptCall_connection : (acceptCall r ep o tep).connection = none := by
  unfold acceptCall
  split
  · rfl
  · split <;> rfl

theorem performAccept_connection : (performAccept r ep o tep).connection = none := by
  unfold performAccept
  split
  · dsimp only
    split
    · rfl
    · exact acceptCall_connection
  · exact acceptCall_connection

variable (results : ℕ → IoResult) (firstNew : ℕ) (p : Progress) {mode : Mode}

/-- Only a connect tells the kernel to connect. -/
theorem attempt_connection (h : o.iotype ≠ .connect) :
    (attempt results firstNew o p).connection = none := by
  simp only [attempt, performIoLocked]
  cases hio : o.iotype with
  | accept => exact performAccept_connection
  | connect => exact absurd hio h
  | invalid => rfl
  | _ => exact performTransfer_connection

theorem attempt_outcome (h : o.iotype = mode.handshake) :
    Outcome mode p.ep o (attempt results firstNew o p) := by
  cases mode with
  | read =>
    simp only [Mode.handshake] at h
    simp only [attempt, performIoLocked, h]
    exact performAccept_outcome
  | write =>
    simp only [Mode.handshake] at h
    simp only [attempt, performIoLocked, h]
    exact performConnect_outcome

theorem attempt_status (hside : o.iotype.side = mode) (h : o.iotype ≠ mode.handshake) :
    (attempt results firstNew o p).ep.status = p.ep.status := by
  subst hside
  simp only [attempt, performIoLocked]
  cases hio : o.iotype with
  | accept => exact absurd (by rw [hio]; rfl) h
  | connect => exact absurd (by rw [hio]; rfl) h
  | invalid => rfl
  | _ => exact performTransfer_status

end Outcomes

end LibXpf.NetIoMux
