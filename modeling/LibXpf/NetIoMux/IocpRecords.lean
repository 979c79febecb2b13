import LibXpf.NetIoMux.IocpMoves

/-! # The records of the completion port

A record that is allocated is in exactly one place: a packet, the hand of a worker,
the kernel, or lost. It leaves the hand of the worker that reports it only to be
recycled, so every callback is called at most once and no record is used after it
was recycled, whatever the workers, the kernel and the callers interleave.
-/
namespace LibXpf.NetIoMux.Iocp
open GuardedRuns Custody

variable {n : ℕ} {s t : State n} {i : ℕ}

section Places

/-- The record a worker has in hand and has not reported. -/
def Pc.owed : Pc → Option ℕ
  | .reported _ _ => none
  | pc => pc.held

/-- Whether the worker has still to go through the switch with its record. -/
def Pc.opening : Pc → Bool
  | .dequeued _ => true
  | .observed _ _ _ => true
  | _ => false

/-- Whether the worker is between the switch and the report of an overlapped call that failed. -/
def Pc.calling : Pc → Bool
  | .launching _ _ => true
  | .rejected _ _ => true
  | _ => false

/-- How often a record is in a packet, with the kernel, lost, or in what `f` takes from a hand. -/
def State.found (f : Pc → Option ℕ) (s : State n) (i : ℕ) : ℕ :=
  (s.port.map Packet.odata).count i + (s.kernel.map Prod.snd).count i + s.lost.count i +
    holding (fun w => f (s.worker w)) i

/-- How many callbacks were called for a record. -/
def State.reports (s : State n) (i : ℕ) : ℕ :=
  s.log.countP (fun e => e.odata = i ∧ e.action.isCallback = true)

variable {f : Pc → Option ℕ} {w : Fin n} {pc : Pc}

theorem holding_hand (hworker : t.worker = Function.update s.worker w pc) :
    holding (fun v => f (t.worker v)) i + share (f (s.worker w)) i =
      holding (fun v => f (s.worker v)) i + share (f pc) i := by
  have hupdate : (fun v => f (t.worker v)) = Function.update (fun v => f (s.worker v)) w (f pc) := by
    rw [hworker]
    exact Function.comp_update f s.worker w pc
  rw [hupdate]
  exact holding_update (fun v => f (s.worker v)) w (f pc) i

/-- A move that changes one hand and nothing else that holds records. -/
theorem found_hand (hport : t.port = s.port) (hkernel : t.kernel = s.kernel) (hlost : t.lost = s.lost)
    (hworker : t.worker = Function.update s.worker w pc) :
    t.found f i + share (f (s.worker w)) i = s.found f i + share (f pc) i := by
  have hhand := holding_hand (f := f) (i := i) hworker
  rw [State.found, State.found, hport, hkernel, hlost]
  omega

theorem found_congr (hport : t.port = s.port) (hkernel : t.kernel = s.kernel) (hlost : t.lost = s.lost)
    (hworker : t.worker = s.worker) : t.found f i = s.found f i := by
  rw [State.found, State.found, hport, hkernel, hlost, hworker]

theorem found_dequeued (pc : Pc) {p : Packet} {rest : List Packet} (hport : s.port = p :: rest) :
    ({ s with port := rest }.setWorker w pc).found f i + (if p.odata = i then 1 else 0) +
      share (f (s.worker w)) i = s.found f i + share (f pc) i := by
  have hhand := holding_hand (s := s) (t := { s with port := rest }.setWorker w pc) (f := f) (i := i) rfl
  have hcount : (s.port.map Packet.odata).count i =
      (rest.map Packet.odata).count i + if p.odata = i then 1 else 0 := by
    rw [hport, List.map_cons, List.count_cons]
    simp only [beq_iff_eq]
  simp only [State.found, State.setWorker] at hhand ⊢
  omega

theorem found_lost {p : Packet} {rest : List Packet} (hport : s.port = p :: rest) :
    ({ s with port := rest, lost := s.lost ++ [p.odata] } : State n).found f i = s.found f i := by
  have hcount : (s.port.map Packet.odata).count i =
      (rest.map Packet.odata).count i + if p.odata = i then 1 else 0 := by
    rw [hport, List.map_cons, List.count_cons]
    simp only [beq_iff_eq]
  simp only [State.found, List.count_append, List.count_singleton, beq_iff_eq]
  omega

theorem found_submitted (pc : Pc) (key odata : ℕ) (action : Action) :
    (((s.toKernel key odata).logged key odata action).setWorker w pc).found f i +
      share (f (s.worker w)) i = s.found f i + share (f pc) i + if odata = i then 1 else 0 := by
  have hhand := holding_hand (s := s) (f := f) (i := i)
    (t := ((s.toKernel key odata).logged key odata action).setWorker w pc) rfl
  simp only [State.found, State.setWorker, State.logged, State.toKernel, List.map_append, List.map_cons, List.map_nil,
    List.count_append, List.count_singleton, beq_iff_eq] at hhand ⊢
  omega

theorem found_completed {k : ℕ × ℕ} {ret : Bool} {bytes : ℕ} {succeeded : List ℕ} (hk : k ∈ s.kernel) :
    ({ s with
        kernel := s.kernel.erase k
        port := s.port ++ [⟨k.1, k.2, ret, bytes⟩]
        succeeded := succeeded } : State n).found f i = s.found f i := by
  have hperm : (s.kernel.map Prod.snd).count i =
      ((s.kernel.erase k).map Prod.snd).count i + if k.2 = i then 1 else 0 := by
    rw [((List.perm_cons_erase hk).map Prod.snd).count_eq, List.map_cons, List.count_cons]
    simp only [beq_iff_eq]
  simp only [State.found, List.map_append, List.map_cons, List.map_nil, List.count_append,
    List.count_singleton, beq_iff_eq]
  omega

theorem found_post {ep : ℕ} {call : AsyncCall} {queued : Bool} :
    (s.post ep call queued).found f i = s.found f i + if s.nextRecord = i then 1 else 0 := by
  cases queued <;>
    simp only [State.found, State.post, if_true, Bool.false_eq_true, if_false, List.map_append, List.map_cons,
      List.map_nil, List.count_append, List.count_singleton, beq_iff_eq] <;> omega

theorem reports_append {e : Entry} (h : t.log = s.log ++ [e]) (i : ℕ) :
    t.reports i = s.reports i + if e.odata = i ∧ e.action.isCallback = true then 1 else 0 := by
  simp only [State.reports, h, List.countP_append, List.countP_cons, List.countP_nil, decide_eq_true_eq,
    Nat.zero_add]

end Places

/-- An allocated record is in one place, and one that is not is nowhere. -/
structure Placed (s : State n) : Prop where
  once : ∀ i, s.found Pc.held i = if (s.record i).isSome then 1 else 0
  fresh : ∀ i, s.nextRecord ≤ i → s.record i = none

namespace Placed

theorem initial (n : ℕ) : Placed (State.initial n) where
  once i := by
    simp only [State.found, State.initial, List.map_nil, List.count_nil, Option.isSome_none, Bool.false_eq_true,
      if_false, Nat.zero_add]
    exact holding_empty (fun w => rfl)
  fresh _ _ := rfl

theorem isSome_of_found (h : Placed s) (hpos : 0 < s.found Pc.held i) : ∃ o, s.record i = some o := by
  have hone := h.once i
  rw [← Option.isSome_iff_exists]
  by_contra hnone
  rw [if_neg hnone] at hone
  omega

theorem held_record (h : Placed s) {w : Fin n} (hw : (s.worker w).held = some i) :
    ∃ o, s.record i = some o := by
  apply h.isSome_of_found
  have hpos : 0 < holding (fun v => (s.worker v).held) i := holding_pos hw
  rw [State.found]
  omega

/-- A record in the hand of a worker is in no packet. -/
theorem port_not_held (h : Placed s) {p : Packet} (hp : p ∈ s.port) {w : Fin n}
    (hw : (s.worker w).held = some i) : p.odata ≠ i := by
  rintro rfl
  have hone := h.once p.odata
  have hport : 0 < (s.port.map Packet.odata).count p.odata :=
    List.count_pos_iff.mpr (List.mem_map_of_mem hp)
  have hpos : 0 < holding (fun v => (s.worker v).held) p.odata := holding_pos hw
  rw [State.found] at hone
  split at hone <;> omega

/-- No other worker has the record that a worker has. -/
theorem holder_unique (h : Placed s) {v w : Fin n} (hv : (s.worker v).held = some i)
    (hw : (s.worker w).held = some i) : v = w := by
  apply Custody.holder_unique (fun v => (s.worker v).held) ?_ hv hw
  have hone := h.once i
  rw [State.found] at hone
  split at hone <;> omega

/-- The hand of one worker changes, and the record in it. -/
theorem of_hand (h : Placed s) {w : Fin n} {pc : Pc} {o : Option NetIoMuxOverlapped} {odata : ℕ}
    (hport : t.port = s.port) (hkernel : t.kernel = s.kernel) (hlost : t.lost = s.lost)
    (hworker : t.worker = Function.update s.worker w pc) (hrecord : t.record = Function.update s.record odata o)
    (hnext : t.nextRecord = s.nextRecord) (hheld : (s.worker w).held = some odata)
    (hpc : pc.held = if o.isSome then some odata else none) : Placed t where
  once i := by
    have hfound := found_hand (f := Pc.held) (i := i) hport hkernel hlost hworker
    obtain ⟨q, hq⟩ := h.held_record hheld
    rw [hheld, hpc, h.once i] at hfound
    rw [hrecord, Function.update_apply]
    by_cases hi : i = odata
    · subst hi
      cases o with
      | none => simpa only [share_some, share_none, hq, Option.isSome_some, Option.isSome_none, if_true,
          Bool.false_eq_true, if_false, Nat.add_right_cancel_iff, Nat.add_zero, Nat.add_eq_right] using hfound
      | some o => simpa only [share_some, hq, Option.isSome_some, if_true, Nat.add_right_cancel_iff] using hfound
    · rw [if_neg hi]
      have hne : odata ≠ i := Ne.symm hi
      cases o with
      | none => simpa only [share_some, share_none, if_neg hne, Option.isSome_none, Bool.false_eq_true, if_false,
          Nat.add_zero] using hfound
      | some o => simpa only [share_some, if_neg hne, Option.isSome_some, if_true, Nat.add_zero] using hfound
  fresh i hi := by
    rw [hrecord, Function.update_apply]
    have hnone := h.fresh i (hnext ▸ hi)
    split
    · next heq =>
      obtain ⟨q, hq⟩ := h.held_record hheld
      rw [← heq, hnone] at hq
      cases hq
    · exact hnone

theorem of_same (h : Placed s) (hport : t.port = s.port) (hkernel : t.kernel = s.kernel)
    (hlost : t.lost = s.lost) (hworker : t.worker = s.worker) (hrecord : t.record = s.record)
    (hnext : t.nextRecord = s.nextRecord) : Placed t where
  once i := by rw [found_congr hport hkernel hlost hworker, hrecord, h.once i]
  fresh i hi := hrecord ▸ h.fresh i (hnext ▸ hi)

/-- The same record stays in the hand of the worker. -/
theorem of_kept (h : Placed s) {w : Fin n} {pc : Pc} {odata : ℕ}
    (hport : t.port = s.port) (hkernel : t.kernel = s.kernel) (hlost : t.lost = s.lost)
    (hworker : t.worker = Function.update s.worker w pc) (hrecord : t.record = s.record)
    (hnext : t.nextRecord = s.nextRecord) (hheld : (s.worker w).held = some odata)
    (hpc : pc.held = some odata) : Placed t := by
  obtain ⟨o, ho⟩ := h.held_record hheld
  apply h.of_hand hport hkernel hlost hworker (o := some o) ?_ hnext hheld
  · simpa only [Option.isSome_some, if_true] using hpc
  · rw [hrecord, ← ho, Function.update_eq_self]

theorem post (h : Placed s) {ep : ℕ} {call : AsyncCall} {queued : Bool} : Placed (s.post ep call queued) where
  once i := by
    rw [found_post, h.once i]
    change _ = if (Function.update s.record s.nextRecord _ i).isSome then 1 else 0
    rw [Function.update_apply]
    by_cases hi : i = s.nextRecord
    · rw [hi, h.fresh _ le_rfl, if_pos rfl, if_pos rfl]
      rfl
    · rw [if_neg hi, if_neg (Ne.symm hi), Nat.add_zero]
  fresh i hi := by
    have hlt : s.nextRecord + 1 ≤ i := hi
    change Function.update s.record s.nextRecord _ i = none
    rw [Function.update_of_ne (by omega)]
    exact h.fresh i (by omega)

theorem move (h : Placed s) {l : Label n} (hmove : Move s l t) : Placed t := by
  cases hmove with
  | stutter => exact h
  | failed => exact h.of_same rfl rfl rfl rfl rfl rfl
  | created => exact h.of_same rfl rfl rfl rfl rfl rfl
  | joined => exact h.of_same rfl rfl rfl rfl rfl rfl
  | departed => exact h.of_same rfl rfl rfl rfl rfl rfl
  | posted => exact h.post
  | loaded ep call ioctl queued ctx =>
    exact (h.of_same (t := s.setContext ep ctx) rfl rfl rfl rfl rfl rfl).post
  | dequeued w p rest hpc hport =>
    refine ⟨fun i => ?_, h.fresh⟩
    have hfound := found_dequeued (s := s) (f := Pc.held) (i := i) (w := w) (.dequeued p) hport
    rw [h.once i, hpc] at hfound
    simp only [Pc.held, share_none, share_some] at hfound
    change _ = if (s.record i).isSome then 1 else 0
    omega
  | lost w p rest hport =>
    refine ⟨fun i => ?_, h.fresh⟩
    rw [found_lost hport]
    exact h.once i
  | observed w result p o hpc =>
    exact h.of_kept rfl rfl rfl rfl rfl rfl (by rw [hpc]; rfl) rfl
  | concluded w c provisioning handle p st result o hpc =>
    exact h.of_kept rfl rfl rfl rfl rfl rfl (by rw [hpc]; rfl) rfl
  | initiated w c provisioning handle p st result o hpc ho =>
    have hheld : (s.worker w).held = some p.odata := by rw [hpc]; rfl
    rw [State.initiate]
    split
    · exact h.of_kept rfl rfl rfl rfl rfl rfl hheld rfl
    · exact h.of_kept rfl rfl rfl rfl rfl rfl hheld rfl
    · exact h.of_hand rfl rfl rfl rfl rfl rfl hheld rfl
  | submitted w c key odata o hpc =>
    refine ⟨fun i => ?_, h.fresh⟩
    have hfound := found_submitted (s := s) (f := Pc.held) (i := i) (w := w) .idle key odata (.submit true)
    rw [h.once i, hpc] at hfound
    simp only [Pc.held, share_none, share_some] at hfound
    change _ = if (s.record i).isSome then 1 else 0
    omega
  | refused w c key odata hpc => exact h.of_kept rfl rfl rfl rfl rfl rfl (by rw [hpc]; rfl) rfl
  | rejected w key odata o hpc => exact h.of_kept rfl rfl rfl rfl rfl rfl (by rw [hpc]; rfl) rfl
  | recycled w key odata o hpc => exact h.of_hand rfl rfl rfl rfl rfl rfl (by rw [hpc]; rfl) rfl
  | completed k ret bytes hk =>
    refine ⟨fun i => ?_, h.fresh⟩
    rw [found_completed hk]
    exact h.once i

end Placed
end LibXpf.NetIoMux.Iocp
