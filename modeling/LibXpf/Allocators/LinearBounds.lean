import LibXpf.Allocators.LinearRuns

/-! # Sizes a `LinearAllocator` can serve

Here a caller asks for any 32-bit size, and only owes that the pointers it gives
back are live. `alloc` adds the header and rounds up in 32 bits before it
compares with `available`, which has taken off a header already. So the sizes
just below `available` are refused, and those that wrap are served with a cell
of zero or eight bytes.
-/
namespace LibXpf.Allocators
open ByteMemory Relation GuardedRuns

theorem upgradeToMultipleOf8_wraps {size : ℕ} (hlo : 2 ^ 32 ≤ size + 7) (hhi : size < 2 ^ 32) :
    upgradeToMultipleOf8 size = 0 := by
  have hland : size &&& 0x7 = size % 8 := Nat.and_two_pow_sub_one_eq_mod size 3
  have hshift : ((size >>> 3) + 1) <<< 3 = 2 ^ 32 := by
    rw [Nat.shiftRight_eq_div_pow, Nat.shiftLeft_eq]
    omega
  have hne : size % 8 ≠ 0 := by omega
  rw [upgradeToMultipleOf8, hland, if_pos hne, hshift]
  rfl

namespace LinearAllocatorDetails
variable {s t : LinearAllocatorDetails} {size n off fuel p : ℕ}

section CellSizes

theorem cellSize_of_le (h : size ≤ 2 ^ 32 - 16) : cellSize size = (size + 15) / 8 * 8 := by
  have hu : u32 (size + sizeofFreeCellRecord) = size + 8 := u32_of_lt (by
    dsimp only [sizeofFreeCellRecord]
    omega)
  rw [cellSize, hu, upgradeToMultipleOf8_eq (by omega)]

/-- The rounding wraps. -/
theorem cellSize_rounded (hlo : 2 ^ 32 - 16 < size) (hhi : size ≤ 2 ^ 32 - 8) : cellSize size = 0 := by
  rcases hhi.eq_or_lt with rfl | hlt
  · rfl
  · have hu : u32 (size + sizeofFreeCellRecord) = size + 8 := u32_of_lt (by
      dsimp only [sizeofFreeCellRecord]
      omega)
    rw [cellSize, hu]
    exact upgradeToMultipleOf8_wraps (by omega) (by omega)

/-- Adding the header wraps. -/
theorem cellSize_added (hlo : 2 ^ 32 - 8 < size) (hhi : size < 2 ^ 32) : cellSize size = 8 := by
  have hu : u32 (size + sizeofFreeCellRecord) = size + 8 - 2 ^ 32 := by
    dsimp only [u32, sizeofFreeCellRecord]
    omega
  rw [cellSize, hu, upgradeToMultipleOf8_eq (by omega)]
  omega

/-- The cell has room for the header and the size exactly when nothing wraps. -/
theorem le_cellSize_iff (hhi : size < 2 ^ 32) : size + 8 ≤ cellSize size ↔ size ≤ 2 ^ 32 - 16 := by
  rcases Nat.lt_or_ge (2 ^ 32 - 16) size with hlo | hle
  · rcases Nat.lt_or_ge (2 ^ 32 - 8) size with hlo' | hle'
    · rw [cellSize_added hlo' hhi]
      omega
    · rw [cellSize_rounded hlo hle']
      omega
  · rw [cellSize_of_le hle]
    omega

end CellSizes

/-- What the fields satisfy whatever the bytes of the chunk are. -/
structure Bounded (s : LinearAllocatorDetails) : Prop where
  capacity_ge : 16 ≤ s.capacity
  capacity_le : s.capacity ≤ 2 ^ 31
  capacity_dvd : 8 ∣ s.capacity
  current_lt : s.current < 2 ^ 31
  previous_lt : s.previous < 2 ^ 31

section Outcomes

/-- `alloc` refuses, pushes a cell, or stops at its assertion. -/
inductive Allocated (s : LinearAllocatorDetails) (size : ℕ) : Except Fault (ℕ × LinearAllocatorDetails) → Prop
  | refused (hfit : s.available < cellSize size) : Allocated s size (.ok (NULL, s))
  | pushed (t : LinearAllocatorDetails) (hfit : cellSize size ≤ s.available)
      (hcur : s.current < s.capacity) (chunk : t.chunk = s.chunk) (capacity : t.capacity = s.capacity)
      (current : t.current = s.current + cellSize size) (previous : t.previous = s.current)
      (word : prevOffset t.mem (s.chunk + s.current) = s.previous)
      (frame : ∀ x, x < s.chunk + s.current ∨ s.chunk + s.current + 8 ≤ x → t.mem x = s.mem x) :
      Allocated s size (.ok (s.chunk + s.current + 8, t))
  | stopped (e : Fault) (hfit : cellSize size ≤ s.available) (hcur : s.capacity ≤ s.current) :
      Allocated s size (.error e)

theorem Bounded.alloc_allocated (h : Bounded s) (size : ℕ) : Allocated s size (s.alloc size) := by
  rcases Nat.lt_or_ge s.available (cellSize size) with hfit | hfit
  · rw [alloc_refused hfit]
    exact .refused hfit
  rcases Nat.lt_or_ge s.current s.capacity with hlt | hge
  · have havail := available_eq hlt.le h.capacity_le
    have hcap := h.capacity_le
    have hsum : u32 (s.current + cellSize size) = s.current + cellSize size := u32_of_lt (by omega)
    rw [alloc_pushed h.previous_lt hfit hlt]
    exact .pushed _ hfit hlt rfl rfl hsum rfl (prevOffset_recorded h.previous_lt) (fun x hx => recorded_outside hx)
  · have hfit' : ¬ upgradeToMultipleOf8 (u32 (size + sizeofFreeCellRecord)) > s.available := not_lt.mpr hfit
    have hrun : s.alloc size = .error (.assertion "Expecting Current < Capacity") := by
      unfold alloc
      simp only [hfit', if_false, not_lt.mpr hge, xpfAssert]
      rfl
    rw [hrun]
    exact .stopped _ hfit hge

theorem Bounded.of_mem (h : Bounded s) (mem : Memory) : Bounded { s with mem := mem } :=
  ⟨h.capacity_ge, h.capacity_le, h.capacity_dvd, h.current_lt, h.previous_lt⟩

theorem Bounded.alloc (h : Bounded s) (hrun : s.alloc size = .ok (p, t)) :
    Bounded t ∧ t.chunk = s.chunk ∧ t.capacity = s.capacity := by
  have hcases := h.alloc_allocated size
  rw [hrun] at hcases
  cases hcases with
  | refused => exact ⟨h, rfl, rfl⟩
  | pushed t hfit hcur hchunk hcap hcurrent hprev =>
    have hle := h.capacity_le
    have havail := available_eq hcur.le hle
    exact ⟨⟨hcap ▸ h.capacity_ge, hcap ▸ hle, hcap ▸ h.capacity_dvd, by omega, by omega⟩, hchunk, hcap⟩

/-- Whatever records it meets, a rollback that ends leaves small offsets. -/
theorem Bounded.rollback (h : Bounded s) (hoff : off < 2 ^ 31)
    (hrun : rollback fuel s off = .ok t) :
    Bounded t ∧ t.chunk = s.chunk ∧ t.capacity = s.capacity := by
  induction fuel generalizing s off with
  | zero => cases hrun
  | succ fuel ih =>
    have hu : u32 off = off := u32_of_lt (hoff.trans (by norm_num))
    by_cases hzero : off = 0
    · simp only [LinearAllocatorDetails.rollback, hu, if_pos hzero, pure_eq_ok] at hrun
      cases hrun
      exact ⟨⟨h.capacity_ge, h.capacity_le, h.capacity_dvd, hoff, by norm_num⟩, rfl, rfl⟩
    · simp only [LinearAllocatorDetails.rollback, hu, if_neg hzero] at hrun
      obtain ⟨_, -, hrun⟩ := ok_of_bind hrun
      have hprev : prevOffset s.mem (s.chunk + s.previous) &&& 0x7FFFFFFF < 2 ^ 31 := by
        rw [land_0x7FFFFFFF]
        exact Nat.mod_lt _ (by norm_num)
      have hnext : Bounded { s with
          current := off
          previous := prevOffset s.mem (s.chunk + s.previous) &&& 0x7FFFFFFF } :=
        ⟨h.capacity_ge, h.capacity_le, h.capacity_dvd, hoff, hprev⟩
      split at hrun
      · cases hrun
        exact ⟨hnext, rfl, rfl⟩
      · obtain ⟨hb, hchunk, hcap⟩ := ih hnext h.previous_lt hrun
        exact ⟨hb, hchunk, hcap⟩

theorem Bounded.free (h : Bounded s) (hrun : s.free p = .ok t) :
    Bounded t ∧ t.chunk = s.chunk ∧ t.capacity = s.capacity := by
  have hle := h.capacity_le
  have hmark := h.of_mem (store 4 s.mem (p - sizeofFreeCellRecord)
    (prevOffset s.mem (p - sizeofFreeCellRecord) ||| 0x80000000))
  obtain ⟨_, hassert, hrun⟩ := ok_of_bind hrun
  have hcell := holds_of_xpfAssert hassert
  rw [if_pos hcell] at hrun
  obtain ⟨_, -, hrun⟩ := ok_of_bind hrun
  obtain ⟨_, -, hrun⟩ := ok_of_bind hrun
  dsimp only at hrun
  split at hrun
  · cases hrun
    exact ⟨hmark, rfl, rfl⟩
  · refine hmark.rollback ?_ hrun
    omega

theorem Bounded.calloc {t : LinearAllocatorDetails} {num p : ℕ} (h : Bounded s) (hrun : s.calloc num size = .ok (p, t)) :
    Bounded t := by
  obtain ⟨⟨q, u⟩, halloc, hfill⟩ := ok_of_bind hrun
  have hu := (h.alloc halloc).1
  dsimp only at hfill
  split at hfill
  · cases hfill
    exact hu.of_mem _
  · cases hfill
    exact hu

theorem Bounded.realloc {t : LinearAllocatorDetails} {p q : ℕ} (h : Bounded s) (hrun : s.realloc p size = .ok (q, t)) :
    Bounded t := by
  rw [realloc_eq] at hrun
  split at hrun
  · cases hrun
    exact h
  · obtain ⟨⟨q', u⟩, halloc, hmove⟩ := ok_of_bind hrun
    have hu := (h.alloc halloc).1
    dsimp only at hmove
    split at hmove
    · obtain ⟨v, hfree, hv⟩ := ok_of_bind hmove
      cases hv
      exact ((hu.of_mem _).free hfree).1
    · cases hmove
      exact hu

end Outcomes
end LinearAllocatorDetails

namespace Linear
open LinearAllocatorDetails
variable {w w' : State} {r : Request} {size n p : ℕ}

/-- All that a caller owes: what it gives back is live. -/
def Callable (w : State) (r : Request) : Prop := r.argumentsLive w.live

instance (w : State) (r : Request) : Decidable (Callable w r) :=
  inferInstanceAs (Decidable (r.argumentsLive w.live))

/-- A state that a run of any such requests reaches. -/
def Reached (size chunk : ℕ) (mem : Memory) (requests : List Request) (w : State) : Prop :=
  Along step Callable (fresh size chunk mem) requests ∧
    final step (fresh size chunk mem) requests = .ok w

theorem bounded_fresh (size chunk : ℕ) (mem : Memory) : Bounded (fresh size chunk mem).details := by
  obtain ⟨hge, hle, hdvd⟩ := constructedCapacity_spec size
  exact ⟨hge, hle, hdvd, by norm_num [fresh, construct], by norm_num [fresh, construct]⟩

theorem bounded_step (h : Bounded w.details) (hrun : step w r = .ok w') : Bounded w'.details := by
  have hanswered := Session.step_answered hrun
  generalize w'.details = t at hanswered ⊢
  cases hanswered with
  | alloc halloc => exact (h.alloc halloc).1
  | calloc hcalloc => exact h.calloc hcalloc
  | realloc hrealloc => exact h.realloc hrealloc
  | free hfree => exact (h.free hfree).1
  | dealloc hfree => exact (h.free hfree).1
  | reset =>
    exact ⟨h.capacity_ge, h.capacity_le, h.capacity_dvd, by norm_num [interface, reset], by norm_num [interface, reset]⟩
  | write p i v => exact h.of_mem _

theorem Reached.bounded {size chunk : ℕ} {mem : Memory} {requests : List Request}
    (h : Reached size chunk mem requests w) : Bounded w.details :=
  final_of_preserved (fun _ _ _ hinv _ hrun => bounded_step hinv hrun)
    (bounded_fresh size chunk mem) h.1 h.2

section Available

def Allocates (s : LinearAllocatorDetails) (size : ℕ) : Prop :=
  ∃ p t, s.alloc size = .ok (p, t) ∧ p ≠ NULL

theorem allocates_iff {s : LinearAllocatorDetails} (h : Bounded s) :
    Allocates s size ↔ cellSize size ≤ s.available ∧ s.current < s.capacity := by
  have hcases := h.alloc_allocated size
  unfold Allocates
  generalize s.alloc size = result at hcases
  cases hcases with
  | refused hfit =>
    refine iff_of_false ?_ (by omega)
    rintro ⟨p, t, heq, hp⟩
    cases heq
    exact hp rfl
  | pushed t hfit hcur => exact iff_of_true ⟨_, t, rfl, by simp [NULL]⟩ ⟨hfit, hcur⟩
  | stopped e hfit hcur =>
    refine iff_of_false ?_ (by omega)
    rintro ⟨p, t, heq, -⟩
    cases heq

/-- In every reachable state, `available` tells whether a size within the
capacity is served if and only if the size is not among the last ones below
`available`, for which the header is counted a second time. -/
theorem alloc_iff_available (size chunk : ℕ) (mem : Memory) (requests : List Request) (w : State)
    (h : Reached size chunk mem requests w) (bytes : ℕ) (hcap : bytes ≤ w.details.capacity) :
    (Allocates w.details bytes ↔ bytes ≤ w.details.available) ↔
      w.details.available < bytes ∨
        (bytes + 15) / 8 * 8 ≤ w.details.available ∧ w.details.current < w.details.capacity := by
  have hb := h.bounded
  have hle := hb.capacity_le
  rw [allocates_iff hb, cellSize_of_le (by omega)]
  constructor
  · intro hiff
    by_cases hfit : bytes ≤ w.details.available
    · exact Or.inr (hiff.mpr hfit)
    · exact Or.inl (not_le.mp hfit)
  · rintro (hlong | hserved)
    · exact iff_of_false (by omega) (by omega)
    · exact iff_of_true hserved (by omega)

/-- Two blocks, of which the lower one is given back. -/
def releasedBelowRun : List Request := [.alloc 20, .alloc 100, .free 4104]

theorem releasedBelowRun_reaches :
    ∃ w, Reached 1024 4096 (fun _ => 0) releasedBelowRun w ∧ 800 ≤ w.details.capacity := by
  have hcall : Along step Callable (fresh 1024 4096 (fun _ => 0)) releasedBelowRun := by decide +kernel
  have hreturns : Returns (final step (fresh 1024 4096 (fun _ => 0)) releasedBelowRun)
      fun w => 800 ≤ w.details.capacity := by decide +kernel
  obtain ⟨w, hw, hcap⟩ := hreturns
  exact ⟨w, ⟨hcall, hw⟩, hcap⟩

/-- What is left of 1024 bytes after two blocks serves 800 of them. -/
theorem alloc_iff_available_releasedBelowRun :
    ∃ w, Reached 1024 4096 (fun _ => 0) releasedBelowRun w ∧ 800 ≤ w.details.capacity ∧
      ((Allocates w.details 800 ↔ 800 ≤ w.details.available) ↔
        w.details.available < 800 ∨
          (800 + 15) / 8 * 8 ≤ w.details.available ∧ w.details.current < w.details.capacity) := by
  obtain ⟨w, h, hcap⟩ := releasedBelowRun_reaches
  exact ⟨w, h, hcap, alloc_iff_available 1024 4096 (fun _ => 0) releasedBelowRun w h 800 hcap⟩

/-- It says that 1016 bytes are available, and refuses them. -/
theorem alloc_refuses_available :
    Reached 1024 4096 (fun _ => 0) [] (fresh 1024 4096 (fun _ => 0)) ∧
    1016 ≤ (fresh 1024 4096 (fun _ => 0)).details.capacity ∧
    1016 ≤ (fresh 1024 4096 (fun _ => 0)).details.available ∧
    ¬ Allocates (fresh 1024 4096 (fun _ => 0)).details 1016 := by
  refine ⟨⟨trivial, rfl⟩, by decide, by decide, ?_⟩
  rw [allocates_iff (bounded_fresh 1024 4096 _)]
  decide

end Available

section SizeArithmetic

/-- The new cell holds its header and `size` bytes below `Current`, which leaves
room for one more record; a refusal changes nothing. -/
def SizeSafe (s : LinearAllocatorDetails) (size : ℕ) : Prop :=
  ∀ p t, s.alloc size = .ok (p, t) →
    (p ≠ NULL → p = s.chunk + s.current + 8 ∧ s.current + 8 + size ≤ t.current ∧
      t.current + 8 ≤ t.capacity) ∧
    (p = NULL → t = s)

/-- What is left of the safety of sizes: success must imply that nothing wrapped. -/
theorem sizeSafe_iff_room {s : LinearAllocatorDetails} (h : Bounded s) :
    SizeSafe s size ↔ (cellSize size ≤ s.available ∧ s.current < s.capacity → size + 8 ≤ cellSize size) := by
  have hcases := h.alloc_allocated size
  have hle := h.capacity_le
  unfold SizeSafe
  generalize s.alloc size = result at hcases
  cases hcases with
  | refused hfit =>
    refine iff_of_true ?_ (fun hserved => by omega)
    intro p t heq
    cases heq
    exact ⟨fun hne => absurd rfl hne, fun _ => rfl⟩
  | pushed t hfit hcur hchunk hcap hcurrent hprev =>
    have havail := available_eq hcur.le hle
    constructor
    · intro hsafe _
      have := ((hsafe _ t rfl).1 (by simp [NULL])).2.1
      omega
    · intro hroom p u heq
      cases heq
      have := hroom ⟨hfit, hcur⟩
      exact ⟨fun _ => ⟨rfl, by omega, by omega⟩, fun hnull => by simp [NULL] at hnull⟩
  | stopped e hfit hcur => exact iff_of_true (fun p t heq => by cases heq) (fun hserved => by omega)

/-- In every reachable state, the 32-bit arithmetic on a size is safe if and only
if neither step wraps, or the allocator has no room even for what is left. -/
theorem sizeSafe_iff (size chunk : ℕ) (mem : Memory) (requests : List Request) (w : State)
    (h : Reached size chunk mem requests w) (bytes : ℕ) (hu32 : bytes < 2 ^ 32) :
    SizeSafe w.details bytes ↔ bytes ≤ 2 ^ 32 - 16 ∨
      (2 ^ 32 - 8 < bytes ∧ w.details.available < 8) ∨ w.details.capacity ≤ w.details.current := by
  rw [sizeSafe_iff_room h.bounded, le_cellSize_iff hu32]
  rcases Nat.lt_or_ge (2 ^ 32 - 16) bytes with hlo | hle
  · rcases Nat.lt_or_ge (2 ^ 32 - 8) bytes with hlo' | hle'
    · rw [cellSize_added hlo' hu32]
      omega
    · rw [cellSize_rounded hlo hle']
      omega
  · exact iff_of_true (fun _ => hle) (Or.inl hle)

theorem sizeSafe_iff_releasedBelowRun :
    ∃ w, Reached 1024 4096 (fun _ => 0) releasedBelowRun w ∧ 4294967290 < 2 ^ 32 ∧
      (SizeSafe w.details 4294967290 ↔ 4294967290 ≤ 2 ^ 32 - 16 ∨
        (2 ^ 32 - 8 < 4294967290 ∧ w.details.available < 8) ∨ w.details.capacity ≤ w.details.current) := by
  obtain ⟨w, h, -⟩ := releasedBelowRun_reaches
  have hwidth : 4294967290 < 2 ^ 32 := by norm_num
  exact ⟨w, h, hwidth, sizeSafe_iff 1024 4096 (fun _ => 0) releasedBelowRun w h 4294967290 hwidth⟩

/-- A size whose rounding wraps is served with a cell of no bytes. -/
theorem alloc_rounded {s : LinearAllocatorDetails} (h : Bounded s) (hcur : s.current < s.capacity)
    (hlo : 2 ^ 32 - 16 < size) (hhi : size ≤ 2 ^ 32 - 8) :
    ∃ t, s.alloc size = .ok (s.chunk + s.current + 8, t) ∧ t.current = s.current := by
  have hcell := cellSize_rounded hlo hhi
  have hcases := h.alloc_allocated size
  generalize s.alloc size = result at hcases
  cases hcases with
  | refused hfit => omega
  | pushed t hfit hcur hchunk hcap hcurrent => exact ⟨t, rfl, by omega⟩
  | stopped e hfit hcur' => omega

theorem sizeSafe_fails :
    Reached 1024 4096 (fun _ => 0) [] (fresh 1024 4096 (fun _ => 0)) ∧
    (∃ t, (fresh 1024 4096 (fun _ => 0)).details.alloc 4294967288 = .ok (4104, t) ∧ t.current = 0) ∧
    ¬ SizeSafe (fresh 1024 4096 (fun _ => 0)).details 4294967288 := by
  have halloc := alloc_rounded (bounded_fresh 1024 4096 (fun _ => 0)) (by decide)
    (show 2 ^ 32 - 16 < 4294967288 by norm_num) (by norm_num)
  refine ⟨⟨trivial, rfl⟩, halloc, ?_⟩
  obtain ⟨t, hrun, hcur⟩ := halloc
  intro hsafe
  have hroom := ((hsafe _ t hrun).1 (by simp [NULL])).2.1
  rw [hcur] at hroom
  omega

end SizeArithmetic

end Linear
end LibXpf.Allocators
