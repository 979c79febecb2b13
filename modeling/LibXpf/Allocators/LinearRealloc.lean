import LibXpf.Allocators.LinearBounds

/-! # Moving a block of a `LinearAllocator`

The allocator does not record how long a block is, so `realloc` copies as many
bytes as the new block has. That is right while the new size fits the old cell.
A longer copy goes on into whatever follows that cell, which is the new cell
itself when the old one is on top. After a rollback below a live cell the new cell may
lie on live bytes.
-/
namespace LibXpf.Allocators
open ByteMemory Relation GuardedRuns

namespace Linear
open LinearAllocatorDetails
variable {s t : LinearAllocatorDetails} {cells : List Cell} {live : List LiveBlock} {b c : LiveBlock}
  {w w' : State} {r : Request} {size n p q : ℕ}

section Careful

/-- `alloc` refuses the size, or neither step of its arithmetic wraps. -/
def Unwrapped (w : State) (size : ℕ) : Prop := w.details.available < cellSize size ∨ size ≤ 2 ^ 32 - 16

instance (w : State) (size : ℕ) : Decidable (Unwrapped w size) := inferInstanceAs (Decidable (_ ∨ _))

/-- Requests after which the live cells are still what the stack says. -/
def Careful (w : State) : Request → Prop
  | .alloc size => Unwrapped w size
  | .calloc num size => Unwrapped w (u32 (num * size))
  | .realloc _ size => Unwrapped w size
  | .free p => ChainSkipsNoLiveCell w p
  | .dealloc p _ => ChainSkipsNoLiveCell w p
  | _ => True

theorem size_le_of_served (hstack : CellStack s cells) (hle : size ≤ 2 ^ 32 - 16)
    (hfit : cellSize size ≤ s.available) : size ≤ s.capacity := by
  have hcell := cellSize_of_le hle
  have havail := available_eq hstack.current_le hstack.capacity_le
  omega

/-- What a caller sees of `calloc` depends on the product alone. -/
theorem step_calloc (w : State) (num size : ℕ) :
    step w (.calloc num size) = step w (.calloc 1 (u32 (num * size))) := by
  have hu : u32 (1 * u32 (num * size)) = u32 (num * size) := by
    rw [one_mul]
    exact Nat.mod_mod _ _
  simp only [step, Session.step, interface, calloc, hu]

/-- A size that the allocator refuses leaves the session as it is. -/
theorem step_refused (hfit : w.details.available < cellSize size) :
    step w (.alloc size) = .ok w ∧ step w (.realloc p size) = .ok w ∧
      (size < 2 ^ 32 → step w (.calloc 1 size) = .ok w) := by
  have halloc := alloc_refused hfit
  refine ⟨?_, ?_, fun hu32 => ?_⟩
  · simp [step, Session.step, interface, halloc]
  · by_cases hzero : size = 0
    · simp [step, Session.step, interface, realloc_eq, hzero, NULL]
    · simp [step, Session.step, interface, realloc_eq, hzero, halloc, NULL]
  · simp [step, Session.step, interface, calloc, u32_of_lt hu32, halloc]

/-- Careful requests succeed and keep the stack, whatever size they ask for. -/
theorem step_careful (w : State) (r : Request) (hinv : Inv w) (hcall : Callable w r)
    (hcareful : Careful w r) : ∃ w', step w r = .ok w' ∧ Inv w' := by
  obtain ⟨cells, hstack, -⟩ := id hinv
  cases r with
  | alloc size =>
    rcases Nat.lt_or_ge w.details.available (cellSize size) with hfit | hfit
    · exact ⟨w, (step_refused (p := NULL) hfit).1, hinv⟩
    · have hle := hcareful.resolve_left (by omega)
      exact step_good w _ hinv ⟨hcall, size_le_of_served hstack hle hfit⟩ trivial
  | calloc num size =>
    rw [step_calloc]
    have hu32 : u32 (num * size) < 2 ^ 32 := Nat.mod_lt _ (by norm_num)
    rcases Nat.lt_or_ge w.details.available (cellSize (u32 (num * size))) with hfit | hfit
    · exact ⟨w, (step_refused (p := NULL) hfit).2.2 hu32, hinv⟩
    · have hle := hcareful.resolve_left (by omega)
      have hsize : 1 * u32 (num * size) ≤ w.details.capacity := by
        rw [one_mul]
        exact size_le_of_served hstack hle hfit
      exact step_good w _ hinv ⟨trivial, hsize⟩ trivial
  | realloc p size =>
    rcases Nat.lt_or_ge w.details.available (cellSize size) with hfit | hfit
    · exact ⟨w, (step_refused hfit).2.1, hinv⟩
    · have hle := hcareful.resolve_left (by omega)
      exact step_good w _ hinv ⟨hcall, size_le_of_served hstack hle hfit⟩ trivial
  | free p => exact step_good w _ hinv ⟨hcall, trivial⟩ hcareful
  | dealloc p size => exact step_good w _ hinv ⟨hcall, trivial⟩ hcareful
  | reset => exact step_good w _ hinv ⟨hcall, trivial⟩ trivial
  | write p i v => exact step_good w _ hinv ⟨hcall, trivial⟩ trivial

theorem Reached.inv {size chunk : ℕ} {mem : Memory} {requests : List Request}
    (h : Reached size chunk mem requests w) (hcareful : Along step Careful (fresh size chunk mem) requests) :
    Inv w := by
  have hstep : ∀ w r w', Inv w → Callable w r ∧ Careful w r → step w r = .ok w' → Inv w' := by
    intro w r w' hinv hr hrun
    obtain ⟨u, hu, hinv'⟩ := step_careful w r hinv hr.1 hr.2
    obtain rfl := Except.ok.inj (hrun.symm.trans hu)
    exact hinv'
  exact final_of_preserved hstep ⟨[], CellStack.fresh size chunk mem, Matches.nil⟩
    (h.1.and hcareful) h.2

end Careful

section Placement

/-- A pointer to the bytes behind a record in the chunk. -/
def Placed (s : LinearAllocatorDetails) (p : ℕ) : Prop := s.chunk + 8 ≤ p ∧ p < s.chunk + s.capacity + 8

theorem Placed.of_eq (h : Placed s p) (hchunk : t.chunk = s.chunk) (hcap : t.capacity = s.capacity) : Placed t p := by
  rw [Placed, hchunk, hcap]
  exact h

theorem Placed.ne_null (h : Placed s p) : p ≠ NULL := by
  have hlo := h.1
  rw [NULL]
  omega

theorem alloc_placed (h : Bounded s) (hlive : ∀ b ∈ live, Placed s b.ptr) (hrun : s.alloc size = .ok (p, t)) :
    ∀ b ∈ granted p n live, Placed t b.ptr := by
  obtain ⟨-, hchunk, hcap⟩ := h.alloc hrun
  have hcases := h.alloc_allocated size
  rw [hrun] at hcases
  intro b hb
  cases hcases with
  | refused =>
    rw [granted_null] at hb
    exact hlive b hb
  | pushed t hfit hcur =>
    have hnull : s.chunk + s.current + 8 ≠ NULL := by simp [NULL]
    rcases (mem_granted hnull).mp hb with rfl | hb
    · rw [Placed, hchunk, hcap]
      dsimp only
      omega
    · exact (hlive b hb).of_eq hchunk hcap

theorem realloc_placed (h : Bounded s) (hlive : ∀ b ∈ live, Placed s b.ptr) (hrun : s.realloc p size = .ok (q, t)) :
    ∀ b ∈ granted q size live, Placed t b.ptr := by
  rw [realloc_eq] at hrun
  split at hrun
  · cases hrun
    exact fun b hb => hlive b (granted_null size live ▸ hb)
  · obtain ⟨⟨q', u⟩, halloc, hmove⟩ := ok_of_bind hrun
    have hplaced := alloc_placed (n := size) h hlive halloc
    dsimp only at hmove
    split at hmove
    · obtain ⟨v, hfree, hv⟩ := ok_of_bind hmove
      cases hv
      obtain ⟨-, hchunk, hcap⟩ := ((h.alloc halloc).1.of_mem _).free hfree
      exact fun b hb => (hplaced b hb).of_eq hchunk hcap
    · cases hmove
      exact hplaced

theorem placed_step (h : Bounded w.details) (hlive : ∀ b ∈ w.live, Placed w.details b.ptr) (hrun : step w r = .ok w') :
    ∀ b ∈ w'.live, Placed w'.details b.ptr := by
  cases r with
  | alloc size =>
    obtain ⟨⟨p, t⟩, hcall, hok⟩ := ok_of_bind hrun
    cases hok
    exact alloc_placed h hlive hcall
  | calloc num size =>
    obtain ⟨⟨p, t⟩, hcall, hok⟩ := ok_of_bind hrun
    cases hok
    obtain ⟨⟨q, u⟩, halloc, hfill⟩ := ok_of_bind hcall
    dsimp only at hfill
    split at hfill
    · cases hfill
      exact fun b hb => (alloc_placed h hlive halloc b hb).of_eq rfl rfl
    · cases hfill
      exact alloc_placed h hlive halloc
  | realloc p size =>
    obtain ⟨⟨q, t⟩, hcall, hok⟩ := ok_of_bind hrun
    dsimp only at hok
    have hplaced := realloc_placed h hlive hcall
    split at hok
    next hq =>
      cases hok
      intro b hb
      refine hplaced b ((mem_granted hq).mpr ?_)
      exact ((mem_granted hq).mp hb).imp_right fun hb => (mem_released.mp hb).1
    next hq =>
      rw [not_not.mp hq, granted_null] at hplaced
      split at hok
      · cases hok
        exact fun b hb => hplaced b (mem_released.mp hb).1
      · cases hok
        exact hplaced
  | free p =>
    obtain ⟨t, hcall, hok⟩ := ok_of_bind hrun
    cases hok
    obtain ⟨-, hchunk, hcap⟩ := h.free hcall
    exact fun b hb => (hlive b (mem_released.mp hb).1).of_eq hchunk hcap
  | dealloc p size =>
    obtain ⟨t, hcall, hok⟩ := ok_of_bind hrun
    cases hok
    obtain ⟨-, hchunk, hcap⟩ := h.free hcall
    exact fun b hb => (hlive b (mem_released.mp hb).1).of_eq hchunk hcap
  | reset =>
    cases hrun
    exact fun b hb => absurd hb List.not_mem_nil
  | write p i v =>
    cases hrun
    exact fun b hb => (hlive b hb).of_eq rfl rfl

theorem Reached.placed {size chunk : ℕ} {mem : Memory} {requests : List Request}
    (h : Reached size chunk mem requests w) : ∀ b ∈ w.live, Placed w.details b.ptr := by
  have hstep : ∀ w r w', (Bounded w.details ∧ ∀ b ∈ w.live, Placed w.details b.ptr) → Callable w r → step w r = .ok w' →
      Bounded w'.details ∧ ∀ b ∈ w'.live, Placed w'.details b.ptr := fun _ _ _ hinv _ hrun =>
    ⟨bounded_step hinv.1 hrun, placed_step hinv.1 hinv.2 hrun⟩
  exact (final_of_preserved hstep ⟨bounded_fresh size chunk mem, fun b hb => absurd hb List.not_mem_nil⟩ h.1 h.2).2

end Placement

section Copying

/-- What `free` asserts of a record. -/
def InUse (mem : Memory) (cell : ℕ) : Prop :=
  (prevOffset mem cell &&& 0x7FFFFFFF) ^^^ 0x5FEE1299 = crc mem cell ∧ prevOffset mem cell &&& 0x80000000 = 0

instance (mem : Memory) (cell : ℕ) : Decidable (InUse mem cell) := inferInstanceAs (Decidable (_ ∧ _))

/-- The state with a new cell on the top, and `n` bytes at `p` copied into it. -/
def filled (s : LinearAllocatorDetails) (p n : ℕ) : LinearAllocatorDetails :=
  { s.pushed (cellSize n) with mem := copy s.recorded (s.chunk + s.current + 8) p n }

/-- A release of a cell that `Previous` does not name returns exactly when its record is in use. -/
theorem free_iff_inUse (hp : Placed s p) (hprevious : s.previous ≠ p - 8 - s.chunk) :
    s.free p = .ok t ↔ InUse s.mem (p - 8) ∧ t = CellStack.marked s (p - 8 - s.chunk) := by
  have hrange : s.chunk ≤ p - sizeofFreeCellRecord ∧ p - sizeofFreeCellRecord < s.chunk + s.capacity := by
    have hlo := hp.1
    have hhi := hp.2
    dsimp only [sizeofFreeCellRecord]
    omega
  have hcell : s.chunk + (p - 8 - s.chunk) = p - sizeofFreeCellRecord := by
    dsimp only [sizeofFreeCellRecord] at hrange ⊢
    omega
  have hmarked : CellStack.marked s (p - 8 - s.chunk) = { s with
      mem := store 4 s.mem (p - sizeofFreeCellRecord) (prevOffset s.mem (p - sizeofFreeCellRecord) ||| 0x80000000) } := by
    rw [CellStack.marked, hcell]
  have hbelow : s.previous ≠ p - sizeofFreeCellRecord - s.chunk := hprevious
  constructor
  · intro hrun
    obtain ⟨_, -, hrun⟩ := ok_of_bind hrun
    rw [if_pos hrange] at hrun
    obtain ⟨_, hchecksum, hrun⟩ := ok_of_bind hrun
    obtain ⟨_, hflag, hrun⟩ := ok_of_bind hrun
    dsimp only at hrun
    rw [if_pos hbelow] at hrun
    cases hrun
    exact ⟨⟨holds_of_xpfAssert hchecksum, holds_of_xpfAssert hflag⟩, hmarked.symm⟩
  · rintro ⟨⟨hchecksum, hflag⟩, rfl⟩
    have hchecksum' : (prevOffset s.mem (p - sizeofFreeCellRecord) &&& 0x7FFFFFFF) ^^^ 0x5FEE1299 =
        crc s.mem (p - sizeofFreeCellRecord) := hchecksum
    have hflag' : prevOffset s.mem (p - sizeofFreeCellRecord) &&& 0x80000000 = 0 := hflag
    simp only [free, hrange, and_self, xpfAssert_true, ok_bind, if_true, hchecksum', hflag', hbelow, ne_eq, not_false_eq_true,
      pure_eq_ok, hmarked]

/-- A `realloc` that is served calls `memcpy` with the new size and releases the old cell. -/
theorem reallocCopying_iff (h : Bounded s) (hpos : n ≠ 0) (hfit : cellSize n ≤ s.available) (hp : p ≠ NULL)
    {c : Option Memcpy} :
    s.reallocCopying p n = .ok (c, q, t) ↔
      s.current < s.capacity ∧ c = some ⟨s.chunk + s.current + 8, p, n⟩ ∧ q = s.chunk + s.current + 8 ∧
        (filled s p n).free p = .ok t := by
  have hnull : s.chunk + s.current + 8 ≠ NULL := by simp [NULL]
  rcases Nat.lt_or_ge s.current s.capacity with hcur | hcur
  · have hcalls : s.reallocCopying p n = (filled s p n).free p >>= fun u =>
        .ok (some ⟨s.chunk + s.current + 8, p, n⟩, s.chunk + s.current + 8, u) := by
      simp only [reallocCopying, if_neg hpos, alloc_pushed h.previous_lt hfit hcur, ok_bind, ne_eq, hnull, hp,
        not_false_eq_true, and_self, if_true, pure_eq_ok]
      rfl
    rw [hcalls]
    cases (filled s p n).free p with
    | error e =>
      refine iff_of_false (fun hrun => ?_) fun hserved => ?_
      · cases hrun
      · cases hserved.2.2.2
    | ok u =>
      constructor
      · rintro ⟨⟩
        exact ⟨hcur, rfl, rfl, rfl⟩
      · rintro ⟨-, rfl, rfl, hfree⟩
        cases hfree
        rfl
  · refine iff_of_false (fun hrun => ?_) fun hserved => absurd hserved.1 (not_lt.mpr hcur)
    simp only [reallocCopying, if_neg hpos] at hrun
    obtain ⟨⟨q', u⟩, halloc, -⟩ := ok_of_bind hrun
    have hcases := h.alloc_allocated n
    rw [halloc] at hcases
    cases hcases with
    | refused hrefused => omega
    | pushed u hfit hlt => omega

theorem reallocCopying_refused (hpos : n ≠ 0) (hfit : s.available < cellSize n) :
    s.reallocCopying p n = .ok (none, NULL, s) := by
  simp [reallocCopying, hpos, alloc_refused hfit]

theorem realloc_of_copying {c : Option Memcpy} (h : s.reallocCopying p n = .ok (c, q, t)) : s.realloc p n = .ok (q, t) := by
  rw [realloc, h]
  rfl

end Copying

section Covering

/-- The `i`-th byte of the record of the next cell: `Previous`, then its checksum. -/
def recordByte (s : LinearAllocatorDetails) (i : ℕ) : UInt8 :=
  UInt8.ofNat (if i < 4 then s.previous / 256 ^ i else (s.previous ^^^ 0x5FEE1299) / 256 ^ (i - 4))

/-- The byte at `x` under the record of the next cell. -/
def underRecord (s : LinearAllocatorDetails) (x : ℕ) : UInt8 :=
  if s.chunk + s.current ≤ x ∧ x < s.chunk + s.current + 8 then recordByte s (x - (s.chunk + s.current)) else s.mem x

/-- The `i`-th byte of the next cell when it gets the bytes at `p`. -/
def cellByte (s : LinearAllocatorDetails) (p i : ℕ) : UInt8 :=
  if i < 8 then recordByte s i else underRecord s (p + (i - 8))

/-- The memory with the next cell laid over it. -/
def overlaid (s : LinearAllocatorDetails) (p n : ℕ) : Memory := fun x =>
  if s.chunk + s.current ≤ x ∧ x < s.chunk + s.current + (8 + n) then cellByte s p (x - (s.chunk + s.current)) else s.mem x

/-- Where the next cell covers `x`, it has the byte that stands there. -/
def Keeps (s : LinearAllocatorDetails) (p n x : ℕ) : Prop :=
  ∀ i < 8 + n, x = s.chunk + s.current + i → cellByte s p i = s.mem x

/-- The next cell covers `x`, and has there the byte at `x` without its top bit. -/
def KeepsFlagged (s : LinearAllocatorDetails) (p n x : ℕ) : Prop :=
  ∃ i < 8 + n, x = s.chunk + s.current + i ∧ cellByte s p i + 0x80 = s.mem x

theorem recorded_eq (h : s.previous < 2 ^ 31) : s.recorded = underRecord s := by
  have hword : prevOffset (store 4 s.mem (s.chunk + s.current) s.previous) (s.chunk + s.current) = s.previous :=
    load_store (h.trans (by norm_num))
  funext x
  dsimp only [LinearAllocatorDetails.recorded, underRecord, recordByte]
  rw [hword]
  by_cases hlow : s.chunk + s.current ≤ x ∧ x < s.chunk + s.current + 4
  · have hrecord : s.chunk + s.current ≤ x ∧ x < s.chunk + s.current + 8 := by omega
    have hdigit : x - (s.chunk + s.current) < 4 := by omega
    rw [store_outside (Or.inl hlow.2), store, if_pos hlow, if_pos hrecord, if_pos hdigit]
  by_cases hhigh : s.chunk + s.current + 4 ≤ x ∧ x < s.chunk + s.current + 4 + 4
  · have hrecord : s.chunk + s.current ≤ x ∧ x < s.chunk + s.current + 8 := by omega
    have hdigit : ¬ x - (s.chunk + s.current) < 4 := by omega
    have hsub : x - (s.chunk + s.current + 4) = x - (s.chunk + s.current) - 4 := by omega
    rw [store, if_pos hhigh, if_pos hrecord, if_neg hdigit, hsub]
  · have hrecord : ¬ (s.chunk + s.current ≤ x ∧ x < s.chunk + s.current + 8) := by omega
    rw [store, if_neg hhigh, store, if_neg hlow, if_neg hrecord]

theorem underRecord_eq {x : ℕ} (h : x < s.chunk + s.current + 8 ∨ s.chunk + s.current + (8 + n) ≤ x) :
    underRecord s x = overlaid s p n x := by
  dsimp only [underRecord, overlaid, cellByte]
  by_cases hrecord : s.chunk + s.current ≤ x ∧ x < s.chunk + s.current + 8
  · have hcell : s.chunk + s.current ≤ x ∧ x < s.chunk + s.current + (8 + n) := by omega
    have hlow : x - (s.chunk + s.current) < 8 := by omega
    rw [if_pos hrecord, if_pos hcell, if_pos hlow]
  · have hcell : ¬ (s.chunk + s.current ≤ x ∧ x < s.chunk + s.current + (8 + n)) := by omega
    rw [if_neg hrecord, if_neg hcell]

theorem filled_mem (h : s.previous < 2 ^ 31) : (filled s p n).mem = overlaid s p n := by
  funext x
  dsimp only [filled, copy]
  rw [recorded_eq h]
  by_cases hpayload : s.chunk + s.current + 8 ≤ x ∧ x < s.chunk + s.current + 8 + n
  · have hcell : s.chunk + s.current ≤ x ∧ x < s.chunk + s.current + (8 + n) := by omega
    have hrecord : ¬ x - (s.chunk + s.current) < 8 := by omega
    have hsub : x - (s.chunk + s.current) - 8 = x - (s.chunk + s.current + 8) := by omega
    rw [if_pos hpayload, overlaid, if_pos hcell, cellByte, if_neg hrecord, hsub]
  · rw [if_neg hpayload]
    exact underRecord_eq (by omega)

theorem overlaid_covered {i : ℕ} (h : i < 8 + n) : overlaid s p n (s.chunk + s.current + i) = cellByte s p i := by
  have hcell : s.chunk + s.current ≤ s.chunk + s.current + i ∧ s.chunk + s.current + i < s.chunk + s.current + (8 + n) := by
    omega
  rw [overlaid, if_pos hcell, Nat.add_sub_cancel_left]

theorem overlaid_outside {x : ℕ} (h : x < s.chunk + s.current ∨ s.chunk + s.current + (8 + n) ≤ x) :
    overlaid s p n x = s.mem x := if_neg (by omega)

theorem covered_or_outside (s : LinearAllocatorDetails) (n x : ℕ) :
    (∃ i < 8 + n, x = s.chunk + s.current + i) ∨ x < s.chunk + s.current ∨ s.chunk + s.current + (8 + n) ≤ x := by
  rcases Nat.lt_or_ge x (s.chunk + s.current) with hbelow | habove
  · exact .inr (.inl hbelow)
  rcases Nat.lt_or_ge x (s.chunk + s.current + (8 + n)) with hcovered | hpast
  · exact .inl ⟨x - (s.chunk + s.current), by omega, by omega⟩
  · exact .inr (.inr hpast)

theorem keeps_outside {x : ℕ} (h : x < s.chunk + s.current ∨ s.chunk + s.current + (8 + n) ≤ x) : Keeps s p n x :=
  fun i hi hx => by omega

theorem keeps_iff {x : ℕ} : Keeps s p n x ↔ overlaid s p n x = s.mem x := by
  rcases covered_or_outside s n x with ⟨i, hi, rfl⟩ | houtside
  · rw [overlaid_covered hi]
    refine ⟨fun hkeeps => hkeeps i hi rfl, fun hbyte j _ hx => ?_⟩
    obtain rfl : i = j := by omega
    exact hbyte
  · exact iff_of_true (keeps_outside houtside) (overlaid_outside houtside)

theorem add_flag_ne (v : UInt8) : v + 0x80 ≠ v := forall_byte (P := fun v => v + 0x80 ≠ v) (by decide) v

theorem keepsFlagged_iff {x : ℕ} : KeepsFlagged s p n x ↔ overlaid s p n x + 0x80 = s.mem x := by
  rcases covered_or_outside s n x with ⟨i, hi, rfl⟩ | houtside
  · rw [overlaid_covered hi]
    refine ⟨fun ⟨j, _, hx, hbyte⟩ => ?_, fun hbyte => ⟨i, hi, rfl, hbyte⟩⟩
    obtain rfl : i = j := by omega
    exact hbyte
  · rw [overlaid_outside houtside]
    refine iff_of_false (fun ⟨i, hi, hx, _⟩ => by omega) (add_flag_ne _)

/-- Setting the freed bit of a record in use adds it to the top byte of the word. -/
theorem marked_byte {mem : Memory} {cell x : ℕ} (h : InUse mem cell) :
    store 4 mem cell (prevOffset mem cell ||| 0x80000000) x = if x = cell + 3 then mem x + 0x80 else mem x := by
  have hword : prevOffset mem cell < 2 ^ 31 := by
    by_contra hge
    have hu32 : prevOffset mem cell < 256 ^ 4 := load_lt 4 mem cell
    have hsplit : prevOffset mem cell = prevOffset mem cell - 2 ^ 31 + 2 ^ 31 := by omega
    exact land_0x80000000_of_flag (n := prevOffset mem cell - 2 ^ 31) (by omega) (hsplit ▸ h.2)
  rw [lor_0x80000000 hword]
  by_cases hcovered : cell ≤ x ∧ x < cell + 4
  · obtain ⟨i, hi, rfl⟩ : ∃ i < 4, x = cell + i := ⟨x - cell, by omega, by omega⟩
    have hbyte : UInt8.ofNat (prevOffset mem cell / 256 ^ i) = mem (cell + i) := digit_load hi
    rw [store, if_pos hcovered, Nat.add_sub_cancel_left]
    split
    next htop =>
      obtain rfl : i = 3 := by omega
      have hdigit : (prevOffset mem cell + 2 ^ 31) / 256 ^ 3 = prevOffset mem cell / 256 ^ 3 + 0x80 := by omega
      rw [hdigit, UInt8.ofNat_add, hbyte]
      rfl
    next hlow =>
      rw [← hbyte]
      apply UInt8.toNat_inj.mp
      simp only [UInt8.toNat_ofNat']
      obtain rfl | rfl | rfl : i = 0 ∨ i = 1 ∨ i = 2 := by omega
      all_goals omega
  · have hne : x ≠ cell + 3 := by omega
    rw [store, if_neg hcovered, if_neg hne]

/-- The bytes that a `realloc` of `p` to `n` bytes leaves. -/
theorem moved_byte (hprevious : s.previous < 2 ^ 31) (hp : Placed s p) (hrecord : InUse (overlaid s p n) (p - 8)) (x : ℕ) :
    (CellStack.marked (filled s p n) (p - 8 - s.chunk)).mem x =
      if x = p - 8 + 3 then overlaid s p n x + 0x80 else overlaid s p n x := by
  have hlo := hp.1
  have hcell : (filled s p n).chunk + (p - 8 - s.chunk) = p - 8 := by
    change s.chunk + (p - 8 - s.chunk) = p - 8
    omega
  rw [CellStack.marked, hcell, filled_mem hprevious]
  exact marked_byte hrecord

theorem carried_iff (hprevious : s.previous < 2 ^ 31) (hp : Placed s p) (hrecord : InUse (overlaid s p n) (p - 8))
    (hapart : Apart (s.chunk + s.current + 8) n p n) {i : ℕ} (hi : i < n) :
    (CellStack.marked (filled s p n) (p - 8 - s.chunk)).mem (s.chunk + s.current + 8 + i) = s.mem (p + i) ↔
      Keeps s p n (p + i) ∧ s.chunk + s.current + 8 + i ≠ p - 8 + 3 := by
  have hcopied : overlaid s p n (s.chunk + s.current + 8 + i) = underRecord s (p + i) := by
    rw [Nat.add_assoc, overlaid_covered (by omega), cellByte, if_neg (by omega), Nat.add_sub_cancel_left]
  have hsource : underRecord s (p + i) = overlaid s p n (p + i) := underRecord_eq (by rcases hapart <;> omega)
  rw [moved_byte hprevious hp hrecord, hcopied, hsource, keeps_iff]
  by_cases hflag : s.chunk + s.current + 8 + i = p - 8 + 3
  · -- the new payload lies below the block, so its bytes come from clear of the new record
    have hstands : overlaid s p n (p + i) = s.mem (p + i) := overlaid_outside (by rcases hapart <;> omega)
    rw [if_pos hflag, hstands]
    exact iff_of_false (add_flag_ne _) fun h => h.2 hflag
  · rw [if_neg hflag]
    exact (and_iff_left hflag).symm

theorem kept_iff (hprevious : s.previous < 2 ^ 31) (hp : Placed s p) (hrecord : InUse (overlaid s p n) (p - 8)) (x : ℕ) :
    (CellStack.marked (filled s p n) (p - 8 - s.chunk)).mem x = s.mem x ↔
      if x = p - 8 + 3 then KeepsFlagged s p n x else Keeps s p n x := by
  rw [moved_byte hprevious hp hrecord]
  split
  · exact keepsFlagged_iff.symm
  · exact keeps_iff.symm

end Covering

section Moving

/-- What a `realloc` of `b` to `n` bytes that returned `q` owes its caller, where `c` is the `memcpy` that it called:
the contents are carried over, only bytes of the cell of `b` are read, the two ranges are apart, and the other
payloads stay as they are. -/
def Moved (w : State) (b : LiveBlock) (n : ℕ) (c : Option Memcpy) (q : ℕ) (t : LinearAllocatorDetails) : Prop :=
  (∀ i < min b.size n, t.mem (q + i) = w.details.mem (b.ptr + i)) ∧
  (∀ m ∈ c, b.ptr - 8 ≤ m.src ∧ m.src + m.len ≤ b.ptr - 8 + cellSize b.size) ∧
  (∀ m ∈ c, Apart m.dst m.len m.src m.len) ∧
  ∀ d ∈ w.live, d ≠ b → ∀ i < d.size, t.mem (d.ptr + i) = w.details.mem (d.ptr + i)

/-- `realloc` returns, a failure changes nothing, and a success copies within
the old cell. -/
def CopiesWithinBounds (w : State) (b : LiveBlock) (n : ℕ) : Prop :=
  ∃ c q t, w.details.reallocCopying b.ptr n = .ok (c, q, t) ∧ (q = NULL → t = w.details) ∧ (q ≠ NULL → Moved w b n c q t)

/-- The next cell does not disturb what is live: it begins in the chunk, its payload and the bytes at `b` are apart, and
the record of `b` is in use with the next cell laid over it. A byte that is carried over, or one of another payload, lies
under the next cell only where that has the same byte. The byte with the freed bit of `b` is not in the payload of the next
cell, and in another payload only where the next cell has the byte there without its top bit. -/
structure Undisturbed (w : State) (b : LiveBlock) (n : ℕ) : Prop where
  room : w.details.current < w.details.capacity
  apart : Apart (w.details.chunk + w.details.current + 8) n b.ptr n
  record : InUse (overlaid w.details b.ptr n) (b.ptr - 8)
  carried : ∀ i < min b.size n,
    Keeps w.details b.ptr n (b.ptr + i) ∧ w.details.chunk + w.details.current + 8 + i ≠ b.ptr - 8 + 3
  others : ∀ d ∈ w.live, d ≠ b → ∀ i < d.size,
    if d.ptr + i = b.ptr - 8 + 3 then KeepsFlagged w.details b.ptr n (d.ptr + i) else Keeps w.details b.ptr n (d.ptr + i)

theorem previous_filled (hb : Placed s p) (hapart : Apart (s.chunk + s.current + 8) n p n) (hpos : n ≠ 0) :
    (filled s p n).previous ≠ p - 8 - (filled s p n).chunk := by
  have hlo := hb.1
  change s.current ≠ p - 8 - s.chunk
  rcases hapart with hbelow | habove <;> omega

theorem copies_iff (h : Bounded w.details) (hb : Placed w.details b.ptr) (hpos : n ≠ 0) :
    CopiesWithinBounds w b n ↔
      w.details.available < cellSize n ∨ n + 8 ≤ cellSize b.size ∧ Undisturbed w b n := by
  have hlo := hb.1
  have hprevious := h.previous_lt
  have hnull : w.details.chunk + w.details.current + 8 ≠ NULL := by simp [NULL]
  have hplaced : Placed (filled w.details b.ptr n) b.ptr := hb.of_eq rfl rfl
  have hsource : ∀ i < min b.size n, i < n := fun i hi => hi.trans_le (min_le_right _ _)
  rcases Nat.lt_or_ge w.details.available (cellSize n) with hfit | hfit
  · exact iff_of_true ⟨none, NULL, w.details, reallocCopying_refused hpos hfit, fun _ => rfl, fun hne => absurd rfl hne⟩
      (.inl hfit)
  constructor
  · rintro ⟨c, q, t, hrun, -, hmoved⟩
    obtain ⟨hcur, rfl, rfl, hfree⟩ := (reallocCopying_iff h hpos hfit hb.ne_null).mp hrun
    obtain ⟨hcontents, hreads, hapart, hothers⟩ := hmoved hnull
    have hread := (hreads _ rfl).2
    have hapart := hapart _ rfl
    obtain ⟨hrecord, rfl⟩ := (free_iff_inUse hplaced (previous_filled hb hapart hpos)).mp hfree
    rw [filled_mem hprevious] at hrecord
    dsimp only at hread
    exact .inr ⟨by omega, hcur, hapart, hrecord,
      fun i hi => (carried_iff hprevious hb hrecord hapart (hsource i hi)).mp (hcontents i hi),
      fun d hd hne i hi => (kept_iff hprevious hb hrecord _).mp (hothers d hd hne i hi)⟩
  · rintro (hrefused | ⟨hread, hcur, hapart, hrecord, hcarried, hothers⟩)
    · omega
    · have hfree := (free_iff_inUse hplaced (previous_filled hb hapart hpos)).mpr
        ⟨(filled_mem hprevious).symm ▸ hrecord, rfl⟩
      refine ⟨_, _, _, (reallocCopying_iff h hpos hfit hb.ne_null).mpr ⟨hcur, rfl, rfl, hfree⟩,
        fun hq => absurd hq hnull, fun _ => ⟨fun i hi => ?_, ?_, ?_, fun d hd hne i hi => ?_⟩⟩
      · exact (carried_iff hprevious hb hrecord hapart (hsource i hi)).mpr (hcarried i hi)
      · rintro m ⟨⟩
        dsimp only
        omega
      · rintro m ⟨⟩
        exact hapart
      · exact (kept_iff hprevious hb hrecord _).mpr (hothers d hd hne i hi)

end Moving

section Apartness

/-- The new record and the `n` bytes behind it lie on no byte of a live block, and the record of `b` on no other payload. -/
structure ClearOfLive (w : State) (b : LiveBlock) (n : ℕ) : Prop where
  room : w.details.current < w.details.capacity
  record : InUse w.details.mem (b.ptr - 8)
  own : Apart (w.details.chunk + w.details.current) (8 + n) (b.ptr - 8) (8 + n)
  others : ∀ d ∈ w.live, d ≠ b →
    Apart (w.details.chunk + w.details.current) (8 + n) d.ptr d.size ∧ Apart (b.ptr - 8) 4 d.ptr d.size

theorem InUse.congr {mem mem' : Memory} {cell : ℕ} (h : InUse mem cell)
    (hm : ∀ x, cell ≤ x → x < cell + 8 → mem' x = mem x) : InUse mem' cell := by
  have hprev : prevOffset mem' cell = prevOffset mem cell := load_congr fun x hlo hhi => hm x hlo (by omega)
  have hcrc : crc mem' cell = crc mem cell := load_congr fun x hlo hhi => hm x (by omega) (by omega)
  rw [InUse, hprev, hcrc]
  exact h

/-- A new cell that is clear of what is live does not disturb it. -/
theorem ClearOfLive.undisturbed (h : ClearOfLive w b n) (hb : Placed w.details b.ptr) : Undisturbed w b n := by
  have hlo := hb.1
  have hown := h.own
  refine ⟨h.room, ?_, h.record.congr fun x _ _ => overlaid_outside ?_, fun i hi => ⟨keeps_outside ?_, ?_⟩,
    fun d hd hne i hi => ?_⟩
  · rcases hown with hbelow | habove
    · exact .inl (by omega)
    · exact .inr (by omega)
  · rcases hown with hbelow | habove <;> omega
  · rcases hown with hbelow | habove <;> omega
  · rcases hown with hbelow | habove <;> omega
  · obtain ⟨hnew, hrecord⟩ := h.others d hd hne
    have hflag : d.ptr + i ≠ b.ptr - 8 + 3 := by rcases hrecord with hbelow | habove <;> omega
    rw [if_neg hflag]
    refine keeps_outside ?_
    rcases hnew with hbelow | habove
    · exact .inr (by omega)
    · exact .inl (by omega)

/-- The bytes of a cell after its record. -/
theorem Matches.payload (hmatch : Matches s.chunk live cells) (hstack : CellStack s cells) (hb : b ∈ live) :
    ∃ d ∈ cells, d.freed = false ∧ b.ptr = s.chunk + d.off + 8 ∧ d.len = cellSize b.size ∧
      cellSize b.size = (b.size + 15) / 8 * 8 ∧ d.off + d.len ≤ s.current := by
  obtain ⟨d, hd, hf, hptr, hsize, hlen⟩ := hmatch.cell_of_live b hb
  exact ⟨d, hd, hf, hptr, hlen, cellSize_eq hsize, (hstack.mem_le hd).1⟩

/-- Where the live blocks are cells of the stack, what lies above `Current` is clear of them. -/
theorem Inv.clearOfLive (h : Inv ⟨s, live⟩) (hb : b ∈ live) (hread : n + 8 ≤ cellSize b.size)
    (hfit : cellSize n ≤ s.available) : ClearOfLive ⟨s, live⟩ b n := by
  obtain ⟨cells, hstack, hmatch⟩ := h
  dsimp only at hstack hmatch
  obtain ⟨d, hd, hf, hptr, hlen, hcell, hle⟩ := hmatch.payload hstack hb
  have hcur := hstack.current_le
  have hcap := hstack.capacity_le
  have havail := available_eq hcur hcap
  have hdl := (hstack.mem_le hd).2
  have hsize : n ≤ 2 ^ 31 := by omega
  have hge := cellSize_ge hsize
  have hrecord : s.chunk + d.off = b.ptr - 8 := by omega
  refine ⟨by dsimp only; omega, ⟨?_, ?_⟩, .inr (by dsimp only; omega), fun c hc hne => ?_⟩
  · exact hrecord ▸ (hstack.records d hd).checksum (hstack.prev_lt hd)
  · exact hrecord ▸ ((hstack.records d hd).flag (hstack.prev_lt hd)).mpr hf
  · obtain ⟨e, he, -, hcp, hel, hecell, hee⟩ := hmatch.payload hstack hc
    have hde : d ≠ e := by
      rintro rfl
      exact hne (hmatch.distinct.eq_of_ptr hc hb (hcp.trans hptr.symm))
    have hapart := (hstack.stacked.eq_or_apart hd he).resolve_left hde
    refine ⟨.inr (by dsimp only; omega), ?_⟩
    rcases hapart with hbelow | habove
    · exact .inl (by omega)
    · exact .inr (by omega)

/-- A size that fits the old cell is moved into a new one. -/
theorem realloc_moves (h : Inv ⟨s, live⟩) (hbounded : Bounded s) (hb : b ∈ live) (hpos : n ≠ 0)
    (hn : n ≤ (b.size + 7) / 8 * 8) (hfit : cellSize n ≤ s.available) :
    ∃ c t, s.realloc b.ptr n = .ok (s.chunk + s.current + 8, t) ∧ Moved ⟨s, live⟩ b n c (s.chunk + s.current + 8) t := by
  obtain ⟨cells, hstack, hmatch⟩ := id h
  dsimp only at hstack hmatch
  obtain ⟨d, hd, -, hptr, -, hcell, hle⟩ := hmatch.payload hstack hb
  have hcur := hstack.current_le
  have hlen := (hstack.mem_le hd).2
  have hplaced : Placed s b.ptr := ⟨by omega, by omega⟩
  have hread : n + 8 ≤ cellSize b.size := by omega
  have hnull : s.chunk + s.current + 8 ≠ NULL := by simp [NULL]
  obtain ⟨c, q, t, hrun, -, hmoved⟩ := (copies_iff (w := ⟨s, live⟩) hbounded hplaced hpos).mpr
    (.inr ⟨hread, (h.clearOfLive hb hread hfit).undisturbed hplaced⟩)
  obtain ⟨-, -, rfl, -⟩ := (reallocCopying_iff hbounded hpos hfit hplaced.ne_null).mp hrun
  exact ⟨c, t, realloc_of_copying hrun, hmoved hnull⟩

/-- In a run of careful requests nothing is disturbed, and the sizes decide. -/
theorem copies_iff_of_careful {capacity chunk : ℕ} {mem : Memory} {requests : List Request}
    (h : Reached capacity chunk mem requests w) (hcareful : Along step Careful (fresh capacity chunk mem) requests)
    (hb : b ∈ w.live) (hpos : n ≠ 0) :
    CopiesWithinBounds w b n ↔ w.details.available < cellSize n ∨ n ≤ (b.size + 7) / 8 * 8 := by
  obtain ⟨s, live⟩ := w
  have hinv := h.inv hcareful
  have hplaced := h.placed b hb
  rw [copies_iff h.bounded hplaced hpos]
  dsimp only
  rcases Nat.lt_or_ge s.available (cellSize n) with hfit | hfit
  · exact iff_of_true (.inl hfit) (.inl hfit)
  obtain ⟨cells, hstack, hmatch⟩ := id hinv
  obtain ⟨d, hd, -, -, hlen, hcell, -⟩ := hmatch.payload hstack hb
  refine or_congr_right ⟨fun hfits => by omega, fun hn => ?_⟩
  have hread : n + 8 ≤ cellSize b.size := by omega
  exact ⟨hread, (hinv.clearOfLive hb hread hfit).undisturbed hplaced⟩

end Apartness

section Runs

/-- For every reachable state, every live block and every size: `realloc` copies within bounds if and only if it
refuses the size, or the size fits the old cell and the next cell does not disturb what is live. -/
theorem copiesWithinBounds_iff (capacity chunk : ℕ) (mem : Memory) (requests : List Request) (w : State)
    (h : Reached capacity chunk mem requests w) (b : LiveBlock) (hb : b ∈ w.live) (n : ℕ) (hpos : 1 ≤ n) :
    CopiesWithinBounds w b n ↔ w.details.available < cellSize n ∨ n + 8 ≤ cellSize b.size ∧ Undisturbed w b n :=
  copies_iff h.bounded (h.placed b hb) (by omega)

/-- Three cells; the top one is freed, then the bottom one, and the rollback passes below the live one in the middle. -/
def passedBelowRun : List Request := [.alloc 32, .alloc 32, .alloc 32, .free 4184, .free 4104]

/-- The live cell is moved to the bottom, clear of where it was. -/
theorem copiesWithinBounds_iff_passedBelowRun :
    ∃ w, Reached 1024 4096 (fun _ => 0) passedBelowRun w ∧ ⟨4144, 32⟩ ∈ w.live ∧ CopiesWithinBounds w ⟨4144, 32⟩ 8 := by
  have hcall : Along step Callable (fresh 1024 4096 (fun _ => 0)) passedBelowRun := by decide +kernel
  have hreturns : Returns (final step (fresh 1024 4096 (fun _ => 0)) passedBelowRun) fun w =>
      w.live = [⟨4144, 32⟩] ∧ w.details.current < w.details.capacity ∧ InUse w.details.mem 4136 ∧
        w.details.chunk + w.details.current + 16 ≤ 4136 := by decide +kernel
  obtain ⟨w, hw, hlive, hroom, hrecord, hbelow⟩ := hreturns
  have hb : ⟨4144, 32⟩ ∈ w.live := hlive ▸ List.mem_singleton_self _
  have hreached : Reached 1024 4096 (fun _ => 0) passedBelowRun w := ⟨hcall, hw⟩
  have hclear : ClearOfLive w ⟨4144, 32⟩ 8 :=
    ⟨hroom, hrecord, .inl hbelow, fun d hd hne => absurd (List.mem_singleton.mp (hlive ▸ hd)) hne⟩
  exact ⟨w, hreached, hb,
    (copiesWithinBounds_iff 1024 4096 (fun _ => 0) passedBelowRun w hreached ⟨4144, 32⟩ hb 8 (by norm_num)).mpr
      (.inr ⟨by decide, hclear.undisturbed (hreached.placed _ hb)⟩)⟩

/-- An allocator of 1024 bytes with one live block of 20 bytes. -/
def oneBlock : State := ⟨(fresh 1024 4096 (fun _ => 0)).details.pushed 32, [⟨4104, 20⟩]⟩

theorem reached_oneBlock : Reached 1024 4096 (fun _ => 0) [.alloc 20] oneBlock := by
  have halloc : (fresh 1024 4096 (fun _ => 0)).details.alloc 20 =
      .ok (4104, (fresh 1024 4096 (fun _ => 0)).details.pushed 32) :=
    alloc_pushed (by decide) (by decide) (by decide)
  refine ⟨⟨trivial, ?_⟩, ?_⟩
  · split
    · trivial
    · trivial
  · simp [final, step, Session.step, interface, halloc]
    rfl

/-- Growing it to 64 bytes reads past its cell. -/
theorem oneBlock_overreads :
    Reached 1024 4096 (fun _ => 0) [.alloc 20] oneBlock ∧ ⟨4104, 20⟩ ∈ oneBlock.live ∧
    ¬ CopiesWithinBounds oneBlock ⟨4104, 20⟩ 64 := by
  refine ⟨reached_oneBlock, by decide, ?_⟩
  rw [copies_iff reached_oneBlock.bounded (reached_oneBlock.placed _ (by decide)) (by norm_num)]
  rintro (hrefused | ⟨hfits, -⟩)
  · exact absurd hrefused (by decide)
  · exact absurd hfits (by decide)

end Runs
end Linear
end LibXpf.Allocators
