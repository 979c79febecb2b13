import LibXpf.Allocators.LinearCells

/-! # What each `LinearAllocator` operation does to the stack of cells

`alloc` pushes a cell, `free` marks one, and the rollback cuts the stack at the
last cell of a chain of freed cells. The chain follows the stored links, which
may skip cells.
-/
namespace LibXpf.Allocators
open ByteMemory Relation

namespace LinearAllocatorDetails

/-- The offset the record at `off` links to. -/
def linkOf (s : LinearAllocatorDetails) (off : ℕ) : ℕ := prevOffset s.mem (s.chunk + off) &&& 0x7FFFFFFF

def IsFreed (s : LinearAllocatorDetails) (off : ℕ) : Prop :=
  prevOffset s.mem (s.chunk + off) &&& 0x80000000 ≠ 0

/-- One link to a freed cell. -/
def DeadLink (s : LinearAllocatorDetails) (off target : ℕ) : Prop :=
  s.linkOf off = target ∧ s.IsFreed target

/-- The freed cells that links reach from the cell at `off`, itself included. -/
def DeadChain (s : LinearAllocatorDetails) : ℕ → ℕ → Prop := ReflTransGen s.DeadLink

/-- The length of the cell `alloc` makes for `size` bytes. -/
def cellSize (size : ℕ) : ℕ := upgradeToMultipleOf8 (u32 (size + sizeofFreeCellRecord))

theorem cellSize_eq {size : ℕ} (h : size ≤ 2 ^ 31) : cellSize size = (size + 15) / 8 * 8 := by
  have hu : u32 (size + sizeofFreeCellRecord) = size + 8 := u32_of_lt (by
    dsimp only [sizeofFreeCellRecord]
    omega)
  rw [cellSize, hu, upgradeToMultipleOf8_eq (by omega)]

theorem cellSize_ge {size : ℕ} (h : size ≤ 2 ^ 31) : size + 8 ≤ cellSize size := by
  rw [cellSize_eq h]
  omega

theorem available_eq {s : LinearAllocatorDetails} (hcur : s.current ≤ s.capacity)
    (hcap : s.capacity ≤ 2 ^ 31) : s.available = s.capacity - s.current - 8 := by
  have hsub : u32Sub s.capacity s.current = s.capacity - s.current := u32Sub_of_le hcur (by omega)
  simp only [available, hsub, sizeofFreeCellRecord]
  split <;> omega

theorem constructedCapacity_spec (size : ℕ) :
    16 ≤ constructedCapacity size ∧ constructedCapacity size ≤ 2 ^ 31 ∧ 8 ∣ constructedCapacity size := by
  unfold constructedCapacity
  simp only [minSizePowOf2, maxSizePowOf2, Nat.one_shiftLeft]
  split
  · norm_num
  split
  · norm_num
  · rw [upgradeToMultipleOf8_eq (by omega)]
    omega

section Pushing
variable {s : LinearAllocatorDetails} {size : ℕ}

theorem alloc_refused (hfit : s.available < cellSize size) : s.alloc size = .ok (NULL, s) := by
  unfold alloc
  simp only [cellSize] at hfit
  simp only [hfit, gt_iff_lt, if_true, pure_eq_ok]

/-- The memory with the record of a new cell at `Current`. -/
def recorded (s : LinearAllocatorDetails) : Memory :=
  let mem := store 4 s.mem (s.chunk + s.current) s.previous
  store 4 mem (s.chunk + s.current + 4) (prevOffset mem (s.chunk + s.current) ^^^ 0x5FEE1299)

/-- The state with a new cell of this length on the top. -/
def pushed (s : LinearAllocatorDetails) (len : ℕ) : LinearAllocatorDetails :=
  { s with
    mem := s.recorded
    previous := s.current
    current := u32 (s.current + len)
    hwmBytes := if u32 (s.current + len) > s.hwmBytes then u32 (s.current + len) else s.hwmBytes }

theorem prevOffset_recorded (h : s.previous < 2 ^ 31) : prevOffset s.recorded (s.chunk + s.current) = s.previous :=
  (load_store_apart (Or.inr le_rfl)).trans (load_store (h.trans (by norm_num)))

theorem crc_recorded (h : s.previous < 2 ^ 31) :
    crc s.recorded (s.chunk + s.current) = s.previous ^^^ 0x5FEE1299 := by
  have hprev : s.previous < 256 ^ 4 := h.trans (by norm_num)
  have hword : prevOffset (store 4 s.mem (s.chunk + s.current) s.previous) (s.chunk + s.current) = s.previous :=
    load_store hprev
  dsimp only [crc, recorded]
  rw [hword]
  exact load_store (Nat.xor_lt_two_pow (n := 32) hprev (by norm_num))

theorem recorded_outside {x : ℕ} (h : x < s.chunk + s.current ∨ s.chunk + s.current + 8 ≤ x) :
    s.recorded x = s.mem x :=
  (store_outside (by omega)).trans (store_outside (by omega))

theorem alloc_pushed (hprev : s.previous < 2 ^ 31) (hfit : cellSize size ≤ s.available) (hcur : s.current < s.capacity) :
    s.alloc size = .ok (s.chunk + s.current + 8, s.pushed (cellSize size)) := by
  have hassert : xpfAssert "Expecting PrevOffset < (1<<MAXSIZE_POWOF2)"
      (prevOffset s.recorded (s.chunk + s.current) < 1 <<< maxSizePowOf2) = .ok () :=
    xpfAssert_ok (by rw [prevOffset_recorded hprev, maxSizePowOf2, Nat.one_shiftLeft]; exact hprev)
  have hroom : ¬ upgradeToMultipleOf8 (u32 (size + sizeofFreeCellRecord)) > s.available := not_lt.mpr hfit
  unfold alloc
  simp only [hroom, if_false, hcur, xpfAssert_true, ok_bind, if_true]
  change xpfAssert _ (prevOffset s.recorded (s.chunk + s.current) < 1 <<< maxSizePowOf2) >>= _ = _
  rw [hassert]
  rfl

end Pushing

end LinearAllocatorDetails

/-- The cells after the one at `off` was marked. -/
def markFreed (off : ℕ) (cells : List Cell) : List Cell :=
  cells.map (fun c => if c.off = off then { c with freed := true } else c)

theorem Stacked.markFreed {top off : ℕ} {cells : List Cell} (h : Stacked top cells) :
    Stacked top (markFreed off cells) := by
  induction cells generalizing top with
  | nil => exact h
  | cons c rest ih =>
    obtain ⟨htop, hlen, hrest⟩ := h
    by_cases hc : c.off = off
    · simpa only [Allocators.markFreed, List.map_cons, if_pos hc] using ⟨htop, hlen, ih hrest⟩
    · simpa only [Allocators.markFreed, List.map_cons, if_neg hc] using ⟨htop, hlen, ih hrest⟩

theorem mem_markFreed {off : ℕ} {cells : List Cell} {d : Cell} :
    d ∈ markFreed off cells ↔
      ∃ c ∈ cells, d = if c.off = off then { c with freed := true } else c := by
  simp only [markFreed, List.mem_map, eq_comm]

namespace CellStack
open LinearAllocatorDetails
variable {s : LinearAllocatorDetails} {cells : List Cell} {c d : Cell} {size : ℕ}

theorem empty (hcap : s.capacity ≤ 2 ^ 31) (hcur : s.current = 0) (hprev : s.previous = 0) : CellStack s [] where
  capacity_le := hcap
  current_le := hcur ▸ Nat.zero_le _
  stacked := hcur
  records := by simp
  links := by simp
  previous := Or.inl ⟨rfl, hprev⟩

theorem fresh (size chunk : ℕ) (mem : Memory) : CellStack (construct size chunk mem) [] :=
  empty (constructedCapacity_spec size).2.1 rfl rfl

theorem reset (h : CellStack s cells) : CellStack s.reset.2 [] :=
  empty h.capacity_le rfl rfl

/-- A new record is linked to the cell `Previous` names, or is the bottom. -/
theorem linkedBelow_push (h : CellStack s cells) {len : ℕ} :
    LinkedBelow (⟨s.current, len, s.previous, false⟩ :: cells)
      ⟨s.current, len, s.previous, false⟩ := by
  rcases h.previous with ⟨hnil, hprev⟩ | ⟨c, hc, hprev⟩
  · have htop := h.stacked
    rw [hnil] at htop
    exact Or.inl ⟨htop, hprev⟩
  · have hle := h.mem_le hc
    exact Or.inr ⟨c, List.mem_cons_of_mem _ hc, by dsimp only; omega, hprev⟩

/-- `alloc` either changes nothing or pushes a cell and returns its payload. -/
theorem alloc_spec (h : CellStack s cells) (hsize : size ≤ s.capacity) :
    s.alloc size = .ok (NULL, s) ∨
    ∃ t, s.alloc size = .ok (s.chunk + s.current + 8, t) ∧
      CellStack t (⟨s.current, cellSize size, s.previous, false⟩ :: cells) ∧
      t.chunk = s.chunk ∧ t.capacity = s.capacity ∧
      t.current = s.current + cellSize size ∧ t.previous = s.current ∧
      ∀ x, x < s.chunk + s.current ∨ s.chunk + s.current + 8 ≤ x → t.mem x = s.mem x := by
  have hcap := h.capacity_le
  have hcur := h.current_le
  have hge : size + 8 ≤ cellSize size := cellSize_ge (hsize.trans hcap)
  have havail := available_eq hcur hcap
  rcases Nat.lt_or_ge s.available (cellSize size) with hfit | hfit
  · exact Or.inl (alloc_refused hfit)
  · right
    have hsum : u32 (s.current + cellSize size) = s.current + cellSize size := u32_of_lt (by omega)
    refine ⟨s.pushed (cellSize size), alloc_pushed h.previous_lt hfit (by omega), ?_, rfl, rfl, hsum, rfl,
      fun x hx => recorded_outside hx⟩
    constructor
    · exact hcap
    · dsimp only [pushed]
      omega
    · exact ⟨hsum.symm, by dsimp only; omega, h.stacked⟩
    · intro c hc
      rcases List.mem_cons.mp hc with rfl | hc
      · exact ⟨prevOffset_recorded h.previous_lt, crc_recorded h.previous_lt⟩
      · have hle := h.mem_le hc
        exact (h.records c hc).congr (fun x _ hhi => recorded_outside (Or.inl (by omega)))
    · intro c hc
      rcases List.mem_cons.mp hc with rfl | hc
      · exact h.linkedBelow_push
      · exact (h.links c hc).imp_right
          (fun ⟨d, hd, hlt⟩ => ⟨d, List.mem_cons_of_mem _ hd, hlt⟩)
    · exact Or.inr ⟨_, List.mem_cons_self, rfl⟩

/-- The state after the freed bit of the cell at `off` was set. -/
def marked (s : LinearAllocatorDetails) (off : ℕ) : LinearAllocatorDetails :=
  { s with mem := store 4 s.mem (s.chunk + off) (prevOffset s.mem (s.chunk + off) ||| 0x80000000) }

theorem marked_spec (h : CellStack s cells) (hc : c ∈ cells) (hf : c.freed = false) :
    CellStack (marked s c.off) (markFreed c.off cells) where
  capacity_le := h.capacity_le
  current_le := h.current_le
  stacked := h.stacked.markFreed
  records := by
    intro d hd
    obtain ⟨e, he, rfl⟩ := mem_markFreed.mp hd
    by_cases heq : e.off = c.off
    · obtain rfl := h.stacked.eq_of_off he hc heq
      rw [if_pos rfl]
      exact (h.records e he).mark (h.prev_lt he) hf
    · rw [if_neg heq]
      have hce := (h.mem_le hc).2
      have hee := (h.mem_le he).2
      rcases h.stacked.eq_or_apart he hc with rfl | hlt
      · exact absurd rfl heq
      · exact (h.records e he).congr (fun x _ _ => store_outside (by omega))
  links := by
    intro d hd
    obtain ⟨e, he, rfl⟩ := mem_markFreed.mp hd
    have hlink : LinkedBelow (markFreed c.off cells) e :=
      (h.links e he).imp_right (fun ⟨f, hf, hlt, hprev⟩ =>
        ⟨_, mem_markFreed.mpr ⟨f, hf, rfl⟩, by split <;> exact hlt, by split <;> exact hprev⟩)
    split
    · exact hlink
    · exact hlink
  previous := by
    rcases h.previous with ⟨hnil, _⟩ | ⟨d, hd, hprev⟩
    · simp [hnil] at hc
    · exact Or.inr ⟨_, mem_markFreed.mpr ⟨d, hd, rfl⟩, by split <;> exact hprev⟩

/-- Cells and memory agree on what a link is. -/
theorem deadLink_iff (h : CellStack s cells) (hc : c ∈ cells) {target : ℕ} :
    s.DeadLink c.off target ↔ ∃ d ∈ cells, d.off = target ∧ c.prev = d.off ∧ d.freed = true := by
  have hlink : s.linkOf c.off = c.prev := (h.records c hc).link (h.prev_lt hc)
  have hflag : ∀ d ∈ cells, s.IsFreed d.off ↔ d.freed = true := by
    intro d hd
    rw [IsFreed, Ne, (h.records d hd).flag (h.prev_lt hd), Bool.not_eq_false]
  constructor
  · rintro ⟨rfl, hfreed⟩
    rw [hlink] at hfreed ⊢
    rcases h.links c hc with ⟨hoff, hprev⟩ | ⟨d, hd, _, hprev⟩
    · exact ⟨c, hc, by omega, by omega, (hflag c hc).mp (by rwa [hoff, ← hprev])⟩
    · exact ⟨d, hd, hprev.symm, hprev, (hflag d hd).mp (hprev ▸ hfreed)⟩
  · rintro ⟨d, hd, rfl, hprev, hfreed⟩
    exact ⟨hlink.trans hprev, (hflag d hd).mpr hfreed⟩

theorem DeadChain.cell (h : CellStack s cells) (hc : c ∈ cells) {x : ℕ} (hx : s.DeadChain c.off x) :
    ∃ d ∈ cells, d.off = x := by
  induction hx with
  | refl => exact ⟨c, hc, rfl⟩
  | tail _ hlink ih =>
    obtain ⟨d, hd, rfl⟩ := ih
    obtain ⟨e, he, hex, _⟩ := (h.deadLink_iff hd).mp hlink
    exact ⟨e, he, hex⟩

/-- Marking the cell a chain starts from does not change the chain. -/
theorem deadChain_marked (h : CellStack s cells) (hc : c ∈ cells) (hf : c.freed = false) {x : ℕ} :
    (marked s c.off).DeadChain c.off x ↔ s.DeadChain c.off x := by
  have hm := h.marked_spec hc hf
  constructor
  · intro hx
    induction hx with
    | refl => exact ReflTransGen.refl
    | tail _ hlink ih =>
      -- a link back to the start adds nothing; any other target was freed before
      obtain ⟨d, hd, hdx⟩ := DeadChain.cell h hc ih
      obtain ⟨e, he, rfl, hprev, hfreed⟩ :=
        (hm.deadLink_iff (mem_markFreed.mpr ⟨d, hd, rfl⟩)).mp (by split <;> rwa [hdx])
      obtain ⟨g, hg, rfl⟩ := mem_markFreed.mp he
      by_cases hgc : g.off = c.off
      · rw [if_pos hgc]
        exact hgc ▸ ReflTransGen.refl
      · simp only [if_neg hgc] at hprev hfreed ⊢
        refine ih.tail (hdx ▸ (h.deadLink_iff hd).mpr ⟨g, hg, rfl, ?_, hfreed⟩)
        split at hprev <;> exact hprev
  · intro hx
    induction hx with
    | refl => exact ReflTransGen.refl
    | tail hchain hlink ih =>
      obtain ⟨d, hd, hdx⟩ := DeadChain.cell h hc hchain
      obtain ⟨g, hg, rfl, hprev, hfreed⟩ := (h.deadLink_iff hd).mp (by rwa [hdx])
      have hlink' : (marked s c.off).DeadLink d.off g.off := by
        have hd' : (if d.off = c.off then { d with freed := true } else d) ∈ markFreed c.off cells :=
          mem_markFreed.mpr ⟨d, hd, rfl⟩
        have hoff : (if d.off = c.off then { d with freed := true } else d).off = d.off := by
          split <;> rfl
        rw [← hoff]
        refine (hm.deadLink_iff hd').mpr ⟨_, mem_markFreed.mpr ⟨g, hg, rfl⟩, ?_, ?_, ?_⟩
        · split <;> rfl
        · split <;> split <;> exact hprev
        · split
          · rfl
          · exact hfreed
      exact ih.tail (hdx ▸ hlink')

/-- Where the rollback that starts at the freed cell `c` ends: at the lowest
offset `q` of the chain of freed cells, with `Previous` naming some cell below. -/
structure RolledBack (s : LinearAllocatorDetails) (cells : List Cell) (c : Cell) (q prev : ℕ) : Prop where
  mem : ∃ d ∈ cells, d.off = q
  chain : s.DeadChain c.off q
  lowest : ∀ x, s.DeadChain c.off x → q ≤ x
  previous : q = 0 ∧ prev = 0 ∨ ∃ e ∈ cells, e.off < q ∧ prev = e.off

/-- Passes after the first: the record in hand is a freed cell and `Previous`
is its link. The induction is on the budget, which the offsets stay below. -/
theorem rollback_spec (h : CellStack s cells) (fuel current : ℕ) (hc : c ∈ cells)
    (hf : c.freed = true) (hfuel : c.off < fuel) :
    ∃ q prev, rollback fuel { s with current := current, previous := c.prev } c.off =
      .ok { s with current := q, previous := prev } ∧ RolledBack s cells c q prev := by
  induction fuel generalizing c current with
  | zero => omega
  | succ fuel ih =>
    have hoff : u32 c.off = c.off := u32_of_lt ((h.off_lt hc).trans (by norm_num))
    by_cases hzero : c.off = 0
    · refine ⟨0, 0, ?_, ⟨c, hc, hzero⟩, hzero ▸ ReflTransGen.refl, fun x _ => Nat.zero_le x, Or.inl ⟨rfl, rfl⟩⟩
      simp only [rollback, hoff.trans hzero, if_true, pure_eq_ok]
    · obtain ⟨d, hd, hlt, hprev⟩ := (h.links c hc).resolve_left (fun hbot => hzero hbot.1)
      have hlink : prevOffset s.mem (s.chunk + d.off) &&& 0x7FFFFFFF = d.prev :=
        (h.records d hd).link (h.prev_lt hd)
      have hsum := (h.records d hd).2.symm
      have hflag := (h.records d hd).flag (h.prev_lt hd)
      -- the chain from `c` goes on exactly when the cell it links to is freed
      have hnext : ∀ x, s.DeadChain c.off x → x = c.off ∨ d.freed = true ∧ s.DeadChain d.off x := by
        intro x hx
        rcases ReflTransGen.cases_head hx with rfl | ⟨y, hy, hrest⟩
        · exact Or.inl rfl
        · obtain ⟨e, he, rfl, hpe, hfe⟩ := (h.deadLink_iff hc).mp hy
          obtain rfl := h.stacked.eq_of_off he hd (by omega)
          exact Or.inr ⟨hfe, hrest⟩
      cases hdf : d.freed with
      | false =>
        have hword := hflag.mpr hdf
        refine ⟨c.off, d.prev, ?_, ⟨c, hc, rfl⟩, ReflTransGen.refl, ?_, ?_⟩
        · simp only [rollback, hoff, hzero, if_false, hprev, hsum, xpfAssert_true, ok_bind, hword,
            if_true, hlink, pure_eq_ok]
        · intro x hx
          rcases hnext x hx with rfl | ⟨hfreed, _⟩
          · exact le_rfl
          · simp [hdf] at hfreed
        · rcases h.links d hd with ⟨hd0, hdp⟩ | ⟨e, he, helt, hdp⟩
          · exact Or.inr ⟨d, hd, hlt, by omega⟩
          · exact Or.inr ⟨e, he, by omega, hdp⟩
      | true =>
        have hword : ¬ (prevOffset s.mem (s.chunk + d.off) &&& 0x80000000 = 0) := by
          rw [hflag, hdf]
          simp
        obtain ⟨q, prev, hrun, hback⟩ := ih c.off hd hdf (by omega)
        refine ⟨q, prev, ?_, hback.mem, ?_, ?_, hback.previous⟩
        · simp only [rollback, hoff, hzero, if_false, hprev, hsum, xpfAssert_true, ok_bind, hword, hlink]
          exact hrun
        · exact ReflTransGen.head ((h.deadLink_iff hc).mpr ⟨d, hd, rfl, hprev, hdf⟩) hback.chain
        · intro x hx
          rcases hnext x hx with rfl | ⟨_, hrest⟩
          · exact (hback.lowest d.off ReflTransGen.refl).trans hlt.le
          · exact hback.lowest x hrest

/-- The first pass finds `Previous` at the freed cell itself. -/
theorem rollback_first (h : CellStack s cells) (fuel : ℕ) (hc : c ∈ cells) (hf : c.freed = true)
    (hprev : s.previous = c.off) (hfuel : c.off + 1 < fuel) :
    ∃ q prev, rollback fuel s c.off = .ok { s with current := q, previous := prev } ∧
      RolledBack s cells c q prev := by
  obtain ⟨fuel, rfl⟩ : ∃ k, fuel = k + 1 := ⟨fuel - 1, by omega⟩
  have hoff : u32 c.off = c.off := u32_of_lt ((h.off_lt hc).trans (by norm_num))
  by_cases hzero : c.off = 0
  · refine ⟨0, 0, ?_, ⟨c, hc, hzero⟩, hzero ▸ ReflTransGen.refl, fun x _ => Nat.zero_le x, Or.inl ⟨rfl, rfl⟩⟩
    simp only [rollback, hoff.trans hzero, if_true, pure_eq_ok]
  · obtain ⟨q, prev, hrun, hback⟩ := h.rollback_spec fuel c.off hc hf (by omega)
    refine ⟨q, prev, ?_, hback⟩
    have hword : ¬ (prevOffset s.mem (s.chunk + c.off) &&& 0x80000000 = 0) := by
      rw [(h.records c hc).flag (h.prev_lt hc), hf]
      simp
    have hlink := (h.records c hc).link (h.prev_lt hc)
    have hsum := (h.records c hc).2.symm
    simp only [rollback, hoff, hzero, if_false, hprev, hlink, hsum, xpfAssert_true, ok_bind, hword]
    exact hrun

/-- Cutting the stack at the offset a rollback ends at. -/
theorem cut (h : CellStack s cells) {q prev : ℕ} (hmem : ∃ d ∈ cells, d.off = q)
    (hprev : q = 0 ∧ prev = 0 ∨ ∃ e ∈ cells, e.off < q ∧ prev = e.off) :
    ∃ below, CellStack { s with current := q, previous := prev } below ∧
      (∀ d ∈ below, d ∈ cells) ∧ ∀ d ∈ cells, d ∈ below ↔ d.off < q := by
  obtain ⟨d, hd, rfl⟩ := hmem
  obtain ⟨above, below, rfl⟩ := List.append_of_mem hd
  have hbelow : ∀ e ∈ above ++ d :: below, e ∈ below ↔ e.off < d.off :=
    fun e he => h.stacked.mem_below_iff he
  have hsub : ∀ e ∈ below, e ∈ above ++ d :: below :=
    fun e he => List.mem_append_right above (List.mem_cons_of_mem _ he)
  refine ⟨below, ⟨h.capacity_le, ?_, h.stacked.cut, fun e he => h.records e (hsub e he), ?_, ?_⟩, hsub, hbelow⟩
  · have hle := h.mem_le hd
    have hcur := h.current_le
    dsimp only
    omega
  · intro e he
    rcases h.links e (hsub e he) with hbot | ⟨f, hf, hlt, hlink⟩
    · exact Or.inl hbot
    · have hed := (hbelow e (hsub e he)).mp he
      exact Or.inr ⟨f, (hbelow f hf).mpr (by omega), hlt, hlink⟩
  · rcases hprev with ⟨hq, hp⟩ | ⟨e, he, hlt, hp⟩
    · left
      refine ⟨?_, hp⟩
      cases hbel : below with
      | nil => rfl
      | cons f rest =>
        have hf := (hbelow f (hsub f (by simp [hbel]))).mp (by simp [hbel])
        omega
    · exact Or.inr ⟨e, (hbelow e he).mpr hlt, hp⟩

/-- `free` marks the cell. When `Previous` names that cell it also cuts the
stack at the end of the chain of freed cells. -/
theorem free_spec (h : CellStack s cells) (hc : c ∈ cells) (hf : c.freed = false) :
    (s.previous ≠ c.off ∧ s.free (s.chunk + c.off + 8) = .ok (marked s c.off)) ∨
    (s.previous = c.off ∧ ∃ q prev,
      s.free (s.chunk + c.off + 8) = .ok { marked s c.off with current := q, previous := prev } ∧
      RolledBack (marked s c.off) (markFreed c.off cells) { c with freed := true } q prev) := by
  have hmark := h.marked_spec hc hf
  have hcell : s.chunk + c.off + 8 - sizeofFreeCellRecord = s.chunk + c.off := by
    dsimp only [sizeofFreeCellRecord]
    omega
  have hle := h.mem_le hc
  have hcur := h.current_le
  have hrange : s.chunk ≤ s.chunk + c.off ∧ s.chunk + c.off < s.chunk + s.capacity := by omega
  have hsum := (h.records c hc).checksum (h.prev_lt hc)
  have hflag := ((h.records c hc).flag (h.prev_lt hc)).mpr hf
  have hsub : s.chunk + c.off - s.chunk = c.off := by omega
  by_cases hprev : s.previous = c.off
  · right
    have hcm : ({ c with freed := true } : Cell) ∈ markFreed c.off cells :=
      mem_markFreed.mpr ⟨c, hc, (if_pos rfl).symm⟩
    obtain ⟨q, prev, hrun, hback⟩ := hmark.rollback_first (marked s c.off).rollbackBudget hcm rfl hprev
      (by dsimp only [rollbackBudget, marked]; omega)
    have htop : ¬ s.previous ≠ c.off := not_not.mpr hprev
    refine ⟨hprev, q, prev, ?_, hback⟩
    simp only [free, hcell, hrange, and_self, xpfAssert_true, ok_bind, if_true, hsum, hflag, hsub,
      htop, if_false]
    exact hrun
  · left
    refine ⟨hprev, ?_⟩
    simp only [free, hcell, hrange, and_self, xpfAssert_true, ok_bind, if_true, hsum, hflag, hsub,
      hprev, ne_eq, not_false_eq_true, pure_eq_ok]
    rfl

end CellStack
end LibXpf.Allocators
