import LibXpf.Allocators.LinearSteps

/-! # Sessions of a `LinearAllocator`

The cells of live pointers stay apart as long as a rollback never passes below
a live cell. It can: `free` leaves `Previous` one cell too low whenever it stops
at a live cell that is not the bottom, so later links skip that cell. The guard
below is exactly what excludes the loss.
-/
namespace LibXpf.Allocators
open ByteMemory Relation GuardedRuns

namespace Linear
open LinearAllocatorDetails

abbrev State := Session LinearAllocatorDetails

def step : State → Request → Except Fault State := Session.step LinearAllocatorDetails.interface

/-- A fresh allocator on the chunk at address `chunk`, with nothing live. -/
def fresh (size chunk : ℕ) (mem : Memory) : State := ⟨construct size chunk mem, []⟩

/-- No request asks for more than the capacity; `calloc` counts its product. -/
def sizeWithin (capacity : ℕ) : Request → Prop
  | .alloc size => size ≤ capacity
  | .calloc num size => num * size ≤ capacity
  | .realloc _ size => size ≤ capacity
  | _ => True

instance (capacity : ℕ) : (r : Request) → Decidable (sizeWithin capacity r)
  | .alloc _ | .calloc _ _ | .realloc _ _ => inferInstanceAs (Decidable (_ ≤ _))
  | .free _ | .dealloc _ _ | .reset | .write _ _ _ => isTrue trivial

/-- The requests a caller may make. -/
def Admits (w : State) (r : Request) : Prop :=
  r.argumentsLive w.live ∧ sizeWithin w.details.capacity r

instance (w : State) (r : Request) : Decidable (Admits w r) := inferInstanceAs (Decidable (_ ∧ _))

/-- The records and payloads of live pointers lie inside `[0, Current)`, and
those of two live pointers share no byte. -/
def CellsApart (w : State) : Prop :=
  (∀ b ∈ w.live, w.details.chunk + 8 ≤ b.ptr ∧ b.ptr + b.size ≤ w.details.chunk + w.details.current) ∧
  w.live.Pairwise (fun a b => Apart (a.ptr - 8) (8 + a.size) (b.ptr - 8) (8 + b.size))

instance (w : State) : Decidable (CellsApart w) :=
  have : ∀ a b : LiveBlock, Decidable (Apart (a.ptr - 8) (8 + a.size) (b.ptr - 8) (8 + b.size)) :=
    fun _ _ => inferInstanceAs (Decidable (_ ∨ _))
  inferInstanceAs (Decidable (_ ∧ _))

/-- A release of the cell that `Previous` names finds every other live cell
below all freed cells that stored links reach from it. -/
def ChainSkipsNoLiveCell (w : State) (p : ℕ) : Prop :=
  w.details.previous = p - 8 - w.details.chunk →
    ∀ q, w.details.DeadChain (p - 8 - w.details.chunk) q →
      ∀ b ∈ w.live, b.ptr ≠ p → b.ptr - 8 < w.details.chunk + q

/-- The condition on each request of a run. -/
def RollbackSafe (w : State) : Request → Prop
  | .free p => ChainSkipsNoLiveCell w p
  | .dealloc p _ => ChainSkipsNoLiveCell w p
  | _ => True

/-- Live pointers are the payloads of the cells that are not marked. -/
structure Matches (chunk : ℕ) (live : List LiveBlock) (cells : List Cell) : Prop where
  distinct : DistinctPointers live
  cell_of_live : ∀ b ∈ live, ∃ c ∈ cells, c.freed = false ∧ b.ptr = chunk + c.off + 8 ∧
    b.size ≤ 2 ^ 31 ∧ c.len = cellSize b.size
  live_of_cell : ∀ c ∈ cells, c.freed = false → ∃ b ∈ live, b.ptr = chunk + c.off + 8

/-- The invariant of a session. -/
def Inv (w : State) : Prop :=
  ∃ cells, CellStack w.details cells ∧ Matches w.details.chunk w.live cells

variable {s t : LinearAllocatorDetails} {cells : List Cell} {live : List LiveBlock} {c : Cell}
  {chunk p size : ℕ}

namespace Matches

theorem nil : Matches chunk [] [] where
  distinct := List.Pairwise.nil
  cell_of_live := by simp
  live_of_cell := by simp

theorem push (h : Matches chunk live cells) (hs : Stacked s.current cells) {prev : ℕ}
    (hsize : size ≤ 2 ^ 31) :
    Matches chunk (granted (chunk + s.current + 8) size live)
      (⟨s.current, cellSize size, prev, false⟩ :: cells) := by
  have hnull : chunk + s.current + 8 ≠ NULL := by simp [NULL]
  refine ⟨?_, ?_, ?_⟩
  · rw [granted, if_neg hnull]
    refine h.distinct.cons (fun b hb => ?_)
    obtain ⟨c, hc, _, hptr, _⟩ := h.cell_of_live b hb
    have hle := hs.mem_le hc
    dsimp only
    omega
  · intro b hb
    rcases (mem_granted hnull).mp hb with rfl | hb
    · exact ⟨_, List.mem_cons_self, rfl, rfl, hsize, rfl⟩
    · obtain ⟨c, hc, hrest⟩ := h.cell_of_live b hb
      exact ⟨c, List.mem_cons_of_mem _ hc, hrest⟩
  · intro c hc hf
    rcases List.mem_cons.mp hc with rfl | hc
    · exact ⟨_, (mem_granted hnull).mpr (Or.inl rfl), rfl⟩
    · obtain ⟨b, hb, hptr⟩ := h.live_of_cell c hc hf
      exact ⟨b, (mem_granted hnull).mpr (Or.inr hb), hptr⟩

theorem mark (h : Matches chunk live cells) :
    Matches chunk (released (chunk + c.off + 8) live) (markFreed c.off cells) := by
  refine ⟨h.distinct.released _, ?_, ?_⟩
  · intro b hb
    obtain ⟨hb, hne⟩ := mem_released.mp hb
    obtain ⟨d, hd, hf, hptr, hrest⟩ := h.cell_of_live b hb
    have hoff : d.off ≠ c.off := by omega
    exact ⟨d, mem_markFreed.mpr ⟨d, hd, (if_neg hoff).symm⟩, hf, hptr, hrest⟩
  · intro d hd hf
    obtain ⟨e, he, rfl⟩ := mem_markFreed.mp hd
    by_cases hoff : e.off = c.off
    · simp [hoff] at hf
    · rw [if_neg hoff] at hf ⊢
      obtain ⟨b, hb, hptr⟩ := h.live_of_cell e he hf
      exact ⟨b, mem_released.mpr ⟨hb, by omega⟩, hptr⟩

/-- Cutting the stack above every live cell. -/
theorem cut (h : Matches chunk live cells) {below : List Cell} {q : ℕ}
    (hbelow : ∀ d ∈ cells, d ∈ below ↔ d.off < q) (hsub : ∀ d ∈ below, d ∈ cells)
    (hlive : ∀ b ∈ live, b.ptr - 8 < chunk + q) : Matches chunk live below := by
  refine ⟨h.distinct, ?_, fun c hc hf => h.live_of_cell c (hsub c hc) hf⟩
  intro b hb
  obtain ⟨c, hc, hf, hptr, hrest⟩ := h.cell_of_live b hb
  have hq := hlive b hb
  exact ⟨c, (hbelow c hc).mpr (by omega), hf, hptr, hrest⟩

end Matches

theorem Inv.cellsApart {w : State} (h : Inv w) : CellsApart w := by
  obtain ⟨cells, hstack, hmatch⟩ := h
  constructor
  · intro b hb
    obtain ⟨c, hc, _, hptr, hsize, hlen⟩ := hmatch.cell_of_live b hb
    have hle := hstack.mem_le hc
    have hge := cellSize_ge hsize
    omega
  · refine List.Pairwise.imp_of_mem ?_ hmatch.distinct
    intro a b ha hb hne
    obtain ⟨c, hc, _, hcp, hcs, hcl⟩ := hmatch.cell_of_live a ha
    obtain ⟨d, hd, _, hdp, hds, hdl⟩ := hmatch.cell_of_live b hb
    have hca := cellSize_ge hcs
    have hdb := cellSize_ge hds
    unfold Apart
    rcases hstack.stacked.eq_or_apart hc hd with rfl | hlt | hlt <;> omega

theorem Matches.cell (h : Matches chunk live cells) (hp : IsLive live p) :
    ∃ c ∈ cells, c.freed = false ∧ p = chunk + c.off + 8 := by
  obtain ⟨b, hb, rfl⟩ := hp
  obtain ⟨c, hc, hf, hptr, _⟩ := h.cell_of_live b hb
  exact ⟨c, hc, hf, hptr⟩

/-- A release that the guard admits keeps the invariant. -/
theorem free_good (hstack : CellStack s cells) (hmatch : Matches s.chunk live cells)
    (hp : IsLive live p) (hsafe : ChainSkipsNoLiveCell ⟨s, live⟩ p) :
    ∃ t, s.free p = .ok t ∧ Inv ⟨t, released p live⟩ := by
  obtain ⟨c, hc, hf, rfl⟩ := hmatch.cell hp
  have hoff : s.chunk + c.off + 8 - 8 - s.chunk = c.off := by omega
  have hmark := hstack.marked_spec hc hf
  rcases hstack.free_spec hc hf with ⟨_, hrun⟩ | ⟨hprev, q, prev, hrun, hback⟩
  · exact ⟨_, hrun, _, hmark, hmatch.mark⟩
  · obtain ⟨below, hcut, hsub, hbelow⟩ := hmark.cut hback.mem hback.previous
    refine ⟨_, hrun, below, hcut, hmatch.mark.cut hbelow hsub ?_⟩
    intro b hb
    obtain ⟨hb, hne⟩ := mem_released.mp hb
    have hchain : s.DeadChain c.off q := (hstack.deadChain_marked hc hf).mp hback.chain
    exact hsafe (by dsimp only; omega) q (by dsimp only; rwa [hoff]) b hb hne

/-- A release outside the guard leaves a live cell above `Current`. -/
theorem free_bad (hstack : CellStack s cells) (hmatch : Matches s.chunk live cells)
    (hp : IsLive live p) (hsafe : ¬ ChainSkipsNoLiveCell ⟨s, live⟩ p) (hrun : s.free p = .ok t) :
    ¬ CellsApart ⟨t, released p live⟩ := by
  obtain ⟨c, hc, hf, rfl⟩ := hmatch.cell hp
  have hoff : s.chunk + c.off + 8 - 8 - s.chunk = c.off := by omega
  simp only [ChainSkipsNoLiveCell, hoff, not_forall, not_lt] at hsafe
  obtain ⟨hprev, x, hchain, b, hb, hne, hle⟩ := hsafe
  rcases hstack.free_spec hc hf with ⟨hprev', _⟩ | ⟨_, q, prev, hrun', hback⟩
  · exact absurd hprev hprev'
  · obtain rfl := Except.ok.inj (hrun.symm.trans hrun')
    have hq := hback.lowest x ((hstack.deadChain_marked hc hf).mpr hchain)
    intro hapart
    have hin := hapart.1 b (mem_released.mpr ⟨hb, hne⟩)
    have hchunk : (CellStack.marked s c.off).chunk = s.chunk := rfl
    dsimp only at hin
    omega

/-- A cell below the top is only marked, whatever else is live. -/
theorem free_below (hstack : CellStack s cells) (hmatch : Matches s.chunk live cells)
    (hp : IsLive live p) (hprev : s.previous ≠ p - 8 - s.chunk) :
    ∃ t, s.free p = .ok t ∧ Inv ⟨t, released p live⟩ :=
  free_good hstack hmatch hp (fun h => absurd h hprev)

/-- The payload `alloc` returned, seen from the session. -/
theorem alloc_inv (hstack : CellStack s cells) (hmatch : Matches s.chunk live cells)
    (hsize : size ≤ s.capacity) :
    s.alloc size = .ok (NULL, s) ∨
    ∃ t, s.alloc size = .ok (s.chunk + s.current + 8, t) ∧ t.chunk = s.chunk ∧
      t.previous = s.current ∧
      CellStack t (⟨s.current, cellSize size, s.previous, false⟩ :: cells) ∧
      Matches s.chunk (granted (s.chunk + s.current + 8) size live)
        (⟨s.current, cellSize size, s.previous, false⟩ :: cells) := by
  rcases hstack.alloc_spec hsize with hnull | ⟨t, hrun, hpush, hchunk, _, _, hprev, _⟩
  · exact Or.inl hnull
  · exact Or.inr ⟨t, hrun, hchunk, hprev, hpush,
      hmatch.push hstack.stacked (hsize.trans hstack.capacity_le)⟩

theorem alloc_good (hstack : CellStack s cells) (hmatch : Matches s.chunk live cells)
    (hsize : size ≤ s.capacity) : ∃ w', step ⟨s, live⟩ (.alloc size) = .ok w' ∧ Inv w' := by
  rcases alloc_inv hstack hmatch hsize with hrun | ⟨t, hrun, hchunk, _, hpush, hm⟩
  · refine ⟨⟨s, live⟩, ?_, cells, hstack, hmatch⟩
    simp [step, Session.step, interface, hrun]
  · refine ⟨⟨t, granted (s.chunk + s.current + 8) size live⟩, ?_, _, hpush, hchunk ▸ hm⟩
    simp [step, Session.step, interface, hrun]

theorem calloc_good (hstack : CellStack s cells) (hmatch : Matches s.chunk live cells) {num : ℕ}
    (hsize : num * size ≤ s.capacity) :
    ∃ w', step ⟨s, live⟩ (.calloc num size) = .ok w' ∧ Inv w' := by
  have hcap := hstack.capacity_le
  have hu : u32 (num * size) = num * size := u32_of_lt (hsize.trans_lt (by omega))
  rcases alloc_inv hstack hmatch hsize with hrun | ⟨t, hrun, hchunk, _, hpush, hm⟩
  · refine ⟨⟨s, live⟩, ?_, cells, hstack, hmatch⟩
    simp [step, Session.step, interface, calloc, hu, hrun]
  · -- the zeroed bytes lie in the payload of the new cell
    have hge := cellSize_ge (hsize.trans hcap)
    have hfill := hpush.of_payload (fill t.mem (s.chunk + s.current + 8) 0 (num * size))
      List.mem_cons_self (fun x hx => fill_outside (by rw [hchunk] at hx; dsimp only at hx; omega))
    refine ⟨⟨{ t with mem := fill t.mem (s.chunk + s.current + 8) 0 (num * size) },
      granted (s.chunk + s.current + 8) (num * size) live⟩, ?_, _, hfill, hchunk ▸ hm⟩
    simp [step, Session.step, interface, calloc, hu, hrun, NULL]

theorem released_null (hmatch : Matches chunk live cells) : released NULL live = live := by
  apply released_of_not_live
  intro b hb
  obtain ⟨c, _, _, hptr, _⟩ := hmatch.cell_of_live b hb
  simp [hptr, NULL]

theorem realloc_good (hstack : CellStack s cells) (hmatch : Matches s.chunk live cells)
    (hsize : size ≤ s.capacity) (hlive : p = NULL ∨ IsLive live p) :
    ∃ w', step ⟨s, live⟩ (.realloc p size) = .ok w' ∧ Inv w' := by
  by_cases hzero : size = 0
  · refine ⟨⟨s, live⟩, ?_, cells, hstack, hmatch⟩
    simp [step, Session.step, interface, realloc_eq, hzero, NULL]
  rcases alloc_inv hstack hmatch hsize with hrun | ⟨t, hrun, hchunk, hprev, hpush, hm⟩
  · refine ⟨⟨s, live⟩, ?_, cells, hstack, hmatch⟩
    simp [step, Session.step, interface, realloc_eq, hzero, hrun, NULL]
  have hnull : s.chunk + s.current + 8 ≠ NULL := by simp [NULL]
  by_cases hp : p = NULL
  · refine ⟨⟨t, granted (s.chunk + s.current + 8) size live⟩, ?_, _, hpush, hchunk ▸ hm⟩
    subst hp
    simp [step, Session.step, interface, realloc_eq, hzero, hrun, hnull, released_null hmatch]
  · -- the copy stays in the new payload, and the old cell is below the new top
    obtain ⟨c, hc, _, hpc⟩ := hmatch.cell (hlive.resolve_left hp)
    have hlow := hstack.mem_le hc
    have hge := cellSize_ge (hsize.trans hstack.capacity_le)
    have hcopy := hpush.of_payload (copy t.mem (s.chunk + s.current + 8) p size)
      List.mem_cons_self (fun x hx => copy_outside (by rw [hchunk] at hx; dsimp only at hx; omega))
    have hplive : IsLive (granted (s.chunk + s.current + 8) size live) p := by
      obtain ⟨b, hb, hbp⟩ := hlive.resolve_left hp
      exact ⟨b, (mem_granted hnull).mpr (Or.inr hb), hbp⟩
    obtain ⟨u, hfree, hinv⟩ := free_below hcopy (hchunk ▸ hm) hplive
      (by dsimp only; rw [hprev, hchunk]; omega)
    have hrel : released p (granted (s.chunk + s.current + 8) size live) =
        granted (s.chunk + s.current + 8) size (released p live) :=
      released_granted hnull (by omega) live
    refine ⟨⟨u, granted (s.chunk + s.current + 8) size (released p live)⟩, ?_, hrel ▸ hinv⟩
    simp only [step, Session.step, interface, realloc_eq, hzero, if_false, hrun, ok_bind, hp, hnull,
      ne_eq, not_false_eq_true, and_self, if_true, hfree, pure_eq_ok]

theorem write_good (hstack : CellStack s cells) (hmatch : Matches s.chunk live cells) {i : ℕ}
    {v : UInt8} (hlive : ∃ b ∈ live, b.ptr = p ∧ i < b.size) :
    ∃ w', step ⟨s, live⟩ (.write p i v) = .ok w' ∧ Inv w' := by
  obtain ⟨b, hb, rfl, hi⟩ := hlive
  obtain ⟨c, hc, _, hptr, hbs, hlen⟩ := hmatch.cell_of_live b hb
  have hge := cellSize_ge hbs
  have hstay := hstack.of_payload (Function.update s.mem (b.ptr + i) v) hc
    (fun x hx => Function.update_of_ne (by omega) _ _)
  exact ⟨⟨{ s with mem := Function.update s.mem (b.ptr + i) v }, live⟩, rfl, cells, hstay, hmatch⟩

/-- Every admitted request that the guard admits succeeds and keeps the invariant. -/
theorem step_good (w : State) (r : Request) (hinv : Inv w) (hadm : Admits w r)
    (hsafe : RollbackSafe w r) : ∃ w', step w r = .ok w' ∧ Inv w' := by
  obtain ⟨s, live⟩ := w
  obtain ⟨cells, hstack, hmatch⟩ := hinv
  obtain ⟨hlive, hsize⟩ := hadm
  cases r with
  | alloc size => exact alloc_good hstack hmatch hsize
  | calloc num size => exact calloc_good hstack hmatch hsize
  | realloc p size => exact realloc_good hstack hmatch hsize hlive
  | free p =>
    obtain ⟨t, hrun, hinv⟩ := free_good hstack hmatch hlive hsafe
    refine ⟨_, ?_, hinv⟩
    simp [step, Session.step, interface, hrun]
  | dealloc p size =>
    obtain ⟨t, hrun, hinv⟩ := free_good hstack hmatch hlive hsafe
    refine ⟨_, ?_, hinv⟩
    simp [step, Session.step, interface, dealloc, hrun]
  | reset => exact ⟨⟨s.reset.2, []⟩, rfl, [], hstack.reset, Matches.nil⟩
  | write p i v => exact write_good hstack hmatch hlive

/-- A request outside the guard breaks the separation of the live cells at once. -/
theorem step_bad (w : State) (r : Request) (w' : State) (hinv : Inv w) (hadm : Admits w r)
    (hsafe : ¬ RollbackSafe w r) (hrun : step w r = .ok w') : ¬ CellsApart w' := by
  obtain ⟨s, live⟩ := w
  obtain ⟨cells, hstack, hmatch⟩ := hinv
  obtain ⟨hlive, _⟩ := hadm
  cases r with
  | free p =>
    obtain ⟨t, hfree, hrun⟩ := ok_of_bind hrun
    cases hrun
    exact free_bad hstack hmatch hlive hsafe hfree
  | dealloc p size =>
    obtain ⟨t, hfree, hrun⟩ := ok_of_bind hrun
    cases hrun
    exact free_bad hstack hmatch hlive hsafe hfree
  | _ => exact absurd trivial hsafe

/-- For every capacity and every admitted run from a fresh allocator: the live
cells stay inside `[0, Current)` and apart in every state reached if and only if
no rollback of the run passes below a live cell. -/
theorem cellsApart_iff_rollbackSafe (size chunk : ℕ) (mem : Memory) (requests : List Request)
    (h : Along step Admits (fresh size chunk mem) requests) :
    Throughout step CellsApart (fresh size chunk mem) requests ↔
      Along step RollbackSafe (fresh size chunk mem) requests :=
  throughout_iff_along (fun _ => Inv.cellsApart) step_good step_bad
    ⟨[], CellStack.fresh size chunk mem, Matches.nil⟩ h

/-- Three cells freed out of order, where the rollback stops at the bottom cell. -/
theorem cellsApart_iff_rollbackSafe_three_cells :
    Throughout step CellsApart (fresh 1024 4096 (fun _ => 0))
        [.alloc 32, .alloc 32, .write 4104 3 7, .alloc 32, .free 4144, .free 4184] ↔
      Along step RollbackSafe (fresh 1024 4096 (fun _ => 0))
        [.alloc 32, .alloc 32, .write 4104 3 7, .alloc 32, .free 4144, .free 4184] :=
  cellsApart_iff_rollbackSafe 1024 4096 (fun _ => 0)
    [.alloc 32, .alloc 32, .write 4104 3 7, .alloc 32, .free 4144, .free 4184] (by decide +kernel)

/-- Three cells; the top one is freed, then the bottom one, and the middle one
is handed out again while it is live. -/
def skippedCellRun : List Request :=
  [.alloc 32, .alloc 32, .alloc 32, .free 4184, .free 4104, .alloc 64]

/-- The run is admitted, yet it ends with the payload `[4104, 4168)` next to the
live payload `[4144, 4176)`. -/
theorem skippedCellRun_overlaps :
    Along step Admits (fresh 1024 4096 (fun _ => 0)) skippedCellRun ∧
    (final step (fresh 1024 4096 (fun _ => 0)) skippedCellRun).toOption.map (·.live) =
      some [⟨4104, 64⟩, ⟨4144, 32⟩] ∧
    ¬ Throughout step CellsApart (fresh 1024 4096 (fun _ => 0)) skippedCellRun := by
  decide +kernel

end Linear
end LibXpf.Allocators
