import LibXpf.Allocators.Contents
import LibXpf.Allocators.LinearRealloc

/-! # When a `LinearAllocator` is a store of blocks

Three things break it, and the caller can keep clear of each: sizes whose cell length wraps, a
rollback that passes below a live cell, and a block that is given more bytes than its cell
has. A run without them is a run of a store of blocks.
-/
namespace LibXpf.Allocators
open ByteMemory Relation BlockStore GuardedRuns

namespace Linear
open LinearAllocatorDetails
variable {s t : LinearAllocatorDetails} {live : List LiveBlock} {b : LiveBlock} {w : State} {size p q i : ℕ}

/-- `realloc` refuses the size, or the cell of the block has as many bytes. -/
def StaysInCell (w : State) : Request → Prop
  | .realloc p size => w.details.available < cellSize size ∨ ∀ b ∈ w.live, b.ptr = p → size ≤ (b.size + 7) / 8 * 8
  | _ => True

instance (w : State) : (r : Request) → Decidable (StaysInCell w r)
  | .realloc _ _ => inferInstanceAs (Decidable (_ ∨ _))
  | .alloc _ | .calloc _ _ | .free _ | .dealloc _ _ | .reset | .write _ _ _ => isTrue trivial

/-- The requests of a caller that keeps clear of what breaks the store. -/
def Guarded (w : State) (r : Request) : Prop := Callable w r ∧ Careful w r ∧ StaysInCell w r

theorem Inv.separate (h : Inv w) : Separate w.live := by
  obtain ⟨hin, hapart⟩ := h.cellsApart
  obtain ⟨cells, hstack, hmatch⟩ := h
  refine ⟨hmatch.distinct, fun b hb hnull => ?_, fun b hb c hc hne => ?_⟩
  · have hptr := (hin b hb).1
    rw [hnull, NULL] at hptr
    omega
  · have hsymm : Std.Symm (fun a b : LiveBlock => Apart (a.ptr - 8) (8 + a.size) (b.ptr - 8) (8 + b.size)) :=
      ⟨fun _ _ h => h.symm⟩
    have hcells := List.Pairwise.forall hapart hb hc hne
    have hbptr := (hin b hb).1
    have hcptr := (hin c hc).1
    unfold Apart at hcells ⊢
    omega

/-- `alloc` writes at `Current`, above every block that is held. -/
theorem alloc_frame (h : Bounded s) (hrun : s.alloc size = .ok (p, t)) :
    (p = NULL ∧ t = s) ∨ (p = s.chunk + s.current + 8 ∧ ∀ x < s.chunk + s.current, t.mem x = s.mem x) := by
  have hcases := h.alloc_allocated size
  rw [hrun] at hcases
  cases hcases with
  | refused => exact .inl ⟨rfl, rfl⟩
  | pushed t hfit hcur hchunk hcap hcurrent hprev hword hframe => exact .inr ⟨rfl, fun x hx => hframe x (Or.inl hx)⟩

theorem calloc_frame (h : Bounded s) {num : ℕ} (hrun : s.calloc num size = .ok (p, t)) :
    (∀ x < s.chunk + s.current, t.mem x = s.mem x) ∧
      (p ≠ NULL → ∀ i < u32 (num * size), t.mem (p + i) = 0) := by
  obtain ⟨⟨q, u⟩, halloc, hok⟩ := ok_of_bind hrun
  dsimp only at hok
  rcases alloc_frame h halloc with ⟨rfl, rfl⟩ | ⟨rfl, hframe⟩
  · rw [if_neg (not_not.mpr rfl)] at hok
    cases hok
    exact ⟨fun _ _ => rfl, fun hp => absurd rfl hp⟩
  · rw [if_pos (by simp [NULL])] at hok
    cases hok
    exact ⟨fun x hx => (fill_outside (Or.inl (by omega))).trans (hframe x hx), fun _ i hi => fill_inside hi⟩

/-- A release sets a bit in the record of its own cell. -/
theorem free_kept (h : Inv ⟨s, live⟩) (hp : IsLive live p) (hrun : s.free p = .ok t) (hb : b ∈ live) (hne : b.ptr ≠ p)
    (hi : i < b.size) : t.mem (b.ptr + i) = s.mem (b.ptr + i) := by
  obtain ⟨cells, hstack, hmatch⟩ := h
  dsimp only at hstack hmatch
  obtain ⟨c, hc, hf, rfl⟩ := hmatch.cell hp
  obtain ⟨d, hd, -, hptr, hlen, hcell, -⟩ := hmatch.payload hstack hb
  have hmem : t.mem = (CellStack.marked s c.off).mem := by
    rcases hstack.free_spec hc hf with ⟨-, hrun'⟩ | ⟨-, q, prev, hrun', -⟩
    · obtain rfl := Except.ok.inj (hrun.symm.trans hrun')
      rfl
    · obtain rfl := Except.ok.inj (hrun.symm.trans hrun')
      rfl
  have hcd : c ≠ d := by
    rintro rfl
    exact hne hptr
  have hapart := (hstack.stacked.eq_or_apart hc hd).resolve_left hcd
  have hcl := (hstack.mem_le hc).2
  rw [hmem]
  apply store_outside
  omega

/-- Where a block goes, and which bytes stay. -/
theorem realloc_frame (h : Inv ⟨s, live⟩) (hbounded : Bounded s) (hp : p = NULL ∨ IsLive live p)
    (hstays : StaysInCell ⟨s, live⟩ (.realloc p size)) (hrun : s.realloc p size = .ok (q, t)) :
    (q = NULL ∧ t.mem = s.mem) ∨ (q = s.chunk + s.current + 8 ∧
      (∀ c ∈ live, c.ptr ≠ p → ∀ i < c.size, t.mem (c.ptr + i) = s.mem (c.ptr + i)) ∧
      ∀ b ∈ live, b.ptr = p → ∀ i < min b.size size, t.mem (q + i) = s.mem (p + i)) := by
  by_cases hzero : size = 0
  · simp only [realloc_eq, hzero, if_true] at hrun
    cases hrun
    exact .inl ⟨rfl, rfl⟩
  rcases Nat.lt_or_ge s.available (cellSize size) with hfit | hfit
  · simp only [realloc_eq, hzero, if_false, alloc_refused hfit, ok_bind, ne_eq, not_true_eq_false, false_and] at hrun
    cases hrun
    exact .inl ⟨rfl, rfl⟩
  by_cases hnull : p = NULL
  · have halloc : s.alloc size = .ok (q, t) := by
      rw [← hrun]
      simp only [realloc_eq, hzero, if_false, hnull, ne_eq, not_true_eq_false, and_false]
      cases s.alloc size with
      | error e => rfl
      | ok r => rfl
    have hcells := h.cellsApart.1
    rcases alloc_frame hbounded halloc with ⟨rfl, rfl⟩ | ⟨rfl, hframe⟩
    · exact .inl ⟨rfl, rfl⟩
    · refine .inr ⟨rfl, fun c hc _ i hi => hframe _ ?_, fun b hb hptr => ?_⟩
      · have hin := (hcells c hc).2
        dsimp only at hin
        omega
      · have hin := (hcells b hb).1
        rw [hptr, hnull, NULL] at hin
        omega
  · obtain ⟨b, hb, rfl⟩ := hp.resolve_left hnull
    have hle := hstays.resolve_left (not_lt.mpr hfit) b hb rfl
    obtain ⟨c, u, hu, hmoved⟩ := realloc_moves h hbounded hb hzero hle hfit
    obtain ⟨rfl, rfl⟩ := Prod.mk.inj (Except.ok.inj (hrun.symm.trans hu))
    obtain ⟨hcontents, -, -, hothers⟩ := hmoved
    refine .inr ⟨rfl, fun c hc hne i hi => hothers c hc (fun heq => hne (congrArg LiveBlock.ptr heq)) i hi, ?_⟩
    intro c hc hptr i hi
    have hdistinct := h.separate.distinct
    obtain rfl := hdistinct.eq_of_ptr hc hb hptr
    exact hcontents i hi

theorem Inv.live_below (h : Inv ⟨s, live⟩) (hb : b ∈ live) (hi : i < b.size) : b.ptr + i < s.chunk + s.current := by
  have hin := (h.cellsApart.1 b hb).2
  dsimp only at hin
  omega

/-- A block that is still held after a `realloc` that moved one is not the one that was moved. -/
theorem realloc_served (h : Inv ⟨s, live⟩) (hbounded : Bounded s) (hp : p = NULL ∨ IsLive live p)
    (hstays : StaysInCell ⟨s, live⟩ (.realloc p size)) {w' : State} (hrun : step ⟨s, live⟩ (.realloc p size) = .ok w') :
    Served interface (·.mem) ⟨s, live⟩ (.realloc p size) w' := by
  obtain ⟨⟨q, t⟩, hrealloc, hok⟩ := ok_of_bind hrun
  cases Session.step_answered hrun with
  | realloc hdetails =>
    obtain ⟨rfl, rfl⟩ := Prod.mk.inj (Except.ok.inj (hrealloc.symm.trans hdetails))
    have hframe := realloc_frame h hbounded hp hstays hrealloc
    refine ⟨fun _ b hb hb' i hi => ?_, by rintro num size p ⟨⟩, ?_, by rintro p i v ⟨⟩⟩
    · rcases hframe with ⟨-, hmem⟩ | ⟨rfl, hothers, -⟩
      · exact congrFun hmem _
      · apply hothers b hb ?_ i hi
        have hne : s.chunk + s.current + 8 ≠ NULL := by simp [NULL]
        dsimp only at hok
        rw [if_pos hne] at hok
        have hlive := congrArg Session.live (Except.ok.inj hok)
        rw [← hlive, mem_granted hne] at hb'
        rcases hb' with rfl | hb'
        · have hin := (h.cellsApart.1 _ hb).2
          dsimp only at hin
          omega
        · exact (mem_released.mp hb').2
    · rintro p size q' ⟨⟩ hcall' hq b hb hptr i hi
      obtain ⟨rfl, -⟩ := Prod.mk.inj (Except.ok.inj (hrealloc.symm.trans hcall'))
      rcases hframe with ⟨hnull, -⟩ | ⟨-, -, hcontents⟩
      · exact absurd hnull hq
      · exact hcontents b hb hptr i hi

theorem step_served (w : State) (r : Request) (h : Inv w ∧ Bounded w.details) (hr : Guarded w r) :
    ∃ w', step w r = .ok w' ∧ (Inv w' ∧ Bounded w'.details) ∧ Served interface (·.mem) w r w' := by
  obtain ⟨hinv, hbounded⟩ := h
  obtain ⟨hcall, hcareful, hstays⟩ := hr
  obtain ⟨w', hrun, hinv'⟩ := step_careful w r hinv hcall hcareful
  refine ⟨w', hrun, ⟨hinv', bounded_step hbounded hrun⟩, ?_⟩
  obtain ⟨s, live⟩ := w
  cases r with
  | alloc size =>
    obtain ⟨⟨p, t⟩, halloc, hok⟩ := ok_of_bind hrun
    obtain rfl := Except.ok.inj hok
    refine ⟨fun _ b hb _ i hi => ?_, by rintro num size p ⟨⟩, by rintro p size q ⟨⟩, by rintro p i v ⟨⟩⟩
    rcases alloc_frame hbounded halloc with ⟨-, rfl⟩ | ⟨-, hframe⟩
    · rfl
    · exact hframe _ (hinv.live_below hb hi)
  | calloc num size =>
    obtain ⟨⟨p, t⟩, hcalloc, hok⟩ := ok_of_bind hrun
    obtain rfl := Except.ok.inj hok
    obtain ⟨hframe, hcleared⟩ := calloc_frame hbounded hcalloc
    refine ⟨fun _ b hb _ i hi => hframe _ (hinv.live_below hb hi), ?_, by rintro p size q ⟨⟩, by rintro p i v ⟨⟩⟩
    rintro num size q ⟨⟩ hcall' hq i hi
    exact (calloc_frame hbounded hcall').2 hq i hi
  | realloc p size => exact realloc_served hinv hbounded hcall hstays hrun
  | free p =>
    obtain ⟨t, hfree, hok⟩ := ok_of_bind hrun
    obtain rfl := Except.ok.inj hok
    refine ⟨fun _ b hb hb' i hi => ?_, by rintro num size p ⟨⟩, by rintro p size q ⟨⟩, by rintro p i v ⟨⟩⟩
    exact free_kept hinv hcall hfree hb (mem_released.mp hb').2 hi
  | dealloc p size =>
    obtain ⟨t, hfree, hok⟩ := ok_of_bind hrun
    obtain rfl := Except.ok.inj hok
    refine ⟨fun _ b hb hb' i hi => ?_, by rintro num size p ⟨⟩, by rintro p size q ⟨⟩, by rintro p i v ⟨⟩⟩
    exact free_kept hinv hcall hfree hb (mem_released.mp hb').2 hi
  | reset =>
    obtain rfl := Except.ok.inj hrun
    exact ⟨fun _ b _ hb' => absurd hb' List.not_mem_nil, by rintro num size p ⟨⟩, by rintro p size q ⟨⟩,
      by rintro p i v ⟨⟩⟩
  | write p i v =>
    obtain rfl := Except.ok.inj hrun
    refine ⟨fun hread => absurd rfl (hread p i v), by rintro num size p ⟨⟩, by rintro p size q ⟨⟩, ?_⟩
    rintro p i v ⟨⟩
    rfl

/-- A block is written to and given more bytes of its cell. -/
def writtenCellRun : List Request := [.alloc 20, .write 4104 3 7, .realloc 4104 24, .calloc 3 5]

end Linear
end LibXpf.Allocators
