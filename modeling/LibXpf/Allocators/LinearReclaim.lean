import LibXpf.Allocators.LinearRuns
import Mathlib.Order.Bounds.Basic

/-! # What `free` reclaims from a `LinearAllocator`

`used` should end at the highest live cell. `free` sees to it as long as
`Previous` names that cell and the links below it miss no freed cell. A rollback
that stops at a live cell above the bottom leaves `Previous` at the cell below,
and from then on neither need be so.
-/
namespace LibXpf.Allocators
open ByteMemory Relation GuardedRuns

namespace Linear
open LinearAllocatorDetails

/-- The offset where the cell of a live block ends: its header and its size
rounded up to a multiple of eight. -/
def cellEnd (chunk : ℕ) (b : LiveBlock) : ℕ := b.ptr - chunk + (b.size + 7) / 8 * 8

/-- `e` is where the live cell with the highest address ends, or zero when
nothing is live. -/
def TopEnd (chunk : ℕ) (live : List LiveBlock) (e : ℕ) : Prop :=
  live = [] ∧ e = 0 ∨ ∃ b ∈ live, (∀ c ∈ live, c.ptr ≤ b.ptr) ∧ e = cellEnd chunk b

instance (chunk : ℕ) (live : List LiveBlock) (e : ℕ) : Decidable (TopEnd chunk live e) :=
  inferInstanceAs (Decidable (_ ∨ _))

/-- Nothing dead is left on top. -/
def Reclaimed (w : State) : Prop := TopEnd w.details.chunk w.live w.details.used

instance (w : State) : Decidable (Reclaimed w) := inferInstanceAs (Decidable (TopEnd _ _ _))

/-- A release below the highest live cell finds `Previous` at another cell. A
release of the highest live cell finds `Previous` there, and the links lead from
it through freed cells down to the end of the highest cell that stays live, and
no further. -/
def LinksReachTheTop (w : State) (p : ℕ) : Prop :=
  (∃ b ∈ w.live, p < b.ptr) ∧ w.details.previous ≠ p - 8 - w.details.chunk ∨
    (∀ b ∈ w.live, b.ptr ≤ p) ∧ w.details.previous = p - 8 - w.details.chunk ∧
      ∃ e, TopEnd w.details.chunk (released p w.live) e ∧
        IsLeast {q | w.details.DeadChain (p - 8 - w.details.chunk) q} e

/-- The condition on each request of a run. -/
def ReleasesFromTheTop (w : State) : Request → Prop
  | .free p => LinksReachTheTop w p
  | .dealloc p _ => LinksReachTheTop w p
  | _ => True

variable {s t : LinearAllocatorDetails} {live : List LiveBlock} {chunk p size e : ℕ} {a b : LiveBlock}

theorem cellEnd_eq (hptr : b.ptr = chunk + e + 8) (hsize : b.size ≤ 2 ^ 31) :
    cellEnd chunk b = e + cellSize b.size := by
  rw [cellEnd, cellSize_eq hsize, hptr]
  omega

section Cells

theorem cellEnd_of_cell {cells : List Cell} {c : Cell} (hstack : CellStack s cells)
    (hmatch : Matches s.chunk live cells) (hc : c ∈ cells) (hb : b ∈ live)
    (hptr : b.ptr = s.chunk + c.off + 8) : cellEnd s.chunk b = c.off + c.len := by
  obtain ⟨d, hd, -, hdp, hds, hdl⟩ := hmatch.cell_of_live b hb
  obtain rfl := hstack.stacked.eq_of_off hc hd (by omega)
  rw [cellEnd_eq hdp hds, hdl]

/-- Of two live cells the lower one ends where the higher one starts, or before. -/
theorem Inv.cellEnd_le (h : Inv ⟨s, live⟩) (ha : a ∈ live) (hb : b ∈ live) (hlt : a.ptr < b.ptr) :
    cellEnd s.chunk a + s.chunk + 8 ≤ b.ptr := by
  obtain ⟨cells, hstack, hmatch⟩ := h
  dsimp only at hstack hmatch
  obtain ⟨c, hc, -, hcp, -⟩ := hmatch.cell_of_live a ha
  obtain ⟨d, hd, -, hdp, -⟩ := hmatch.cell_of_live b hb
  have hend := cellEnd_of_cell hstack hmatch hc ha hcp
  rcases hstack.stacked.eq_or_apart hc hd with rfl | hbelow | habove
  · omega
  · omega
  · have := (hstack.mem_le hd).2
    omega

theorem Inv.ptr_ge (h : Inv ⟨s, live⟩) (hb : b ∈ live) : s.chunk + 8 ≤ b.ptr := (h.cellsApart.1 b hb).1

theorem Inv.ptr_le (h : Inv ⟨s, live⟩) (hb : b ∈ live) : b.ptr ≤ s.chunk + s.current := by
  have := (h.cellsApart.1 b hb).2
  dsimp only at this
  omega

theorem topEnd_granted (h : Inv ⟨s, live⟩) (hsize : size ≤ 2 ^ 31) {rest : List LiveBlock}
    (hrest : ∀ c ∈ rest, c ∈ live) :
    TopEnd s.chunk (granted (s.chunk + s.current + 8) size rest) (s.current + cellSize size) := by
  have hnull : s.chunk + s.current + 8 ≠ NULL := by simp [NULL]
  refine Or.inr ⟨⟨s.chunk + s.current + 8, size⟩, (mem_granted hnull).mpr (Or.inl rfl), ?_, ?_⟩
  · intro c hc
    rcases (mem_granted hnull).mp hc with rfl | hc
    · exact le_rfl
    · have := h.ptr_le (hrest c hc)
      dsimp only
      omega
  · exact (cellEnd_eq (b := ⟨s.chunk + s.current + 8, size⟩) rfl hsize).symm

end Cells

section Releases

theorem TopEnd.released (h : TopEnd chunk live e) (hb : b ∈ live) (hlt : p < b.ptr) :
    TopEnd chunk (released p live) e := by
  rcases h with ⟨hnil, -⟩ | ⟨c, hc, hhigh, rfl⟩
  · simp [hnil] at hb
  · have hbc := hhigh b hb
    exact Or.inr ⟨c, mem_released.mpr ⟨hc, by omega⟩, fun d hd => hhigh d (mem_released.mp hd).1, rfl⟩

/-- A release within the condition succeeds and leaves nothing dead on top. -/
theorem free_reclaims (h : Inv ⟨s, live⟩) (htop : Reclaimed ⟨s, live⟩) (hp : IsLive live p)
    (hlinks : LinksReachTheTop ⟨s, live⟩ p) :
    ∃ t, s.free p = .ok t ∧ Inv ⟨t, released p live⟩ ∧ Reclaimed ⟨t, released p live⟩ := by
  obtain ⟨cells, hstack, hmatch⟩ := id h
  dsimp only at hstack hmatch
  rcases hlinks with ⟨⟨b, hb, hlt⟩, hprev⟩ | ⟨hhigh, hprev, e, he, hleast⟩
  · -- a cell below the top is only marked
    obtain ⟨t, hrun, hinv⟩ := free_below hstack hmatch hp hprev
    obtain ⟨c, hc, hf, rfl⟩ := hmatch.cell hp
    dsimp only at hprev
    rcases hstack.free_spec hc hf with ⟨-, hrun'⟩ | ⟨hprev', -⟩
    · obtain rfl := Except.ok.inj (hrun.symm.trans hrun')
      exact ⟨_, hrun, hinv, TopEnd.released htop hb hlt⟩
    · omega
  · have hsafe : ChainSkipsNoLiveCell ⟨s, live⟩ p := by
      intro _ q hq b hb hne
      have hmem : b ∈ released p live := mem_released.mpr ⟨hb, hne⟩
      have heq := hleast.2 hq
      have hge := h.ptr_ge hb
      rcases he with ⟨hnil, -⟩ | ⟨c, hc, hch, rfl⟩
      · simp [hnil] at hmem
      · have := hch b hmem
        dsimp only [cellEnd] at *
        omega
    obtain ⟨t, hrun, hinv⟩ := free_good hstack hmatch hp hsafe
    obtain ⟨c, hc, hf, rfl⟩ := hmatch.cell hp
    have hoff : s.chunk + c.off + 8 - 8 - s.chunk = c.off := by omega
    dsimp only at hprev hleast
    rw [hoff] at hprev hleast
    rcases hstack.free_spec hc hf with ⟨hprev', -⟩ | ⟨-, q, prev, hrun', hback⟩
    · exact absurd hprev hprev'
    · obtain rfl := Except.ok.inj (hrun.symm.trans hrun')
      refine ⟨_, hrun, hinv, ?_⟩
      have hq : q = e := by
        apply le_antisymm
        · exact hback.lowest e ((hstack.deadChain_marked hc hf).mpr hleast.1)
        · exact hleast.2 ((hstack.deadChain_marked hc hf).mp hback.chain)
      rw [← hq] at he
      exact he

/-- A release outside the condition leaves a dead cell on top, or a live one
above `Current`. -/
theorem free_leaves (h : Inv ⟨s, live⟩) (htop : Reclaimed ⟨s, live⟩) (hp : IsLive live p)
    (hlinks : ¬ LinksReachTheTop ⟨s, live⟩ p) (hrun : s.free p = .ok t) :
    ¬ Reclaimed ⟨t, released p live⟩ := by
  obtain ⟨cells, hstack, hmatch⟩ := id h
  dsimp only at hstack hmatch
  obtain ⟨b, hb, hbp⟩ := id hp
  obtain ⟨c, hc, hf, rfl⟩ := hmatch.cell hp
  have hoff : s.chunk + c.off + 8 - 8 - s.chunk = c.off := by omega
  simp only [LinksReachTheTop, hoff, not_or, not_and] at hlinks
  obtain ⟨hbelow, habove⟩ := hlinks
  intro hafter
  by_cases hhigh : ∀ d ∈ live, d.ptr ≤ s.chunk + c.off + 8
  · rcases hstack.free_spec hc hf with ⟨hprev, hrun'⟩ | ⟨hprev, q, prev, hrun', hback⟩
    · -- `Current` stays at the end of the cell that is now dead
      obtain rfl := Except.ok.inj (hrun.symm.trans hrun')
      have hcur : s.current = c.off + c.len := by
        rcases htop with ⟨hnil, -⟩ | ⟨d, hd, hdh, hcur⟩
        · dsimp only at hnil
          simp [hnil] at hb
        · have hdb := hdh b hb
          have hbd := hhigh d hd
          rw [← cellEnd_of_cell hstack hmatch hc hd (by omega)]
          exact hcur
      have hlen := (hstack.mem_le hc).2
      rcases hafter with ⟨-, hzero⟩ | ⟨d, hd, -, hend⟩
      · have hzero' : s.current = 0 := hzero
        omega
      · obtain ⟨hd, hne⟩ := mem_released.mp hd
        have hend' : s.current = cellEnd s.chunk d := hend
        have hlow := hhigh d hd
        have := h.cellEnd_le hd hb (by omega)
        omega
    · obtain rfl := Except.ok.inj (hrun.symm.trans hrun')
      apply habove hhigh hprev
      refine ⟨q, hafter, (hstack.deadChain_marked hc hf).mp hback.chain, ?_⟩
      intro x hx
      exact hback.lowest x ((hstack.deadChain_marked hc hf).mpr hx)
  · -- a rollback from below the highest live cell passes under it
    obtain ⟨d, hd, hlt⟩ : ∃ d ∈ live, s.chunk + c.off + 8 < d.ptr := by
      simpa only [not_forall, not_le, exists_prop] using hhigh
    have hprev : s.previous = c.off := by
      by_contra hne
      exact hbelow ⟨d, hd, hlt⟩ hne
    rcases hstack.free_spec hc hf with ⟨hprev', -⟩ | ⟨-, q, prev, hrun', hback⟩
    · exact hprev' hprev
    · obtain rfl := Except.ok.inj (hrun.symm.trans hrun')
      have hq : q ≤ c.off := hback.lowest c.off ReflTransGen.refl
      have hmem : d ∈ released (s.chunk + c.off + 8) live := mem_released.mpr ⟨hd, by omega⟩
      rcases hafter with ⟨hnil, -⟩ | ⟨f, hf, hfh, hend⟩
      · have hnil' : released (s.chunk + c.off + 8) live = [] := hnil
        simp [hnil'] at hmem
      · have hdf := hfh d hmem
        have hend' : q = f.ptr - s.chunk + (f.size + 7) / 8 * 8 := hend
        omega

end Releases

section Runs

theorem alloc_reclaims (h : Inv ⟨s, live⟩) (htop : Reclaimed ⟨s, live⟩) (hsize : size ≤ s.capacity) :
    ∃ p t, s.alloc size = .ok (p, t) ∧ Reclaimed ⟨t, granted p size live⟩ := by
  obtain ⟨cells, hstack, hmatch⟩ := id h
  dsimp only at hstack hmatch
  rcases alloc_inv hstack hmatch hsize with hrun | ⟨t, hrun, hchunk, -, hpush, -⟩
  · exact ⟨NULL, s, hrun, by rwa [granted_null]⟩
  · have hcur : s.current + cellSize size = t.current := hpush.stacked.1
    refine ⟨_, t, hrun, ?_⟩
    rw [Reclaimed, used]
    dsimp only
    rw [hchunk, ← hcur]
    exact topEnd_granted h (hsize.trans hstack.capacity_le) (fun c hc => hc)

/-- A moved block is the new top, and its old cell is only marked. -/
theorem realloc_reclaims (h : Inv ⟨s, live⟩) (htop : Reclaimed ⟨s, live⟩) (hsize : size ≤ s.capacity)
    (hlive : p = NULL ∨ IsLive live p) :
    ∃ w', step ⟨s, live⟩ (.realloc p size) = .ok w' ∧ Reclaimed w' := by
  obtain ⟨cells, hstack, hmatch⟩ := id h
  dsimp only at hstack hmatch
  by_cases hzero : size = 0
  · refine ⟨⟨s, live⟩, ?_, htop⟩
    simp [step, Session.step, interface, realloc_eq, hzero, NULL]
  rcases alloc_inv hstack hmatch hsize with hrun | ⟨t, hrun, hchunk, hprev, hpush, hm⟩
  · refine ⟨⟨s, live⟩, ?_, htop⟩
    simp [step, Session.step, interface, realloc_eq, hzero, hrun, NULL]
  have hnull : s.chunk + s.current + 8 ≠ NULL := by simp [NULL]
  have hcur : s.current + cellSize size = t.current := hpush.stacked.1
  have hnew : ∀ rest : List LiveBlock, (∀ c ∈ rest, c ∈ live) → ∀ u : LinearAllocatorDetails,
      u.chunk = t.chunk → u.current = t.current →
        Reclaimed ⟨u, granted (s.chunk + s.current + 8) size rest⟩ := by
    intro rest hrest u huc hucur
    rw [Reclaimed, used]
    dsimp only
    rw [huc, hucur, hchunk, ← hcur]
    exact topEnd_granted h (hsize.trans hstack.capacity_le) hrest
  by_cases hp : p = NULL
  · refine ⟨⟨t, granted (s.chunk + s.current + 8) size live⟩, ?_, hnew live (fun c hc => hc) t rfl rfl⟩
    subst hp
    simp [step, Session.step, interface, realloc_eq, hzero, hrun, hnull, released_null hmatch]
  · obtain ⟨c, hc, hf, hpc⟩ := hmatch.cell (hlive.resolve_left hp)
    have hlow := hstack.mem_le hc
    have hge := cellSize_ge (hsize.trans hstack.capacity_le)
    have hcopy := hpush.of_payload (copy t.mem (s.chunk + s.current + 8) p size)
      List.mem_cons_self (fun x hx => copy_outside (by rw [hchunk] at hx; dsimp only at hx; omega))
    have hptr : p = t.chunk + c.off + 8 := hchunk ▸ hpc
    rcases hcopy.free_spec (List.mem_cons_of_mem _ hc) hf with ⟨-, hfree⟩ | ⟨hprev', -⟩
    · dsimp only at hfree
      rw [← hptr] at hfree
      let u := CellStack.marked
        { t with mem := copy t.mem (s.chunk + s.current + 8) p size } c.off
      refine ⟨⟨u, granted (s.chunk + s.current + 8) size (released p live)⟩, ?_,
        hnew (released p live) (fun d hd => (mem_released.mp hd).1) u rfl rfl⟩
      simp only [step, Session.step, interface, realloc_eq, hzero, if_false, hrun, ok_bind, hp, hnull,
        ne_eq, not_false_eq_true, and_self, if_true, hfree, pure_eq_ok]
      rfl
    · dsimp only at hprev'
      omega

/-- Every admitted request within the condition succeeds and leaves nothing dead
on top. -/
theorem step_reclaims (w : State) (r : Request) (hinv : Inv w ∧ Reclaimed w) (hadm : Admits w r)
    (hlinks : ReleasesFromTheTop w r) : ∃ w', step w r = .ok w' ∧ Inv w' ∧ Reclaimed w' := by
  obtain ⟨s, live⟩ := w
  obtain ⟨h, htop⟩ := hinv
  -- requests that release nothing from the top keep the invariant by the earlier step lemma
  have hother : RollbackSafe ⟨s, live⟩ r →
      (∃ w', step ⟨s, live⟩ r = .ok w' ∧ Reclaimed w') →
        ∃ w', step ⟨s, live⟩ r = .ok w' ∧ Inv w' ∧ Reclaimed w' := by
    rintro hsafe ⟨w', hrun, htop'⟩
    obtain ⟨w'', hrun', hinv'⟩ := step_good ⟨s, live⟩ r h hadm hsafe
    obtain rfl := Except.ok.inj (hrun.symm.trans hrun')
    exact ⟨w', hrun, hinv', htop'⟩
  obtain ⟨hlive, hsize⟩ := hadm
  cases r with
  | alloc size =>
    apply hother trivial
    obtain ⟨p, t, hrun, htop'⟩ := alloc_reclaims h htop hsize
    exact ⟨_, by simp [step, Session.step, interface, hrun], htop'⟩
  | calloc num size =>
    apply hother trivial
    obtain ⟨cells, hstack, -⟩ := id h
    have hcap : s.capacity ≤ 2 ^ 31 := hstack.capacity_le
    have hprod : num * size ≤ s.capacity := hsize
    have hu : u32 (num * size) = num * size := u32_of_lt (by omega)
    obtain ⟨p, t, hrun, htop'⟩ := alloc_reclaims h htop hprod
    by_cases hp : p = NULL
    · refine ⟨⟨t, granted p (num * size) live⟩, ?_, htop'⟩
      simp [step, Session.step, interface, calloc, hu, hrun, hp]
    · refine ⟨⟨{ t with mem := fill t.mem p 0 (num * size) }, granted p (num * size) live⟩, ?_, htop'⟩
      simp [step, Session.step, interface, calloc, hu, hrun, hp]
  | realloc p size => exact hother trivial (realloc_reclaims h htop hsize hlive)
  | free p =>
    obtain ⟨t, hrun, hinv', htop'⟩ := free_reclaims h htop hlive hlinks
    exact ⟨_, by simp [step, Session.step, interface, hrun], hinv', htop'⟩
  | dealloc p size =>
    obtain ⟨t, hrun, hinv', htop'⟩ := free_reclaims h htop hlive hlinks
    exact ⟨_, by simp [step, Session.step, interface, dealloc, hrun], hinv', htop'⟩
  | reset => exact hother trivial ⟨⟨s.reset.2, []⟩, rfl, Or.inl ⟨rfl, rfl⟩⟩
  | write p i v => exact hother trivial ⟨_, rfl, htop⟩

/-- A request outside the condition leaves `used` wrong at once. -/
theorem step_leaves (w : State) (r : Request) (w' : State) (hinv : Inv w ∧ Reclaimed w)
    (hadm : Admits w r) (hlinks : ¬ ReleasesFromTheTop w r) (hrun : step w r = .ok w') :
    ¬ Reclaimed w' := by
  obtain ⟨s, live⟩ := w
  obtain ⟨h, htop⟩ := hinv
  obtain ⟨hlive, -⟩ := hadm
  cases r with
  | free p =>
    obtain ⟨t, hfree, hok⟩ := ok_of_bind hrun
    cases hok
    exact free_leaves h htop hlive hlinks hfree
  | dealloc p size =>
    obtain ⟨t, hfree, hok⟩ := ok_of_bind hrun
    cases hok
    exact free_leaves h htop hlive hlinks hfree
  | _ => exact absurd trivial hlinks

/-- For every capacity and every admitted run from a fresh allocator: no request
fails and `used` is the end of the highest live cell in every state reached, if
and only if every release finds `Previous` and the links as described. -/
theorem reclaimed_iff_releasesFromTheTop (size chunk : ℕ) (mem : Memory) (requests : List Request)
    (h : Along step Admits (fresh size chunk mem) requests) :
    Throughout step Reclaimed (fresh size chunk mem) requests ↔
      Along step ReleasesFromTheTop (fresh size chunk mem) requests :=
  throughout_iff_along (fun _ hinv => hinv.2) step_reclaims step_leaves
    ⟨⟨[], CellStack.fresh size chunk mem, Matches.nil⟩, Or.inl ⟨rfl, rfl⟩⟩ h

/-- Releases that never stop above the bottom cell, until the last one. -/
def fromTheTopRun : List Request :=
  [.alloc 32, .alloc 20, .free 4104, .free 4144, .alloc 8, .alloc 8, .alloc 8, .free 4136]

/-- The third cell is freed, then the second: it stays on top although it is dead. -/
def secondFromTopRun : List Request := [.alloc 32, .alloc 32, .alloc 32, .free 4184, .free 4144]

theorem secondFromTopRun_decided :
    Along step Admits (fresh 1024 4096 (fun _ => 0)) fromTheTopRun ∧
    Along step Admits (fresh 1024 4096 (fun _ => 0)) secondFromTopRun ∧
    (final step (fresh 1024 4096 (fun _ => 0)) secondFromTopRun).toOption.map
        (fun w => (w.live, w.details.used)) = some ([⟨4104, 32⟩], 80) ∧
    ¬ Throughout step Reclaimed (fresh 1024 4096 (fun _ => 0)) secondFromTopRun := by
  decide +kernel

theorem reclaimed_iff_releasesFromTheTop_fromTheTopRun :
    Throughout step Reclaimed (fresh 1024 4096 (fun _ => 0)) fromTheTopRun ↔
      Along step ReleasesFromTheTop (fresh 1024 4096 (fun _ => 0)) fromTheTopRun :=
  reclaimed_iff_releasesFromTheTop 1024 4096 (fun _ => 0) fromTheTopRun secondFromTopRun_decided.1

theorem secondFromTopRun_notReclaimed :
    Along step Admits (fresh 1024 4096 (fun _ => 0)) secondFromTopRun ∧
    (final step (fresh 1024 4096 (fun _ => 0)) secondFromTopRun).toOption.map
        (fun w => (w.live, w.details.used)) = some ([⟨4104, 32⟩], 80) ∧
    ¬ Throughout step Reclaimed (fresh 1024 4096 (fun _ => 0)) secondFromTopRun :=
  secondFromTopRun_decided.2

end Runs
end Linear
end LibXpf.Allocators
