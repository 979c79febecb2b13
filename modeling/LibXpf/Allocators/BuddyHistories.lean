import LibXpf.Allocators.BuddyTiling

/-! # Live memory and histories of a `BuddyAllocator`

No request touches a byte of a block that stays live, and what is left of a
history is the set of live blocks.
-/
namespace LibXpf.Allocators
open ByteMemory BuddySystem BuddyMap GuardedRuns

namespace Buddy
open BuddyAllocatorDetails
variable {space : AddressSpace} {n size p : ℕ} {m : BuddyMap n} {w w' : State space}

section Memory

/-- What a request from `w` to `w'` does to memory that callers hold. -/
structure LiveMemoryKept (w : State space) (r : Request) (w' : State space) : Prop where
  frame : ∀ t b, LiveAt w t b → LiveAt w' t b →
    ∀ x, InBlock w.details.tierNum w.details.chunk t b x → ¬ writes r x →
      w'.details.mem x = w.details.mem x
  contents : ∀ p size q s', r = .realloc p size → w.details.realloc p size = .ok (q, s') → q ≠ NULL →
    ∀ l ∈ w.live, l.ptr = p → ∀ i < min l.size size,
      w'.details.mem (q + i) = w.details.mem (p + i)
  failed : ∀ p size s', r = .realloc p size → size ≠ 0 → w.details.realloc p size = .ok (NULL, s') →
    w'.details.used = w.details.used ∧ w'.live = w.live ∧
    (∀ t b, LiveAt w' t b ↔ LiveAt w t b) ∧
    ∀ t b, LiveAt w t b → ∀ x, InBlock w.details.tierNum w.details.chunk t b x →
      w'.details.mem x = w.details.mem x

theorem step_realloc {q : ℕ} {s' : BuddyAllocatorDetails space}
    (hrun : w.details.realloc p size = .ok (q, s')) (hstep : step w (.realloc p size) = .ok w') :
    w'.details = s' ∧ (q = NULL → size ≠ 0 → w'.live = w.live) := by
  simp only [step, Session.step, interface, hrun, ok_bind, pure_eq_ok] at hstep
  by_cases hq : q = NULL
  · by_cases hz : size = 0
    · simp only [hq, hz, ne_eq, not_true_eq_false, if_false, and_self, if_true] at hstep
      obtain rfl := Except.ok.inj hstep
      exact ⟨rfl, fun _ h => absurd hz h⟩
    · simp only [hq, hz, ne_eq, not_true_eq_false, if_false, false_and] at hstep
      cases hstep
      exact ⟨rfl, fun _ _ => rfl⟩
  · simp only [ne_eq, hq, not_false_eq_true, if_true] at hstep
    cases hstep
    exact ⟨rfl, fun h => absurd h hq⟩

/-- A `realloc` that returns null for a nonzero size changes nothing. -/
theorem realloc_failed (h : Holds m w) (hp : p = NULL ∨ IsLive w.live p) (hsize : size ≠ 0)
    {s' : BuddyAllocatorDetails space} (hrun : w.details.realloc p size = .ok (NULL, s')) :
    s' = w.details := by
  by_cases hnull : p = NULL
  · have halloc : w.details.alloc size = .ok (NULL, s') := by
      rw [← hrun, realloc, if_pos hnull]
    rcases h.accounted.alloc_spec size with ⟨hfail, -⟩ | ⟨b, s₁, m₁, hok, -⟩
    · exact (Prod.mk.inj (Except.ok.inj (halloc.symm.trans hfail))).2
    · have heq := congrArg (Except.map Prod.fst) (hok.symm.trans halloc)
      simp only [Except.map, Except.ok.injEq] at heq
      exact absurd heq (h.accounted.geometry.addrOf_ne_null _ b)
  · obtain ⟨t, b, hlive, rfl⟩ := h.blocks.block (hp.resolve_left hnull)
    obtain ⟨q, s₁, hok, hresult⟩ := h.accounted.realloc_spec hlive hsize
    obtain ⟨rfl, rfl⟩ := Prod.mk.inj (Except.ok.inj (hrun.symm.trans hok))
    generalize hq : NULL = q at hresult
    cases hresult with
    | failed => rfl
    | kept => rfl
    | moved c s₂ m₁ m' => exact absurd hq.symm (h.accounted.geometry.addrOf_ne_null _ c)

/-- A `realloc` that returns a block has moved or kept the contents. -/
theorem realloc_contents (h : Holds m w) {q : ℕ} {s' : BuddyAllocatorDetails space}
    (hrun : w.details.realloc p size = .ok (q, s')) (hq : q ≠ NULL) {l : LiveBlock}
    (hl : l ∈ w.live) (hp : l.ptr = p) {i : ℕ} (hi : i < min l.size size) :
    s'.mem (q + i) = w.details.mem (p + i) := by
  obtain ⟨t, b, hlive, hptr⟩ := h.blocks.block ⟨l, hl, rfl⟩
  obtain ⟨ht, -⟩ := m.inside (t := t) (b := b) (by simp [hlive])
  have htier := h.blocks.tier hl hlive hptr
  have hlen : l.size ≤ blockBytes n t := by
    have := size_le_of_tierFor h.accounted.geometry.le (htier.symm ▸ ht : tierFor n l.size < n)
    rwa [htier] at this
  subst hp
  rw [hptr] at hrun ⊢
  obtain ⟨q', s₁, hok, hresult⟩ := h.accounted.realloc_spec hlive (show size ≠ 0 by omega)
  obtain ⟨rfl, rfl⟩ := Prod.mk.inj (Except.ok.inj (hrun.symm.trans hok))
  cases hresult with
  | failed => exact absurd rfl hq
  | kept => rfl
  | moved c s₂ m₁ m' _ _ _ _ _ _ hcontents => exact hcontents i (by omega)

theorem liveMemoryKept (h : Holds m w) (r : Request) (hadm : Admits w r) :
    Returns (step w r) (LiveMemoryKept w r) := by
  obtain ⟨w', m', hstep, hm', -, hkeeps⟩ := step_effect w r h hadm
  refine ⟨w', hstep, ?_, ?_, ?_⟩
  · intro t b hb hb' x hx hnot
    rw [h.accounted.geometry.tierNum_eq] at hx
    exact hkeeps t b x (h.liveAt_iff.mp hb) (hm'.liveAt_iff.mp hb') hx hnot
  · rintro p size q s' rfl hrun hq l hl hp i hi
    rw [(step_realloc hrun hstep).1]
    exact realloc_contents h hrun hq hl hp hi
  · rintro p size s' rfl hsize hrun
    obtain ⟨hdetails, hlive⟩ := step_realloc hrun hstep
    rw [realloc_failed h hadm.1 hsize hrun] at hdetails
    have hw : w' = w := by
      obtain ⟨s, live⟩ := w
      obtain ⟨s', live'⟩ := w'
      exact congrArg₂ Session.mk hdetails (hlive rfl hsize)
    rw [hw]
    exact ⟨rfl, rfl, fun _ _ => Iff.rfl, fun _ _ _ _ _ => rfl⟩

/-- Every request of every admitted run leaves the memory of live blocks alone;
`realloc` carries the contents over or fails without any change. -/
theorem liveMemoryKept_along (size : ℕ) (chunk : MallocBlock space (sizing size).1) (mem : Memory) :
    Returns (fresh size chunk mem) (fun w => ∀ requests : List Request, Along step Admits w requests →
      Along step (fun w r => Returns (step w r) (LiveMemoryKept w r)) w requests) := by
  obtain ⟨w, hw, hm⟩ := fresh_holds size chunk mem
  refine ⟨w, hw, ?_⟩
  intro requests hadm
  refine along_of_invariant step_holds ?_ hm hadm
  rintro w r ⟨m, hm⟩ hr
  exact liveMemoryKept hm r hr

theorem liveMemoryKept_along_splitAndMergeRun :
    Returns (fresh 100 chunk128 (fun _ => 0)) (fun w =>
      Along step (fun w r => Returns (step w r) (LiveMemoryKept w r)) w
        [.alloc 16, .calloc 3 5, .write 4112 2 7, .alloc 30, .realloc 4112 20, .realloc 4128 100]) := by
  obtain ⟨w, hw, hruns⟩ := liveMemoryKept_along 100 chunk128 (fun _ => 0)
  obtain ⟨w', hw', hadm⟩ : Returns (fresh 100 chunk128 (fun _ => 0)) (fun w => Along step Admits w
      [.alloc 16, .calloc 3 5, .write 4112 2 7, .alloc 30, .realloc 4112 20, .realloc 4128 100]) := by
    decide +kernel
  obtain rfl : w = w' := Except.ok.inj (hw.symm.trans hw')
  exact ⟨w, hw, hruns _ hadm⟩

end Memory

section Histories

/-- A state that an admitted run reaches. -/
def Reached (size : ℕ) (chunk : MallocBlock space (sizing size).1) (mem : Memory)
    (requests : List Request) (w : State space) : Prop :=
  Returns (fresh size chunk mem) (fun w₀ =>
    Along step Admits w₀ requests ∧ final step w₀ requests = .ok w)

/-- No two buddies are both free. -/
def Coalesced (w : State space) : Prop :=
  ∀ t b, ¬ (FreeAt w (t + 1) b ∧ FreeAt w (t + 1) (buddyIdOf b))

def Allocates (s : BuddyAllocatorDetails space) (size : ℕ) : Prop :=
  ∃ p s', s.alloc size = .ok (p, s') ∧ p ≠ NULL

/-- Two states look the same to callers and hold the same free blocks and bits. -/
structure SameBlocks (w₁ w₂ : State space) : Prop where
  inUse : ∀ t < w₁.details.tierNum, ∀ b < 2 ^ t,
    w₁.details.isBlockInUse t b = w₂.details.isBlockInUse t b
  free : ∀ t b, FreeAt w₁ t b ↔ FreeAt w₂ t b
  used : w₁.details.used = w₂.details.used
  available : w₁.details.available = w₂.details.available
  allocates : ∀ size, Allocates w₁.details size ↔ Allocates w₂.details size

theorem Reached.holds {chunk : MallocBlock space (sizing size).1} {mem : Memory}
    {requests : List Request} (h : Reached size chunk mem requests w) :
    ∃ m : BuddyMap (sizing size).2, Holds m w := by
  obtain ⟨w₀, hw₀, hadm, hfinal⟩ := h
  obtain ⟨w₁, hw₁, hm⟩ := fresh_holds size chunk mem
  obtain rfl : w₀ = w₁ := Except.ok.inj (hw₀.symm.trans hw₁)
  obtain ⟨w₂, hfinal', hm'⟩ := (throughout_of_invariant step_holds hm hadm).final
  obtain rfl : w = w₂ := Except.ok.inj (hfinal.symm.trans hfinal')
  exact hm'

theorem Holds.coalesced (h : Holds m w) : Coalesced w := by
  rintro t b ⟨hb, hbuddy⟩
  rw [h.freeAt_iff] at hb hbuddy
  rw [buddyIdOf, xor_one] at hbuddy
  exact m.canonical hb hbuddy

theorem Holds.available_all (h : Holds m w) (hnone : ∀ t b, ¬ LiveAt w t b) :
    w.details.available = .ok w.details.capacity := by
  apply h.accounted.available_root
  apply m.root_free
  intro t b hlive
  exact hnone t b (h.liveAt_iff.mpr hlive)

theorem Holds.allocates_iff (h : Holds m w) : Allocates w.details size ↔
    tierFor n size ≠ invalidValue ∧ ∃ u ≤ tierFor n size, ∃ c, m.node u c = .free := by
  have hnull := h.accounted.geometry.addrOf_ne_null (tierFor n size)
  rcases h.accounted.alloc_spec size with ⟨hrun, hnone⟩ | ⟨b, s', m', hrun, htier, -, hob, -⟩
  · constructor
    · rintro ⟨p, s', hrun', hp⟩
      obtain ⟨rfl, -⟩ := Prod.mk.inj (Except.ok.inj (hrun.symm.trans hrun'))
      exact absurd rfl hp
    · rintro ⟨hvalid, u, hu, c, hc⟩
      rcases hnone with hinv | hnone
      · exact absurd hinv hvalid
      · exact absurd hc (hnone u hu c)
  · refine iff_of_true ⟨_, s', hrun, hnull b⟩ ⟨?_, hob.source⟩
    intro hinv
    have hle := h.accounted.geometry.le
    rw [hinv, invalidValue] at htier
    omega

/-- The live blocks determine everything else. -/
theorem Holds.sameBlocks {w₁ w₂ : State space} {m₁ m₂ : BuddyMap n} (h₁ : Holds m₁ w₁)
    (h₂ : Holds m₂ w₂) (hlive : ∀ t b, LiveAt w₁ t b ↔ LiveAt w₂ t b) : SameBlocks w₁ w₂ := by
  have hnode : ∀ t b, m₁.node t b = m₂.node t b := by
    apply node_eq_of_live
    intro t b
    rw [← h₁.liveAt_iff, ← h₂.liveAt_iff, hlive]
  refine ⟨?_, ?_, ?_, ?_, ?_⟩
  · intro t ht b hb
    rw [h₁.accounted.geometry.tierNum_eq] at ht
    rw [h₁.accounted.geometry.isBlockInUse_ok ht hb, h₂.accounted.geometry.isBlockInUse_ok ht hb]
    congr 1
    rw [Bool.eq_iff_iff, h₁.accounted.flags t b ht hb, h₂.accounted.flags t b ht hb, InUse, InUse, hnode]
  · intro t b
    rw [h₁.freeAt_iff, h₂.freeAt_iff, hnode]
  · have hblocks : m₁.liveBlocks = m₂.liveBlocks := by
      ext ⟨t, b⟩
      rw [mem_liveBlocks, mem_liveBlocks, hnode]
    rw [used, used, h₁.accounted.used, h₂.accounted.used, liveBytes, liveBytes, hblocks]
  · apply h₁.accounted.available_congr h₂.accounted.toRepresents
    intro t b
    rw [hnode]
  · intro size
    rw [h₁.allocates_iff, h₂.allocates_iff]
    simp only [hnode]

/-- In every reachable state buddies are coalesced and an empty allocator offers
its whole capacity; two runs that end with the same live blocks end alike. -/
theorem history_independent (size : ℕ) (chunk₁ chunk₂ : MallocBlock space (sizing size).1)
    (mem₁ mem₂ : Memory) (requests₁ requests₂ : List Request) (w₁ w₂ : State space)
    (h₁ : Reached size chunk₁ mem₁ requests₁ w₁) (h₂ : Reached size chunk₂ mem₂ requests₂ w₂) :
    Coalesced w₁ ∧
    ((∀ t b, ¬ LiveAt w₁ t b) → w₁.details.available = .ok w₁.details.capacity) ∧
    ((∀ t b, LiveAt w₁ t b ↔ LiveAt w₂ t b) → SameBlocks w₁ w₂) := by
  obtain ⟨m₁, hm₁⟩ := h₁.holds
  obtain ⟨m₂, hm₂⟩ := h₂.holds
  exact ⟨hm₁.coalesced, hm₁.available_all, hm₁.sameBlocks hm₂⟩

/-- The state a run reaches, when a decision procedure can follow it. -/
theorem reached_of_decision (size : ℕ) (chunk : MallocBlock space (sizing size).1) (mem : Memory)
    (requests : List Request) {P : State space → Prop}
    (h : Returns (fresh size chunk mem) (fun w₀ =>
      Along step Admits w₀ requests ∧ Returns (final step w₀ requests) P)) :
    ∃ w, Reached size chunk mem requests w ∧ P w := by
  obtain ⟨w₀, hw₀, hadm, w, hfinal, hP⟩ := h
  exact ⟨w, ⟨w₀, hw₀, hadm, hfinal⟩, hP⟩

/-- The second block of 16 bytes is all that stays, after two different histories. -/
theorem history_independent_two_orders :
    ∃ w₁ w₂ : State model64,
      Reached 100 chunk128 (fun _ => 0) [.alloc 16, .alloc 16, .free 4096] w₁ ∧
      Reached 100 chunk128 (fun _ => 0)
        [.alloc 16, .alloc 16, .alloc 30, .free 4096, .dealloc 4128 30] w₂ ∧
      SameBlocks w₁ w₂ := by
  let P : State model64 → Prop := fun w =>
    w.live = [⟨4112, 16⟩] ∧ w.details.chunk = 4096 ∧ w.details.tierNum = 4
  obtain ⟨w₁, h₁, hlive₁, hchunk₁, htier₁⟩ :=
    reached_of_decision (P := P) 100 chunk128 (fun _ => 0) [.alloc 16, .alloc 16, .free 4096]
      (by decide +kernel)
  obtain ⟨w₂, h₂, hlive₂, hchunk₂, htier₂⟩ :=
    reached_of_decision (P := P) 100 chunk128 (fun _ => 0)
      [.alloc 16, .alloc 16, .alloc 30, .free 4096, .dealloc 4128 30] (by decide +kernel)
  refine ⟨w₁, w₂, h₁, h₂, (history_independent 100 chunk128 chunk128 _ _ _ _ w₁ w₂ h₁ h₂).2.2 ?_⟩
  intro t b
  simp only [LiveAt, tierOf, hlive₁, hlive₂, hchunk₁, hchunk₂, htier₁, htier₂]

end Histories
end Buddy
end LibXpf.Allocators
