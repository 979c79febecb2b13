import LibXpf.Allocators.BuddyRuns

/-! # The blocks of a `BuddyAllocator` in every reachable state

The blocks are read off the session itself: live ones from the pointers held and
the sizes requested, free ones from the chains, followed through the chunk.
-/
namespace LibXpf.Allocators
open ByteMemory LinkedChain BuddySystem BuddyMap GuardedRuns

namespace Buddy
open BuddyAllocatorDetails
variable {space : AddressSpace}

section Views

/-- A live pointer is the address of block `b` of the tier `t` that serves its size. -/
def LiveAt (w : State space) (t b : ℕ) : Prop :=
  ∃ l ∈ w.live, w.details.tierOf l.size = t ∧ l.ptr = addrOf w.details.tierNum w.details.chunk t b

/-- The records met along the chain of a tier. -/
def freeRecords (s : BuddyAllocatorDetails space) (t : ℕ) : List ℕ :=
  walk space.sizeofPointer s.mem (2 ^ t) (s.freeChainHead t)

/-- The record of block `b` is on the chain of tier `t`. -/
def FreeAt (w : State space) (t b : ℕ) : Prop :=
  t < w.details.tierNum ∧
    recordOf space w.details.tierNum w.details.chunk t b ∈ freeRecords w.details t

def LeafAt (w : State space) (t b : ℕ) : Prop := LiveAt w t b ∨ FreeAt w t b

/-- A live or free block lies strictly below. -/
def SplitAt (w : State space) (t b : ℕ) : Prop := ∃ k c, LeafAt w (t + k + 1) c ∧ c / 2 ^ (k + 1) = b

end Views

/-- The three encodings of the blocks agree, and the blocks tile the chunk. -/
structure RepInvariant (w : State space) : Prop where
  blockSizes : ∀ t < w.details.tierNum,
    w.details.blockSizeOf t = .ok (blockBytes w.details.tierNum t) ∧
    2 ^ t * blockBytes w.details.tierNum t = w.details.capacity
  aligned : ∀ l ∈ w.live, ∃ b, LiveAt w (w.details.tierOf l.size) b ∧
    l.ptr = addrOf w.details.tierNum w.details.chunk (w.details.tierOf l.size) b ∧
    l.size ≤ blockBytes w.details.tierNum (w.details.tierOf l.size)
  inside : ∀ t b, LeafAt w t b → t < w.details.tierNum ∧
    (b + 1) * blockBytes w.details.tierNum t ≤ w.details.capacity
  tiles : ∀ x < w.details.capacity, ∃! p : ℕ × ℕ, LeafAt w p.1 p.2 ∧
    p.2 * blockBytes w.details.tierNum p.1 ≤ x ∧ x < (p.2 + 1) * blockBytes w.details.tierNum p.1
  exclusive : ∀ t b, ¬ (LiveAt w t b ∧ FreeAt w t b)
  distinct : DistinctPointers w.live
  inUse : ∀ t < w.details.tierNum, ∀ b < 2 ^ t,
    Returns (w.details.isBlockInUse t b) (fun v => v = true ↔ LiveAt w t b ∨ SplitAt w t b)
  chains : ∀ t < w.details.tierNum,
    Chain space.sizeofPointer w.details.mem (w.details.freeChainHead t) (freeRecords w.details t) ∧
    (freeRecords w.details t).Nodup ∧
    ∀ r ∈ freeRecords w.details t, ∃ b, FreeAt w t b ∧
      r = recordOf space w.details.tierNum w.details.chunk t b
  used : w.details.usedBytes =
    (w.live.map (fun l => blockBytes w.details.tierNum (w.details.tierOf l.size))).sum

namespace Holds
variable {n t b : ℕ} {m : BuddyMap n} {w : State space}

theorem liveAt_iff (h : Holds m w) : LiveAt w t b ↔ m.node t b = .live := by
  have hg := h.accounted.geometry
  simp only [LiveAt, hg.tierOf_eq, hg.tierNum_eq]
  constructor
  · rintro ⟨l, hl, rfl, hptr⟩
    obtain ⟨c, hc, hptr'⟩ := h.blocks.block_of_live l hl
    obtain rfl : b = c := addrOf_inj (hptr.symm.trans hptr')
    exact hc
  · intro hlive
    obtain ⟨l, hl, hptr⟩ := h.blocks.live_of_block t b hlive
    exact ⟨l, hl, h.blocks.tier hl hlive hptr, hptr⟩

theorem recordOf_inj {c chunk : ℕ} (ht : t < n)
    (heq : recordOf space n chunk t b = recordOf space n chunk t c) : b = c := by
  by_contra hne
  have hb := record_fits space chunk b ht
  have hc := record_fits space chunk c ht
  have hsb := addrOf_succ n chunk t b
  have hsc := addrOf_succ n chunk t c
  have hpos := blockBytes_pos (n := n) (t := t)
  rcases Nat.lt_or_gt_of_ne hne with hlt | hlt
  · have := addrOf_mono n chunk t (show b + 1 ≤ c by omega)
    omega
  · have := addrOf_mono n chunk t (show c + 1 ≤ b by omega)
    omega

/-- The walk along a chain ends at its end. -/
theorem freeRecords_eq (h : Holds m w) (ht : t < n) :
    ∃ ids : List ℕ, freeRecords w.details t = ids.map (recordOf space n w.details.chunk t) ∧
      Chain space.sizeofPointer w.details.mem (w.details.freeChainHead t)
        (ids.map (recordOf space n w.details.chunk t)) ∧
      ∀ b, b ∈ ids ↔ m.node t b = .free := by
  obtain ⟨ids, hchain, hids⟩ := h.accounted.chains t ht
  have hnodup : ids.Nodup := List.Nodup.of_map _ hchain.nodup
  have hlen : ids.length ≤ 2 ^ t := by
    have hsub : ids.toFinset ⊆ Finset.range (2 ^ t) := by
      intro c hc
      have hfree := (hids c).mp (List.mem_toFinset.mp hc)
      exact Finset.mem_range.mpr (m.inside (t := t) (b := c) (by simp [hfree])).2
    have hcard := Finset.card_le_card hsub
    rwa [List.toFinset_card_of_nodup hnodup, Finset.card_range] at hcard
  exact ⟨ids, hchain.walk_eq (by simpa using hlen), hchain, hids⟩

theorem freeAt_iff (h : Holds m w) : FreeAt w t b ↔ m.node t b = .free := by
  have hg := h.accounted.geometry
  simp only [FreeAt, hg.tierNum_eq]
  constructor
  · rintro ⟨ht, hmem⟩
    obtain ⟨ids, heq, -, hids⟩ := h.freeRecords_eq ht
    rw [heq] at hmem
    obtain ⟨c, hc, hrec⟩ := List.mem_map.mp hmem
    obtain rfl := recordOf_inj ht hrec
    exact (hids c).mp hc
  · intro hfree
    obtain ⟨ht, -⟩ := m.inside (t := t) (b := b) (by simp [hfree])
    obtain ⟨ids, heq, -, hids⟩ := h.freeRecords_eq ht
    rw [heq]
    exact ⟨ht, List.mem_map_of_mem ((hids b).mpr hfree)⟩

theorem leafAt_iff (h : Holds m w) : LeafAt w t b ↔ m.Leaf t b := by
  rw [LeafAt, h.liveAt_iff, h.freeAt_iff]
  rfl

theorem splitAt_iff (h : Holds m w) : SplitAt w t b ↔ m.node t b = .split := by
  simp only [SplitAt, h.leafAt_iff, split_iff]

/-- The sizes of the live pointers add up to the bytes the map hands out. -/
theorem sum_eq (h : Holds m w) :
    (w.live.map (fun l => blockBytes n (tierFor n l.size))).sum = m.liveBytes (n + 3) := by
  let blockOf : LiveBlock → ℕ × ℕ := fun l =>
    (tierFor n l.size, (l.ptr - w.details.chunk) / blockBytes n (tierFor n l.size))
  have hblock : ∀ l ∈ w.live, m.node (blockOf l).1 (blockOf l).2 = .live ∧
      l.ptr = addrOf n w.details.chunk (blockOf l).1 (blockOf l).2 := by
    intro l hl
    obtain ⟨b, hb, hptr⟩ := h.blocks.block_of_live l hl
    have hdiv : (l.ptr - w.details.chunk) / blockBytes n (tierFor n l.size) = b := by
      rw [hptr, addrOf, Nat.add_sub_cancel_left, Nat.mul_div_cancel _ blockBytes_pos]
    dsimp only [blockOf]
    rw [hdiv]
    exact ⟨hb, hptr⟩
  have hnodup : (w.live.map blockOf).Nodup := by
    refine List.pairwise_map.mpr (h.blocks.distinct.imp_of_mem ?_)
    intro k l hk hl hne heq
    rw [(hblock k hk).2, (hblock l hl).2, heq] at hne
    exact hne rfl
  have hset : (w.live.map blockOf).toFinset = m.liveBlocks := by
    ext ⟨t, b⟩
    rw [List.mem_toFinset, mem_liveBlocks, List.mem_map]
    constructor
    · rintro ⟨l, hl, hlb⟩
      have := (hblock l hl).1
      rwa [hlb] at this
    · intro hlive
      obtain ⟨l, hl, hptr⟩ := h.blocks.live_of_block t b hlive
      obtain ⟨hb, hptr'⟩ := hblock l hl
      obtain ⟨ht, hc⟩ := live_eq hb hlive (hptr'.symm.trans hptr)
      exact ⟨l, hl, Prod.ext ht hc⟩
  rw [liveBytes, ← hset, List.sum_toFinset _ hnodup, List.map_map]
  rfl

theorem repInvariant (h : Holds m w) : RepInvariant w := by
  have hg := h.accounted.geometry
  have hinside : ∀ t b, LeafAt w t b → t < n ∧ b < 2 ^ t := by
    intro t b hleaf
    exact m.inside (h.leafAt_iff.mp hleaf).ne_absent
  have hcell : ∀ t b x : ℕ, (b * blockBytes n t ≤ x ∧ x < (b + 1) * blockBytes n t) ↔
      cell (n + 3) t x = b := by
    intro t b x
    have hiff : InBlock n 0 t b x ↔ 0 ≤ x ∧ cell (n + 3) t (x - 0) = b := inBlock_iff
    simpa [InBlock, addrOf] using hiff
  refine ⟨?_, ?_, ?_, ?_, ?_, h.blocks.distinct, ?_, ?_, ?_⟩
  all_goals try simp only [hg.tierNum_eq, hg.tierOf_eq, hg.capacity_eq]
  · intro t ht
    exact ⟨hg.blockSizeOf_ok ht, blockBytes_mul (by omega)⟩
  · intro l hl
    obtain ⟨b, hb, hptr⟩ := h.blocks.block_of_live l hl
    obtain ⟨ht, -⟩ := m.inside (t := tierFor n l.size) (b := b) (by simp [hb])
    exact ⟨b, h.liveAt_iff.mpr hb, hptr, size_le_of_tierFor hg.le ht⟩
  · intro t b hleaf
    obtain ⟨ht, hb⟩ := hinside t b hleaf
    exact ⟨ht, block_end_le (by omega) hb⟩
  · intro x hx
    obtain ⟨t, hleaf⟩ := m.exists_leaf (S := n + 3) (by omega) hx
    refine ⟨(t, cell (n + 3) t x), ⟨h.leafAt_iff.mpr hleaf, (hcell _ _ _).mpr rfl⟩, ?_⟩
    rintro ⟨u, c⟩ ⟨hleaf', hin⟩
    obtain rfl := (hcell u c x).mp hin
    obtain rfl := m.leaf_unique (by omega) hleaf (h.leafAt_iff.mp hleaf')
    rfl
  · rintro t b ⟨hl, hf⟩
    rw [h.liveAt_iff] at hl
    rw [h.freeAt_iff, hl] at hf
    cases hf
  · intro t ht b hb
    refine ⟨_, hg.isBlockInUse_ok ht hb, ?_⟩
    have hflag := h.accounted.flags t b ht hb
    rwa [InUse, ← h.liveAt_iff, ← h.splitAt_iff] at hflag
  · intro t ht
    obtain ⟨ids, heq, hchain, hids⟩ := h.freeRecords_eq ht
    rw [heq]
    refine ⟨hchain, hchain.nodup, ?_⟩
    intro r hr
    obtain ⟨b, hb, rfl⟩ := List.mem_map.mp hr
    exact ⟨b, h.freeAt_iff.mpr ((hids b).mp hb), rfl⟩
  · rw [h.accounted.used, h.sum_eq]

end Holds

theorem fresh_holds (size : ℕ) (chunk : MallocBlock space (sizing size).1) (mem : Memory) :
    Returns (fresh size chunk mem) (fun w => ∃ m : BuddyMap (sizing size).2, Holds m w) := by
  obtain ⟨s, m, hrun, hacc, -, hnone, -⟩ := construct_spec size chunk mem
  exact ⟨⟨s, []⟩, by simp [fresh, hrun], m, hacc, Matches.empty hnone⟩

theorem step_holds {n : ℕ} (w : State space) (r : Request) (h : ∃ m : BuddyMap n, Holds m w)
    (hadm : Admits w r) : ∃ w', step w r = .ok w' ∧ ∃ m : BuddyMap n, Holds m w' := by
  obtain ⟨m, hm⟩ := h
  obtain ⟨w', m', hrun, hm', -⟩ := step_effect w r hm hadm
  exact ⟨w', hrun, m', hm'⟩

/-- For every constructor size and every admitted run from a fresh allocator, no
assertion fails and the blocks are represented as they should be in every state. -/
theorem repInvariant_throughout (size : ℕ) (chunk : MallocBlock space (sizing size).1) (mem : Memory) :
    Returns (fresh size chunk mem) (fun w => ∀ requests : List Request,
      Along step Admits w requests → Throughout step RepInvariant w requests) := by
  obtain ⟨w, hw, hm⟩ := fresh_holds size chunk mem
  refine ⟨w, hw, ?_⟩
  intro requests hadm
  have hrun := throughout_of_invariant step_holds hm hadm
  refine hrun.mono ?_
  rintro w ⟨m, hm⟩
  exact hm.repInvariant

/-- A chunk of 128 bytes at address 4096. -/
def chunk128 : MallocBlock model64 (sizing 100).1 := ⟨4096, by decide, by decide⟩

/-- Blocks are split, a grown block moves, and two buddies are merged again. -/
def splitAndMergeRun : List Request :=
  [.alloc 16, .calloc 3 5, .write 4112 2 7, .alloc 30, .realloc 4112 20, .free 4096,
   .dealloc 4128 30, .realloc 4160 0]

theorem repInvariant_throughout_splitAndMergeRun :
    Returns (fresh 100 chunk128 (fun _ => 0)) (fun w => Throughout step RepInvariant w splitAndMergeRun) := by
  obtain ⟨w, hw, hruns⟩ := repInvariant_throughout 100 chunk128 (fun _ => 0)
  obtain ⟨w', hw', hadm⟩ : Returns (fresh 100 chunk128 (fun _ => 0))
      (fun w => Along step Admits w splitAndMergeRun) := by decide +kernel
  obtain rfl : w = w' := Except.ok.inj (hw.symm.trans hw')
  exact ⟨w, hw, hruns splitAndMergeRun hadm⟩

end Buddy
end LibXpf.Allocators
