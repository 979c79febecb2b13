import LibXpf.Allocators.BuddyHistories
import Mathlib.Order.Bounds.Defs

/-! # What a `BuddyAllocator` grants and takes back

`available` scans the tiers from the top and `alloc` searches from the tier of
the size upwards, yet they agree: a size is granted when a block that long is
free. The bytes granted are the least power of two that serves the size. Either
way of giving a block back finds the tier it was granted from.
-/
namespace LibXpf.Allocators
open ByteMemory BuddySystem BuddyMap GuardedRuns

namespace BuddyAllocatorDetails
variable {space : AddressSpace} {s : BuddyAllocatorDetails space} {n t size : ℕ} {m : BuddyMap n}

/-- `available` is the length of the longest free block, or zero. -/
theorem Represents.available_spec (h : Represents m s) :
    (s.available = .ok 0 ∧ ∀ t < n, ∀ c, m.node t c ≠ .free) ∨
    ∃ t < n, s.available = .ok (blockBytes n t) ∧ (∃ c, m.node t c = .free) ∧
      ∀ u < t, ∀ c, m.node u c ≠ .free := by
  have hnone : ∀ t < n, ¬ s.freeChainHead t ≠ NULL → ∀ c, m.node t c ≠ .free := by
    intro t ht hnull c hc
    exact hnull ((h.head_ne_null_iff ht).mpr ⟨c, hc⟩)
  unfold available
  rw [h.geometry.tierNum_eq]
  cases hfind : (List.range n).find? (fun t => s.freeChainHead t ≠ NULL) with
  | none =>
    refine Or.inl ⟨rfl, ?_⟩
    intro t ht
    have hnot := List.find?_eq_none.mp hfind t (List.mem_range.mpr ht)
    exact hnone t ht (by simpa using hnot)
  | some t =>
    obtain ⟨hhead, hmem, hbefore⟩ := List.find?_range_eq_some.mp hfind
    have ht : t < n := List.mem_range.mp hmem
    refine Or.inr ⟨t, ht, h.geometry.blockSizeOf_ok ht, ?_, ?_⟩
    · exact (h.head_ne_null_iff ht).mp (of_decide_eq_true hhead)
    · intro u hu
      exact hnone u (by omega) (by simpa using hbefore u hu)

/-- The tier that serves a size is at or below every tier whose blocks are as long. -/
theorem le_tierFor (hn : n ≤ 28) (ht : t < n) (hfit : size ≤ blockBytes n t) :
    t ≤ tierFor n size ∧ tierFor n size < n := by
  rcases tierFor_spec hn size with ⟨hlt, -, hbound⟩ | ⟨-, hbad⟩
  · refine ⟨?_, hlt⟩
    by_contra hlow
    have hdouble := blockBytes_succ (n := n) (t := tierFor n size) (by omega)
    have hmono : blockBytes n t ≤ blockBytes n (tierFor n size + 1) :=
      Nat.pow_le_pow_right (by omega) (by omega)
    omega
  · have := blockBytes_le (n := n) t
    omega

/-- The blocks that serve a size are as long as the least power of two from 16
on that is not less. -/
theorem blockBytes_tierFor_isLeast (hn : n ≤ 28) (hlt : tierFor n size < n) :
    IsLeast {g | (∃ k, g = 2 ^ k) ∧ max 16 size ≤ g} (blockBytes n (tierFor n size)) := by
  refine ⟨⟨⟨_, rfl⟩, max_le (blockBytes_ge hlt) (size_le_of_tierFor hn hlt)⟩, ?_⟩
  rintro g ⟨⟨k, rfl⟩, hk⟩
  have h16 : 2 ^ 4 ≤ 2 ^ k := (le_max_left _ _).trans hk
  have hsize : size ≤ 2 ^ k := (le_max_right _ _).trans hk
  have hk4 : 4 ≤ k := (Nat.pow_le_pow_iff_right (by omega)).mp h16
  rw [blockBytes]
  apply Nat.pow_le_pow_right (by omega)
  rcases tierFor_spec hn size with ⟨-, -, hlast | hbound⟩ | ⟨hinv, -⟩
  · omega
  · rw [blockBytes] at hbound
    have hpow : 2 ^ (n + 3 - tierFor n size) < 2 ^ (k + 1) := by
      rw [pow_succ]
      omega
    have := (Nat.pow_lt_pow_iff_right (by omega)).mp hpow
    omega
  · rw [hinv, invalidValue] at hlt
    omega

end BuddyAllocatorDetails

namespace Buddy
open BuddyAllocatorDetails
variable {space : AddressSpace} {n : ℕ} {m : BuddyMap n} {w : State space}

/-- A size is granted exactly when `available` is positive and not less. -/
theorem Holds.allocates_iff_available (h : Holds m w) (size : ℕ) :
    ∃ avail, w.details.available = .ok avail ∧
      (Allocates w.details size ↔ 0 < avail ∧ size ≤ avail) := by
  have hle := h.accounted.geometry.le
  rw [h.allocates_iff]
  rcases h.accounted.available_spec with ⟨havail, hnone⟩ | ⟨t, ht, havail, hfree, habove⟩
  · refine ⟨0, havail, ?_⟩
    constructor
    · rintro ⟨hvalid, u, hu, c, hc⟩
      have hlt := tierFor_lt hle hvalid
      exact absurd hc (hnone u (by omega) c)
    · rintro ⟨hpos, -⟩
      omega
  · refine ⟨blockBytes n t, havail, ?_⟩
    constructor
    · rintro ⟨hvalid, u, hu, c, hc⟩
      have hlt := tierFor_lt hle hvalid
      -- the longest free block is of the highest tier that has one
      have htu : t ≤ u := by
        by_contra hut
        exact habove u (by omega) c hc
      have hmono : blockBytes n (tierFor n size) ≤ blockBytes n t :=
        Nat.pow_le_pow_right (by omega) (by omega)
      exact ⟨blockBytes_pos, (size_le_of_tierFor hle hlt).trans hmono⟩
    · rintro ⟨-, hfit⟩
      obtain ⟨htier, hlt⟩ := le_tierFor hle ht hfit
      refine ⟨?_, t, htier, hfree⟩
      rw [invalidValue]
      omega

/-- What `alloc` of a size does, next to what `available` said before. -/
structure Granted (s : BuddyAllocatorDetails space) (size avail p : ℕ)
    (s' : BuddyAllocatorDetails space) : Prop where
  succeeds : p ≠ NULL ↔ 0 < avail ∧ size ≤ avail
  grows : p ≠ NULL → ∃ grown, IsLeast {g | (∃ k, g = 2 ^ k) ∧ max 16 size ≤ g} grown ∧
    s'.used = s.used + grown ∧ ∃ i, p = s.chunk + i * grown
  unchanged : p = NULL → s' = s

/-- In every reachable state `alloc` succeeds exactly when `available` says so,
grants the least power of two that serves the size at a multiple of it, and
changes nothing when it fails. -/
theorem alloc_matches_available (size : ℕ) (chunk : MallocBlock space (sizing size).1) (mem : Memory)
    (requests : List Request) (w : State space) (h : Reached size chunk mem requests w)
    (bytes : ℕ) : ∃ avail p s', w.details.available = .ok avail ∧
      w.details.alloc bytes = .ok (p, s') ∧ Granted w.details bytes avail p s' := by
  obtain ⟨m, hm⟩ := h.holds
  obtain ⟨avail, havail, hiff⟩ := hm.allocates_iff_available bytes
  have hle := hm.accounted.geometry.le
  rcases hm.accounted.alloc_spec bytes with ⟨hrun, -⟩ | ⟨b, s', m', hrun, htier, hacc', hob, -⟩
  · refine ⟨avail, NULL, w.details, havail, hrun, ?_, fun hne => absurd rfl hne, fun _ => rfl⟩
    rw [← hiff]
    constructor
    · exact fun hne => absurd rfl hne
    · rintro ⟨p, s', hrun', hp⟩
      obtain ⟨rfl, -⟩ := Prod.mk.inj (Except.ok.inj (hrun.symm.trans hrun'))
      exact hp
  · have hne := hm.accounted.geometry.addrOf_ne_null (tierFor (sizing size).2 bytes) b
    refine ⟨avail, _, s', havail, hrun, ?_, fun _ => ?_, fun hnull => absurd hnull hne⟩
    · exact iff_of_true hne (hiff.mp ⟨_, s', hrun, hne⟩)
    · have hnew : m.node (tierFor (sizing size).2 bytes) b ≠ .live :=
        fun hl => hob.unused (Or.inl hl)
      have hbytes := liveBytes_add (S := (sizing size).2 + 3) hnew hob.live
      refine ⟨_, blockBytes_tierFor_isLeast hle htier, ?_, b, rfl⟩
      rw [used, used, hacc'.used, hm.accounted.used, blockBytes, hbytes]

/-- `realloc` moves a block out of its 16 bytes. -/
def movedBlockRun : List Request := [.alloc 16, .calloc 3 5, .realloc 4112 20]

theorem movedBlockRun_reaches :
    ∃ w : State model64, Reached 100 chunk128 (fun _ => 0) movedBlockRun w ∧ ⟨4128, 20⟩ ∈ w.live :=
  reached_of_decision 100 chunk128 (fun _ => 0) movedBlockRun (by decide +kernel)

theorem alloc_matches_available_movedBlockRun :
    ∃ w : State model64, Reached 100 chunk128 (fun _ => 0) movedBlockRun w ∧
      ∃ avail p s', w.details.available = .ok avail ∧ w.details.alloc 30 = .ok (p, s') ∧
        Granted w.details 30 avail p s' := by
  obtain ⟨w, h, -⟩ := movedBlockRun_reaches
  exact ⟨w, h, alloc_matches_available 100 chunk128 (fun _ => 0) _ w h 30⟩

/-- Both releases of a live block recycle the block of the tier that its size maps to. -/
theorem Holds.released_spec {n : ℕ} {m : BuddyMap n} {w : State space} (h : Holds m w) {l : LiveBlock} (hl : l ∈ w.live) :
    ∃ s b, w.details.free l.ptr = .ok s ∧ w.details.dealloc l.ptr l.size = .ok s ∧
      w.details.locateBlockInUse l.ptr = .ok (some (tierFor n l.size, b)) := by
  obtain ⟨b, hlive, hptr⟩ := h.blocks.block_of_live l hl
  obtain ⟨s, m', hrun, -⟩ := h.accounted.recycleUsed_spec hlive
  have hfree := h.accounted.free_eq hlive
  have hdealloc := h.accounted.dealloc_eq hlive rfl
  have hlocate := h.accounted.locateBlockInUse_spec hlive
  rw [← hptr] at hfree hdealloc hlocate
  exact ⟨s, b, hfree.trans hrun, hdealloc.trans hrun, hlocate⟩

/-- In every reachable state, releasing a live pointer with the size last
requested for it and releasing it without are the same, and the search through
the bits in use finds the tier that the size maps to. -/
theorem dealloc_eq_free (size : ℕ) (chunk : MallocBlock space (sizing size).1) (mem : Memory)
    (requests : List Request) (w : State space) (h : Reached size chunk mem requests w)
    (l : LiveBlock) (hl : l ∈ w.live) :
    Returns (w.details.free l.ptr) (fun s' => w.details.dealloc l.ptr l.size = .ok s') ∧
      ∃ b, w.details.locateBlockInUse l.ptr = .ok (some (w.details.tierOf l.size, b)) := by
  obtain ⟨m, hm⟩ := h.holds
  obtain ⟨s', b, hfree, hdealloc, hlocate⟩ := hm.released_spec hl
  rw [hm.accounted.geometry.tierOf_eq]
  exact ⟨⟨s', hfree, hdealloc⟩, b, hlocate⟩

theorem dealloc_eq_free_movedBlockRun :
    ∃ w : State model64, Reached 100 chunk128 (fun _ => 0) movedBlockRun w ∧
      Returns (w.details.free 4128) (fun s' => w.details.dealloc 4128 20 = .ok s') ∧
      ∃ b, w.details.locateBlockInUse 4128 = .ok (some (w.details.tierOf 20, b)) := by
  obtain ⟨w, h, hl⟩ := movedBlockRun_reaches
  exact ⟨w, h, dealloc_eq_free 100 chunk128 (fun _ => 0) _ w h ⟨4128, 20⟩ hl⟩

end Buddy
end LibXpf.Allocators
