import LibXpf.Allocators.BuddySteps

/-! # The geometry of a `BuddyAllocator`

What the constructor makes of its size argument, and that the 32-bit arithmetic on
tiers, block ids, flag indices and record addresses is exact for every capacity
there is.
-/
namespace LibXpf.Allocators
open ByteMemory BuddySystem BuddyMap

namespace BuddyAllocatorDetails
variable {space : AddressSpace} {s : BuddyAllocatorDetails space} {n t b size : ℕ}

section Sizing

theorem isLeast_two_pow_clog (size : ℕ) :
    IsLeast {c | size ≤ c ∧ ∃ k, c = 2 ^ k} (2 ^ Nat.clog 2 size) := by
  refine ⟨⟨Nat.le_pow_clog Nat.one_lt_two size, _, rfl⟩, ?_⟩
  rintro _ ⟨hle, k, rfl⟩
  exact Nat.pow_le_pow_right (by omega) (Nat.clog_le_of_le_pow hle)

/-- Raising two to a power commutes with the two bounds on the capacity. -/
theorem capacity_tiersFor (size : ℕ) :
    2 ^ (tiersFor size + 3) = min (2 ^ 31) (max 16 (2 ^ Nat.clog 2 size)) := by
  have hmono : Monotone fun k : ℕ => 2 ^ k := fun _ _ hle => Nat.pow_le_pow_right (by omega) hle
  have hexp : tiersFor size + 3 = min 31 (max 4 (Nat.clog 2 size)) := by
    unfold tiersFor
    omega
  calc 2 ^ (tiersFor size + 3)
      = 2 ^ min 31 (max 4 (Nat.clog 2 size)) := by rw [hexp]
    _ = min (2 ^ 31) (2 ^ max 4 (Nat.clog 2 size)) := hmono.map_min
    _ = min (2 ^ 31) (max (2 ^ 4) (2 ^ Nat.clog 2 size)) := by rw [hmono.map_max]

/-- A larger budget changes nothing: the loop has left by itself. -/
theorem sizingLoop_budget (size : ℕ) {fuel : ℕ} (hfuel : sizingBudget ≤ fuel) :
    sizingLoop size fuel (1 <<< minSizePowOf2) 1 = sizing size := by
  have hbudget : 28 ≤ 1 + fuel := (show 28 ≤ 1 + sizingBudget by decide).trans (by omega)
  rw [sizing_eq]
  exact sizingLoop_eq (k := 1) (by omega) hbudget

end Sizing

section Exact

/-- Every block has a flag, bytes and a record of its own, and every size has its tier. -/
structure Exact (s : BuddyAllocatorDetails space) : Prop where
  flagIndex_eq : ∀ t < s.tierNum, ∀ b < 2 ^ t, flagIndex t b = 1 <<< t + b
  flagIndex_lt : ∀ t < s.tierNum, ∀ b < 2 ^ t, flagIndex t b < 8 * s.flagsLen
  flagIndex_inj : ∀ t < s.tierNum, ∀ b < 2 ^ t, ∀ u < s.tierNum, ∀ c < 2 ^ u,
    flagIndex t b = flagIndex u c → t = u ∧ b = c
  block_end : ∀ t < s.tierNum, ∀ b < 2 ^ t, ∃ z, s.blockSizeOf t = .ok z ∧
    z * (b + 1) ≤ s.capacity ∧ u32 (z * u32 (b + 1)) = z * (b + 1)
  record : ∀ t < s.tierNum, ∀ b < 2 ^ t, ∃ z, s.blockSizeOf t = .ok z ∧
    s.chunk ≤ s.freeBlockRecord z b ∧ u32 (s.freeBlockRecord z b - s.chunk) / z = b
  tierOf_greatest : ∀ size ≤ s.capacity,
    IsGreatest {t | t < s.tierNum ∧ ∃ z, s.blockSizeOf t = .ok z ∧ size ≤ z} (s.tierOf size)
  tierOf_invalid : ∀ size, s.capacity < size → s.tierOf size = invalidValue

/-- The flag array has eight bits for every byte up to the last block's. -/
theorem flagIndex_lt_of (hlen : s.flagsLen = 1 <<< (if n ≤ 3 then 0 else n - 3)) (ht : t < n)
    (hb : b < 2 ^ t) : 2 ^ t + b < 8 * s.flagsLen := by
  have hoffset := flagOffset_lt ht hb
  rw [← hlen, Nat.shiftRight_eq_div_pow] at hoffset
  omega

/-- The products of the source do not wrap. -/
theorem u32_block_end (hn : n ≤ 28) (ht : t < n) (hb : b < 2 ^ t) :
    u32 (blockBytes n t * u32 (b + 1)) = blockBytes n t * (b + 1) := by
  have hcap := capacity_lt hn
  have hend := block_end_le (n := n) (t := t) (by omega) hb
  have hle : b + 1 ≤ (b + 1) * blockBytes n t := Nat.le_mul_of_pos_right _ blockBytes_pos
  rw [u32_of_lt (n := b + 1) (by omega), Nat.mul_comm, u32_of_lt (by omega)]

/-- No tier below the one that serves a size has blocks long enough. -/
theorem Geometry.tierOf_isGreatest (h : Geometry n s) (hsize : size ≤ 2 ^ (n + 3)) :
    IsGreatest {t | t < n ∧ size ≤ blockBytes n t} (tierFor n size) := by
  have hpos := h.pos
  rcases tierFor_spec h.le size with ⟨hlt, hfit, htight⟩ | ⟨-, hbad⟩
  · refine ⟨⟨hlt, hfit⟩, ?_⟩
    rintro u ⟨hu, hfitu⟩
    by_contra hdeep
    have hdouble := blockBytes_succ (n := n) (t := tierFor n size) (by omega)
    have hmono : blockBytes n u ≤ blockBytes n (tierFor n size + 1) :=
      Nat.pow_le_pow_right (by omega) (by omega)
    omega
  · omega

theorem Geometry.tierOf_invalid (h : Geometry n s) (hsize : 2 ^ (n + 3) < size) :
    tierFor n size = invalidValue := by
  rcases tierFor_spec h.le size with ⟨-, hfit, -⟩ | ⟨hinv, -⟩
  · have := blockBytes_le (n := n) (tierFor n size)
    omega
  · exact hinv

theorem Geometry.exact (h : Geometry n s) (hlen : s.flagsLen = 1 <<< (if n ≤ 3 then 0 else n - 3)) :
    Exact s := by
  obtain rfl := h.tierNum_eq
  constructor
  case flagIndex_eq =>
    intro t ht b hb
    rw [BuddyAllocatorDetails.flagIndex_eq h.le ht hb, Nat.one_shiftLeft]
  case flagIndex_lt =>
    intro t ht b hb
    rw [BuddyAllocatorDetails.flagIndex_eq h.le ht hb]
    exact flagIndex_lt_of hlen ht hb
  case flagIndex_inj =>
    intro t ht b hb u hu c hc heq
    rw [BuddyAllocatorDetails.flagIndex_eq h.le ht hb,
      BuddyAllocatorDetails.flagIndex_eq h.le hu hc] at heq
    exact BuddyAllocatorDetails.flagIndex_inj hb hc heq
  case block_end =>
    intro t ht b hb
    refine ⟨blockBytes s.tierNum t, h.blockSizeOf_ok ht, ?_, u32_block_end h.le ht hb⟩
    rw [h.capacity_eq, Nat.mul_comm]
    exact block_end_le (by omega) hb
  case record =>
    intro t ht b hb
    have hfits := record_fits space s.chunk b ht
    have hge : s.chunk ≤ addrOf s.tierNum s.chunk t b := Nat.le_add_right _ _
    refine ⟨blockBytes s.tierNum t, h.blockSizeOf_ok ht, ?_⟩
    rw [h.freeBlockRecord_eq ht hb]
    exact ⟨hge.trans hfits.1, h.blockId_of_record ht hb⟩
  case tierOf_greatest =>
    intro size hsize
    rw [h.capacity_eq] at hsize
    have hset : {t | t < s.tierNum ∧ ∃ z, s.blockSizeOf t = .ok z ∧ size ≤ z} =
        {t | t < s.tierNum ∧ size ≤ blockBytes s.tierNum t} := by
      ext t
      simp only [Set.mem_ofPred_eq]
      refine and_congr_right fun ht => ?_
      rw [h.blockSizeOf_ok ht]
      simp
    rw [hset, h.tierOf_eq]
    exact h.tierOf_isGreatest hsize
  case tierOf_invalid =>
    intro size hsize
    rw [h.capacity_eq] at hsize
    rw [h.tierOf_eq, h.tierOf_invalid hsize]

end Exact

section Construct

theorem construct_flagsLen {chunk : MallocBlock space (sizing size).1} {mem : Memory}
    (hrun : construct size chunk mem = .ok s) :
    s.flagsLen = 1 <<< (if (sizing size).2 ≤ 3 then 0 else (sizing size).2 - 3) := by
  have hlen : Elsewhere fun s : BuddyAllocatorDetails space => s.flagsLen :=
    ⟨fun _ _ => rfl, fun _ _ _ => rfl⟩
  obtain ⟨u, hset, hrecycle⟩ := ok_of_bind hrun
  calc s.flagsLen = u.flagsLen := hlen.recycle hrecycle
    _ = _ := hlen.setBlockInUse hset

/-- For every size the sizing loop ends, at the least power of two that serves the size,
within the bounds, and the arithmetic on the tiers it leaves is exact. -/
theorem construct_exact (size : ℕ) (chunk : MallocBlock space (sizing size).1) (mem : Memory) :
    (∀ fuel ≥ sizingBudget, sizingLoop size fuel (1 <<< minSizePowOf2) 1 = sizing size) ∧
    ∃ s : BuddyAllocatorDetails space, construct size chunk mem = .ok s ∧
      (∃ c, IsLeast {c | size ≤ c ∧ ∃ k, c = 2 ^ k} c ∧ s.capacity = min (2 ^ 31) (max 16 c)) ∧
      s.tierNum = Nat.log 2 s.capacity - 3 ∧ Exact s := by
  refine ⟨fun fuel hfuel => sizingLoop_budget size hfuel, ?_⟩
  obtain ⟨s, m, hrun, hacc, -⟩ := construct_spec size chunk mem
  have hlen := construct_flagsLen hrun
  have hgeometry := hacc.geometry
  have hexact := hgeometry.exact hlen
  have hcapacity := hgeometry.capacity_eq
  have htierNum := hgeometry.tierNum_eq
  simp only [sizing_eq] at hcapacity htierNum
  refine ⟨s, hrun, ⟨_, isLeast_two_pow_clog size, ?_⟩, ?_, hexact⟩
  · rw [hcapacity, capacity_tiersFor]
  · rw [hcapacity, htierNum, Nat.log_pow Nat.one_lt_two]
    omega

end Construct
end BuddyAllocatorDetails
end LibXpf.Allocators
