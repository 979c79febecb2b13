import LibXpf.Allocators.BuddyDetails
import LibXpf.Foundation.BuddySystem
import Mathlib.Tactic.IntervalCases

/-! # Tiers, block ids, flags and pointers of a `BuddyAllocator`

For an allocator of `n` tiers the 32-bit computations of the source are ordinary
arithmetic on powers of two.
-/
namespace LibXpf.Allocators
open ByteMemory BuddySystem

/-- The size of the blocks of tier `t` among `n` tiers. -/
def blockBytes (n t : ℕ) : ℕ := 2 ^ (n + 3 - t)

section BlockBytes
variable {n t u : ℕ}

theorem blockBytes_pos : 0 < blockBytes n t := Nat.two_pow_pos _

theorem blockBytes_ge (ht : t < n) : 16 ≤ blockBytes n t := by
  have : 2 ^ 4 ≤ 2 ^ (n + 3 - t) := Nat.pow_le_pow_right (by omega) (by omega)
  exact this

theorem blockBytes_mul (ht : t ≤ n + 3) : 2 ^ t * blockBytes n t = 2 ^ (n + 3) := by
  rw [blockBytes, ← pow_add, show t + (n + 3 - t) = n + 3 by omega]

theorem blockBytes_le (t : ℕ) : blockBytes n t ≤ 2 ^ (n + 3) :=
  Nat.pow_le_pow_right (by omega) (by omega)

theorem blockBytes_succ (ht : t < n + 3) : blockBytes n t = 2 * blockBytes n (t + 1) := by
  rw [blockBytes, blockBytes, ← pow_succ', show n + 3 - (t + 1) + 1 = n + 3 - t by omega]

theorem blockBytes_scale (htu : t ≤ u) (hu : u ≤ n + 3) :
    blockBytes n t = 2 ^ (u - t) * blockBytes n u := by
  rw [blockBytes, blockBytes, ← pow_add, show u - t + (n + 3 - u) = n + 3 - t by omega]

theorem capacity_lt (hn : n ≤ 28) : 2 ^ (n + 3) < 2 ^ 32 := Nat.pow_lt_pow_right (by omega) (by omega)

theorem block_end_le (ht : t ≤ n + 3) {b : ℕ} (hb : b < 2 ^ t) :
    (b + 1) * blockBytes n t ≤ 2 ^ (n + 3) := by
  rw [← blockBytes_mul ht]
  exact Nat.mul_le_mul_right _ hb

end BlockBytes

namespace BuddyAllocatorDetails
variable {space : AddressSpace} {s : BuddyAllocatorDetails space} {n t u b c size : ℕ}

/-- The shape of an allocator of `n` tiers on a chunk inside its address space. -/
structure Geometry (n : ℕ) (s : BuddyAllocatorDetails space) : Prop where
  tierNum_eq : s.tierNum = n
  capacity_eq : s.capacity = 2 ^ (n + 3)
  pos : 0 < n
  le : n ≤ 28
  chunk_ne : s.chunk ≠ 0
  inSpace : s.chunk + 2 ^ (n + 3) ≤ 256 ^ space.sizeofPointer

theorem Geometry.congr (h : Geometry n s) {s' : BuddyAllocatorDetails space}
    (htier : s'.tierNum = s.tierNum) (hcap : s'.capacity = s.capacity) (hchunk : s'.chunk = s.chunk) :
    Geometry n s' :=
  ⟨htier.trans h.tierNum_eq, hcap.trans h.capacity_eq, h.pos, h.le, hchunk ▸ h.chunk_ne,
    hchunk ▸ h.inSpace⟩

section Tiers

theorem Geometry.blockSizeOf_ok (h : Geometry n s) (ht : t < n) :
    s.blockSizeOf t = .ok (blockBytes n t) := by
  have hexp : minSizePowOf2 + s.tierNum - t - 1 = n + 3 - t := by
    rw [h.tierNum_eq, minSizePowOf2]
    omega
  have hlt : 2 ^ (n + 3 - t) < 2 ^ 32 := (blockBytes_le t).trans_lt (capacity_lt h.le)
  have htier : t < s.tierNum := h.tierNum_eq ▸ ht
  simp only [blockSizeOf, xpfAssert_ok htier, ok_bind, hexp, Nat.one_shiftLeft, u32_of_lt hlt]
  rfl

/-- What the `tierOf` loop finds among the upper `tiers` tiers. -/
theorem tierOfLoop_spec (hn : n ≤ 28) {tiers : ℕ} (htiers : tiers ≤ n) {v : ℕ}
    (hv : 0 < tiers → v = blockBytes n (tiers - 1)) :
    (tierOfLoop size tiers v < tiers ∧ size ≤ blockBytes n (tierOfLoop size tiers v) ∧
      (tierOfLoop size tiers v + 1 = tiers ∨ blockBytes n (tierOfLoop size tiers v) < 2 * size)) ∨
    (tierOfLoop size tiers v = invalidValue ∧ (tiers = 0 ∨ 2 ^ (n + 3) < size)) := by
  induction tiers generalizing v with
  | zero => exact Or.inr ⟨rfl, Or.inl rfl⟩
  | succ t ih =>
    have hv' : v = blockBytes n t := hv (Nat.succ_pos t)
    by_cases hfit : size ≤ v
    · left
      rw [tierOfLoop, if_pos hfit]
      exact ⟨Nat.lt_succ_self t, hv' ▸ hfit, Or.inl rfl⟩
    · rw [tierOfLoop, if_neg hfit]
      have hnext : 0 < t → u32 (v <<< 1) = blockBytes n (t - 1) := by
        intro ht
        have hdouble := blockBytes_succ (n := n) (t := t - 1) (by omega)
        have hle := (blockBytes_le (n := n) (t - 1)).trans_lt (capacity_lt hn)
        rw [show t - 1 + 1 = t by omega] at hdouble
        rw [Nat.shiftLeft_eq, pow_one, hv', u32_of_lt (by omega)]
        omega
      rcases ih (by omega) hnext with ⟨hlt, hle, hbound⟩ | ⟨hinv, hbound⟩
      · refine Or.inl ⟨by omega, hle, Or.inr ?_⟩
        rcases hbound with hbound | hbound
        · have hdouble := blockBytes_succ (n := n) (t := tierOfLoop size t (u32 (v <<< 1))) (by omega)
          rw [hbound] at hdouble
          omega
        · exact hbound
      · refine Or.inr ⟨hinv, Or.inr ?_⟩
        rcases hbound with rfl | hbound
        · have : v = 2 ^ (n + 3) := hv'
          omega
        · exact hbound

/-- The tier that serves a size: the lowest one whose blocks are long enough. -/
def tierFor (n size : ℕ) : ℕ := tierOfLoop size n 16

theorem Geometry.tierOf_eq (h : Geometry n s) (size : ℕ) : s.tierOf size = tierFor n size := by
  rw [tierOf, h.tierNum_eq]
  rfl

theorem tierFor_spec (hn : n ≤ 28) (size : ℕ) :
    (tierFor n size < n ∧ size ≤ blockBytes n (tierFor n size) ∧
      (tierFor n size + 1 = n ∨ blockBytes n (tierFor n size) < 2 * size)) ∨
    (tierFor n size = invalidValue ∧ (n = 0 ∨ 2 ^ (n + 3) < size)) := by
  apply tierOfLoop_spec hn le_rfl
  intro hpos
  rw [blockBytes, show n + 3 - (n - 1) = 4 by omega]
  norm_num

theorem tierFor_eq (hn : n ≤ 28) (ht : t < n) (hfit : size ≤ blockBytes n t)
    (htight : t + 1 = n ∨ blockBytes n t < 2 * size) : tierFor n size = t := by
  rcases tierFor_spec hn size with ⟨hlt, hle, hbound⟩ | ⟨-, hbad⟩
  · by_contra hne
    rcases Nat.lt_or_gt_of_ne hne with hlow | hhigh
    · have hdouble := blockBytes_succ (n := n) (t := tierFor n size) (by omega)
      have hmono : blockBytes n t ≤ blockBytes n (tierFor n size + 1) :=
        Nat.pow_le_pow_right (by omega) (by omega)
      omega
    · have hdouble := blockBytes_succ (n := n) (t := t) (by omega)
      have hmono : blockBytes n (tierFor n size) ≤ blockBytes n (t + 1) :=
        Nat.pow_le_pow_right (by omega) (by omega)
      omega
  · have := blockBytes_le (n := n) t
    omega

theorem tierFor_blockBytes (hn : n ≤ 28) (ht : t < n) : tierFor n (blockBytes n t) = t := by
  have hpos := blockBytes_pos (n := n) (t := t)
  exact tierFor_eq hn ht le_rfl (Or.inr (by omega))

theorem tierFor_lt (hn : n ≤ 28) (hne : tierFor n size ≠ invalidValue) : tierFor n size < n := by
  rcases tierFor_spec hn size with ⟨hlt, -⟩ | ⟨hinv, -⟩
  · exact hlt
  · exact absurd hinv hne

theorem size_le_of_tierFor (hn : n ≤ 28) (hlt : tierFor n size < n) :
    size ≤ blockBytes n (tierFor n size) := by
  rcases tierFor_spec hn size with ⟨-, hle, -⟩ | ⟨hinv, -⟩
  · exact hle
  · rw [hinv, invalidValue] at hlt
    omega

theorem ne_invalidValue (hn : n ≤ 28) (ht : t < n) (hb : b < 2 ^ t) : b ≠ invalidValue := by
  have : 2 ^ t ≤ 2 ^ 28 := Nat.pow_le_pow_right (by omega) (by omega)
  rw [invalidValue]
  omega

end Tiers

section Flags

/-- The bit of index `idx`. -/
def flagBit (flags : ℕ → UInt8) (idx : ℕ) : Bool := flags (idx >>> 3) &&& flagMask idx ≠ 0

def setFlagBit (flags : ℕ → UInt8) (idx : ℕ) (val : Bool) : ℕ → UInt8 :=
  if val then Function.update flags (idx >>> 3) (flags (idx >>> 3) ||| flagMask idx)
  else Function.update flags (idx >>> 3) (flags (idx >>> 3) &&& (flagMask idx ^^^ 0xFF))

theorem flagMask_toNat (idx : ℕ) : (flagMask idx).toNat = 2 ^ (idx % 8) := by
  have hland : idx &&& 0x7 = idx % 8 := Nat.and_two_pow_sub_one_eq_mod idx 3
  have hlt : idx % 8 < 8 := Nat.mod_lt _ (by omega)
  rw [flagMask, hland]
  generalize idx % 8 = i at hlt
  interval_cases i <;> rfl

theorem land_flagMask_ne_zero (byte : UInt8) (idx : ℕ) :
    byte &&& flagMask idx ≠ 0 ↔ byte.toNat.testBit (idx % 8) = true := by
  rw [ne_eq, ← UInt8.toNat_inj, UInt8.toNat_and, flagMask_toNat, Nat.and_two_pow]
  cases byte.toNat.testBit (idx % 8) <;> simp

theorem flagBit_setFlagBit (flags : ℕ → UInt8) (i j : ℕ) (val : Bool) :
    flagBit (setFlagBit flags i val) j = if j = i then val else flagBit flags j := by
  have hlt : j % 8 < 8 := Nat.mod_lt _ (by omega)
  have hones : Nat.testBit 255 (j % 8) = true := by
    rw [show 255 = 2 ^ 8 - 1 by norm_num, Nat.testBit_two_pow_sub_one, decide_eq_true hlt]
  by_cases hbyte : j >>> 3 = i >>> 3
  · have hsame : j = i ↔ i % 8 = j % 8 := by
      simp only [Nat.shiftRight_eq_div_pow] at hbyte
      omega
    rw [Bool.eq_iff_iff]
    simp only [flagBit, setFlagBit, decide_eq_true_eq, land_flagMask_ne_zero, hsame]
    cases val <;> by_cases hbit : i % 8 = j % 8 <;>
      simp [hbyte, hbit, flagMask_toNat, hones, UInt8.toNat_and, UInt8.toNat_or, UInt8.toNat_xor]
  · have hne : j ≠ i := by
      rintro rfl
      exact hbyte rfl
    simp only [flagBit, setFlagBit, if_neg hne]
    cases val <;> simp [Function.update_of_ne hbyte]

theorem flagIndex_eq (hn : n ≤ 28) (ht : t < n) (hb : b < 2 ^ t) : flagIndex t b = 2 ^ t + b := by
  have : 2 ^ t ≤ 2 ^ 28 := Nat.pow_le_pow_right (by omega) (by omega)
  rw [flagIndex, Nat.one_shiftLeft, u32_of_lt (by omega)]

theorem flagIndex_inj (hb : b < 2 ^ t) (hc : c < 2 ^ u) (h : 2 ^ t + b = 2 ^ u + c) :
    t = u ∧ b = c := by
  have hlt : ∀ t u b c : ℕ, b < 2 ^ t → 2 ^ t + b = 2 ^ u + c → ¬ t < u := by
    intro t u b c hb h htu
    have : 2 ^ (t + 1) ≤ 2 ^ u := Nat.pow_le_pow_right (by omega) htu
    rw [pow_succ] at this
    omega
  have htu := hlt t u b c hb h
  have hut := hlt u t c b hc h.symm
  obtain rfl : t = u := by omega
  exact ⟨rfl, by omega⟩

theorem Geometry.isBlockInUse_ok (h : Geometry n s) (ht : t < n) (hb : b < 2 ^ t) :
    s.isBlockInUse t b = .ok (flagBit s.flags (2 ^ t + b)) := by
  have htier : t < s.tierNum := h.tierNum_eq ▸ ht
  simp only [isBlockInUse, xpfAssert_ok htier, ok_bind, flagIndex_eq h.le ht hb]
  rfl

theorem Geometry.setBlockInUse_ok (h : Geometry n s) (ht : t < n) (hb : b < 2 ^ t) (val : Bool) :
    s.setBlockInUse t b val = .ok { s with flags := setFlagBit s.flags (2 ^ t + b) val } := by
  have htier : t < s.tierNum := h.tierNum_eq ▸ ht
  simp only [setBlockInUse, xpfAssert_ok htier, ok_bind, flagIndex_eq h.le ht hb]
  cases val <;> rfl

/-- Every bit lies inside the array that the constructor allocates. -/
theorem flagOffset_lt (ht : t < n) (hb : b < 2 ^ t) :
    (2 ^ t + b) >>> 3 < 1 <<< (if n ≤ 3 then 0 else n - 3) := by
  have hlt : 2 ^ t + b < 2 ^ n := by
    have : 2 ^ (t + 1) ≤ 2 ^ n := Nat.pow_le_pow_right (by omega) ht
    rw [pow_succ] at this
    omega
  rw [Nat.one_shiftLeft, Nat.shiftRight_eq_div_pow, Nat.div_lt_iff_lt_mul (by norm_num), ← pow_add]
  refine hlt.trans_le (Nat.pow_le_pow_right (by omega) ?_)
  split <;> omega

end Flags

section Pointers

theorem land_mask {x k : ℕ} (hx : x < 2 ^ 32) (hdvd : 2 ^ k ∣ x) :
    x &&& u32 (0xFFFFFFFF <<< k) = x := by
  obtain ⟨y, rfl⟩ := hdvd
  apply Nat.eq_of_testBit_eq
  intro i
  rw [Nat.testBit_and, u32, Nat.testBit_mod_two_pow, Nat.testBit_shiftLeft,
    show 0xFFFFFFFF = 2 ^ 32 - 1 by norm_num, Nat.testBit_two_pow_sub_one, Nat.testBit_two_pow_mul]
  by_cases hi : i < 32
  · by_cases hk : i ≥ k
    · simp [hi, hk, show i - k < 32 by omega]
    · simp [hk]
  · have hzero : (2 ^ k * y).testBit i = false :=
      Nat.testBit_lt_two_pow (hx.trans_le (Nat.pow_le_pow_right (by omega) (by omega)))
    rw [Nat.testBit_two_pow_mul] at hzero
    simp [hi, hzero]

/-- The address of a block. -/
def addrOf (n chunk t b : ℕ) : ℕ := chunk + b * blockBytes n t

/-- An address at a multiple of a tier's block size names the block there. -/
theorem Geometry.blockIdOf_ok (h : Geometry n s) (ht : t < n) (hb : b < 2 ^ t) :
    s.blockIdOf t (addrOf n s.chunk t b) = .ok b := by
  have hpos := blockBytes_pos (n := n) (t := t)
  have hend := block_end_le (n := n) (t := t) (by omega) hb
  rw [Nat.succ_mul] at hend
  have hcap := capacity_lt h.le
  have hoff : u32 (addrOf n s.chunk t b - s.chunk) = b * blockBytes n t := by
    rw [addrOf, Nat.add_sub_cancel_left, u32_of_lt (by omega)]
  have hmask : ∀ k, 2 ^ k ∣ blockBytes n t →
      b * blockBytes n t &&& u32 (0xFFFFFFFF <<< k) = b * blockBytes n t :=
    fun k hk => land_mask (by omega) (Dvd.dvd.mul_left hk b)
  have hge : addrOf n s.chunk t b ≥ s.chunk := Nat.le_add_right _ _
  have hlt : b * blockBytes n t < s.capacity := by
    rw [h.capacity_eq]
    omega
  have hmin := hmask minSizePowOf2 (Nat.pow_dvd_pow 2 (by rw [minSizePowOf2]; omega))
  have htier := hmask (minSizePowOf2 + s.tierNum - t - 1)
    (Nat.pow_dvd_pow 2 (by rw [minSizePowOf2, h.tierNum_eq]; omega))
  have hvalid : s.isValidPtr (addrOf n s.chunk t b) = .ok true := by
    simp only [isValidPtr, xpfAssert_ok hge, ok_bind, if_neg (not_lt.mpr hge), hoff,
      xpfAssert_ok hlt, if_neg (not_le.mpr hlt), hmin, xpfAssert_true]
    rfl
  simp only [blockIdOf, hvalid, ok_bind, xpfAssert_true, hoff, htier, h.blockSizeOf_ok ht, ne_eq,
    not_true_eq_false, if_false, Nat.mul_div_cancel b hpos]
  rfl

theorem addrOf_below (htu : t ≤ u) (hu : u ≤ n + 3) (chunk b : ℕ) :
    addrOf n chunk t b = addrOf n chunk u (b * 2 ^ (u - t)) := by
  rw [addrOf, addrOf, blockBytes_scale htu hu, Nat.mul_assoc]

theorem addrOf_inj (h : addrOf n s.chunk t b = addrOf n s.chunk t c) : b = c := by
  have hpos := blockBytes_pos (n := n) (t := t)
  rw [addrOf, addrOf, Nat.add_left_cancel_iff] at h
  exact Nat.eq_of_mul_eq_mul_right hpos h

end Pointers
end BuddyAllocatorDetails
end LibXpf.Allocators
