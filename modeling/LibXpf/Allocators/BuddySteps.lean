import LibXpf.Allocators.BuddyObtain
import Mathlib.Data.List.Find
import Mathlib.Data.Nat.Log

/-! # What each `BuddyAllocator` operation does to the buddy map

Every operation succeeds on the arguments its callers owe it. Besides the map,
each result says which bytes of the chunk can have changed.
-/
namespace LibXpf.Allocators
open ByteMemory LinkedChain BuddySystem BuddyMap

namespace BuddyAllocatorDetails
variable {space : AddressSpace} {s : BuddyAllocatorDetails space} {n t u b c size : ℕ}
  {m m' : BuddyMap n}

/-- The map `m`, with the live bytes counted. -/
structure Accounted (m : BuddyMap n) (s : BuddyAllocatorDetails space) : Prop extends
    Represents m s where
  used : s.usedBytes = m.liveBytes (n + 3)

theorem Accounted.used_le (h : Accounted m s) : s.usedBytes ≤ 2 ^ (n + 3) :=
  h.used.trans_le (liveBytes_le (by omega))

/-- Records lie in free bytes, so writes elsewhere in the chunk keep the map. -/
theorem Accounted.write (h : Accounted m s) {mem' : Memory}
    (hmem : ∀ x, FreeByte m s.chunk x → mem' x = s.mem x) :
    Accounted m ({ s with mem := mem' } : BuddyAllocatorDetails space) := by
  refine ⟨⟨h.geometry.congr rfl rfl rfl, h.flags, ?_⟩, h.used⟩
  intro u hu
  obtain ⟨ids, hchain, hids⟩ := h.chains u hu
  refine ⟨ids, hchain.congr ?_, hids⟩
  intro a ha x hlo hhi
  obtain ⟨c, hc, rfl⟩ := List.mem_map.mp ha
  have hfits := record_fits space s.chunk c hu
  exact hmem x ⟨u, c, (hids c).mp hc, by omega, by omega⟩

theorem not_freeByte {chunk x : ℕ} (hlive : m.node t b = .live) (hx : InBlock n chunk t b x) :
    ¬ FreeByte m chunk x := by
  rintro ⟨u, c, hc, hxc⟩
  obtain ⟨rfl, rfl⟩ := leaf_eq (Or.inl hlive) (Or.inr hc) hx hxc
  simp [hc] at hlive

section Alloc

/-- `alloc` hands out a block of the tier that serves the size, or changes nothing. -/
theorem Accounted.alloc_spec (h : Accounted m s) (size : ℕ) :
    (s.alloc size = .ok (NULL, s) ∧
      (tierFor n size = invalidValue ∨ ∀ u ≤ tierFor n size, ∀ c, m.node u c ≠ .free)) ∨
    ∃ b, ∃ s' : BuddyAllocatorDetails space, ∃ m' : BuddyMap n,
      s.alloc size = .ok (addrOf n s.chunk (tierFor n size) b, s') ∧ tierFor n size < n ∧
      Accounted m' s' ∧ Obtained s.chunk m m' (tierFor n size) b ∧ s'.chunk = s.chunk ∧
      ∀ x, ¬ FreeByte m s.chunk x → s'.mem x = s.mem x := by
  have hle := h.geometry.le
  by_cases hinv : tierFor n size = invalidValue
  · refine Or.inl ⟨?_, Or.inl hinv⟩
    simp only [alloc, h.geometry.tierOf_eq, hinv, if_true, pure_eq_ok]
  have ht := tierFor_lt hle hinv
  rcases h.obtainBlock_spec ht with ⟨hrun, hnone⟩ | ⟨b, s₁, m₁, hrun, hrep, hob, hkept, hframe⟩
  · refine Or.inl ⟨?_, Or.inr hnone⟩
    simp only [alloc, h.geometry.tierOf_eq, hinv, if_false, hrun, ok_bind, if_true, pure_eq_ok]
  · right
    have hvalid := ne_invalidValue hle ht hob.lt
    have hnew : m.node (tierFor n size) b ≠ .live := fun hl => hob.unused (Or.inl hl)
    have hbytes := liveBytes_add (S := n + 3) hnew hob.live
    have hfits := liveBytes_le (m := m₁) (S := n + 3) (by omega)
    have hcap := capacity_lt hle
    have hadd : u32 (s₁.usedBytes + blockBytes n (tierFor n size)) = m₁.liveBytes (n + 3) := by
      rw [hkept.usedBytes, h.used, blockBytes, ← hbytes, u32_of_lt (by omega)]
    have hend := block_end_le (n := n) (t := tierFor n size) (by omega) hob.lt
    rw [Nat.succ_mul] at hend
    have hprod : u32 (b * blockBytes n (tierFor n size)) = b * blockBytes n (tierFor n size) :=
      u32_of_lt (by omega)
    let used := u32 (s₁.usedBytes + blockBytes n (tierFor n size))
    have hresult : s.alloc size = .ok (addrOf n s.chunk (tierFor n size) b,
        { s₁ with usedBytes := used, hwmBytes := if used > s₁.hwmBytes then used else s₁.hwmBytes }) := by
      simp only [alloc, h.geometry.tierOf_eq, hinv, if_false, hrun, ok_bind, hvalid,
        hrep.geometry.blockSizeOf_ok ht, hprod, hkept.chunk, pure_eq_ok]
      rfl
    exact ⟨b, _, m₁, hresult, ht,
      ⟨⟨hrep.geometry.congr rfl rfl rfl, hrep.flags, hrep.chains⟩, hadd⟩, hob, hkept.chunk, hframe⟩

theorem Geometry.addrOf_ne_null (h : Geometry n s) (t b : ℕ) : addrOf n s.chunk t b ≠ NULL := by
  have hchunk := h.chunk_ne
  rw [addrOf, NULL]
  omega

end Alloc

section Release

/-- Giving back a live block. -/
theorem Accounted.recycleUsed_spec (h : Accounted m s) (hlive : m.node t b = .live) :
    ∃ s' : BuddyAllocatorDetails space, ∃ m' : BuddyMap n,
      s.recycleUsed t b = .ok s' ∧ Accounted m' s' ∧ Recycled s.chunk m m' t b ∧
      s'.chunk = s.chunk ∧
      ∀ x, ¬ InBlock n s.chunk t b x → ¬ FreeByte m s.chunk x → s'.mem x = s.mem x := by
  obtain ⟨ht, -⟩ := m.inside (t := t) (b := b) (by simp [hlive])
  obtain ⟨s₁, m₁, hrun, hrep, hrec, hkept, hframe⟩ := h.recycle_spec hlive
  have hbytes := liveBytes_remove (S := n + 3) hlive hrec.live
  have hle := h.used_le
  have hcap := capacity_lt h.geometry.le
  have hsub : u32Sub s₁.usedBytes (blockBytes n t) = m₁.liveBytes (n + 3) := by
    have hused := h.used
    rw [hkept.usedBytes, blockBytes, u32Sub_of_le (by omega) (by omega)]
    omega
  have hresult : s.recycleUsed t b = .ok { s₁ with usedBytes := u32Sub s₁.usedBytes (blockBytes n t) } := by
    simp only [recycleUsed, hrun, ok_bind, hrep.geometry.blockSizeOf_ok ht, pure_eq_ok]
  exact ⟨_, m₁, hresult, ⟨⟨hrep.geometry.congr rfl rfl rfl, hrep.flags, hrep.chains⟩, hsub⟩, hrec,
    hkept.chunk, hframe⟩

/-- The search from the lowest tier up stops at the live block of the address. -/
theorem Represents.locateLoop_spec (h : Represents m s) (hlive : m.node t b = .live) {tiers : ℕ}
    (htiers : tiers ≤ n) (hlow : t < tiers) :
    s.locateLoop (addrOf n s.chunk t b) tiers = .ok (some (t, b)) := by
  obtain ⟨ht, hb⟩ := m.inside (t := t) (b := b) (by simp [hlive])
  induction tiers with
  | zero => omega
  | succ u ih =>
    have hid : b * 2 ^ (u - t) < 2 ^ u := by
      calc b * 2 ^ (u - t) < 2 ^ t * 2 ^ (u - t) :=
            Nat.mul_lt_mul_of_pos_right hb (Nat.two_pow_pos _)
        _ = 2 ^ u := by rw [← pow_add, show t + (u - t) = u by omega]
    have hblock : s.blockIdOf u (addrOf n s.chunk t b) = .ok (b * 2 ^ (u - t)) := by
      rw [addrOf_below (show t ≤ u by omega) (by omega)]
      exact h.geometry.blockIdOf_ok (by omega) hid
    have hvalid := ne_invalidValue h.geometry.le (show u < n by omega) hid
    have hflag := h.flags u (b * 2 ^ (u - t)) (by omega) hid
    have hbit := h.geometry.isBlockInUse_ok (show u < n by omega) hid
    simp only [locateLoop, hblock, ok_bind, xpfAssert_ok hvalid, if_neg hvalid, hbit]
    by_cases hut : u = t
    · subst hut
      simp only [Nat.sub_self, pow_zero, mul_one] at hflag ⊢
      rw [if_pos (hflag.mpr (Or.inl hlive))]
      rfl
    · -- below the block nothing is in use
      have hclear : ¬ flagBit s.flags (2 ^ u + b * 2 ^ (u - t)) = true := by
        rw [hflag]
        intro huse
        obtain ⟨k, rfl⟩ : ∃ k, u = t + k + 1 := ⟨u - t - 1, by omega⟩
        have hsplit := split_above huse.ne_absent
        rw [show t + k + 1 - t = k + 1 by omega, Nat.mul_div_cancel _ (Nat.two_pow_pos _)] at hsplit
        simp [hsplit] at hlive
      rw [if_neg hclear]
      exact ih (by omega) (by omega)

theorem Represents.locateBlockInUse_spec (h : Represents m s) (hlive : m.node t b = .live) :
    s.locateBlockInUse (addrOf n s.chunk t b) = .ok (some (t, b)) := by
  obtain ⟨ht, -⟩ := m.inside (t := t) (b := b) (by simp [hlive])
  rw [locateBlockInUse, h.geometry.tierNum_eq]
  exact h.locateLoop_spec hlive le_rfl ht

theorem Represents.free_eq (h : Represents m s) (hlive : m.node t b = .live) :
    s.free (addrOf n s.chunk t b) = s.recycleUsed t b := by
  simp [free, h.locateBlockInUse_spec hlive]

theorem Represents.dealloc_eq (h : Represents m s) (hlive : m.node t b = .live)
    (hsize : tierFor n size = t) : s.dealloc (addrOf n s.chunk t b) size = s.recycleUsed t b := by
  obtain ⟨ht, hb⟩ := m.inside (t := t) (b := b) (by simp [hlive])
  have htier : t ≠ invalidValue := by
    have hle := h.geometry.le
    rw [invalidValue]
    omega
  have hvalid := ne_invalidValue h.geometry.le ht hb
  simp only [dealloc, h.geometry.tierOf_eq, hsize, xpfAssert_ok htier, ok_bind, if_neg htier,
    h.geometry.blockIdOf_ok ht hb, xpfAssert_ok hvalid, if_pos hvalid]

end Release

section Realloc

/-- What `realloc` to a nonzero size can do to the live block `(t, b)`. -/
inductive Reallocated (m : BuddyMap n) (s : BuddyAllocatorDetails space) (t b size : ℕ) :
    ℕ → BuddyAllocatorDetails space → Prop
  | failed : Reallocated m s t b size NULL s
  | kept (hsize : tierFor n size = t) : Reallocated m s t b size (addrOf n s.chunk t b) s
  | moved (c : ℕ) (s' : BuddyAllocatorDetails space) (m₁ m' : BuddyMap n)
      (htier : tierFor n size < n)
      (obtained : Obtained s.chunk m m₁ (tierFor n size) c)
      (recycled : Recycled s.chunk m₁ m' t b)
      (accounted : Accounted m' s')
      (chunk : s'.chunk = s.chunk)
      (frame : ∀ x, ¬ FreeByte m s.chunk x → ¬ InBlock n s.chunk t b x → s'.mem x = s.mem x)
      (contents : ∀ i < min size (blockBytes n t),
        s'.mem (addrOf n s.chunk (tierFor n size) c + i) = s.mem (addrOf n s.chunk t b + i)) :
      Reallocated m s t b size (addrOf n s.chunk (tierFor n size) c) s'

theorem inBlock_offset (chunk : ℕ) {i : ℕ} (hi : i < blockBytes n t) :
    InBlock n chunk t b (addrOf n chunk t b + i) := by
  have hsucc := addrOf_succ n chunk t b
  exact ⟨by omega, by omega⟩

theorem Accounted.reallocMove_spec (h : Accounted m s) (hlive : m.node t b = .live) (size : ℕ) :
    ∃ q s', s.reallocMove (addrOf n s.chunk t b) size (blockBytes n t) (min size (blockBytes n t)) =
      .ok (q, s') ∧ Reallocated m s t b size q s' := by
  obtain ⟨ht, -⟩ := m.inside (t := t) (b := b) (by simp [hlive])
  rcases h.alloc_spec size with ⟨hrun, -⟩ | ⟨c, s₁, m₁, hrun, htier, hacc, hob, hchunk, hframe⟩
  · refine ⟨NULL, s, ?_, .failed⟩
    simp [reallocMove, hrun]
  · have hne := h.geometry.addrOf_ne_null (tierFor n size) c
    have hlive₁ : m₁.node t b = .live := (hob.live t b).mpr (Or.inl hlive)
    have hnew : m₁.node (tierFor n size) c = .live := (hob.live _ c).mpr (Or.inr ⟨rfl, rfl⟩)
    have hother : ¬ (tierFor n size = t ∧ c = b) := by
      rintro ⟨rfl, rfl⟩
      exact hob.unused (Or.inl hlive)
    have hlen := size_le_of_tierFor h.geometry.le htier
    have hdst : ∀ i < min size (blockBytes n t),
        InBlock n s.chunk (tierFor n size) c (addrOf n s.chunk (tierFor n size) c + i) :=
      fun i hi => inBlock_offset s.chunk (by omega)
    let s₂ : BuddyAllocatorDetails space := { s₁ with
      mem := copy s₁.mem (addrOf n s.chunk (tierFor n size) c) (addrOf n s.chunk t b)
        (min size (blockBytes n t)) }
    have hchunk₂ : s₂.chunk = s.chunk := hchunk
    -- the copy stays inside the new block
    have hin : ∀ x, ¬ InBlock n s.chunk (tierFor n size) c x → s₂.mem x = s₁.mem x := by
      intro x hx
      apply copy_outside
      by_contra hcon
      apply hx
      have := hdst (x - addrOf n s.chunk (tierFor n size) c) (by omega)
      rwa [Nat.add_sub_cancel' (by omega)] at this
    have hcopy : Accounted m₁ s₂ := by
      apply hacc.write
      intro x hx
      rw [hchunk] at hx
      exact hin x (fun hxin => not_freeByte hnew hxin hx)
    obtain ⟨s', m', hfree, hacc', hrec, hchunk', hframe'⟩ := hcopy.recycleUsed_spec hlive₁
    have hdealloc := hcopy.dealloc_eq hlive₁ (tierFor_blockBytes h.geometry.le ht)
    rw [hchunk₂] at hdealloc hrec hchunk' hframe'
    refine ⟨_, s', ?_, .moved c s' m₁ m' htier hob hrec hacc' hchunk' ?_ ?_⟩
    · simp only [reallocMove, hrun, ok_bind, if_pos hne]
      change (s₂.dealloc _ _ >>= _) = _
      rw [hdealloc, hfree, ok_bind]
      rfl
    · intro x hx hxb
      have hxc : ¬ InBlock n s.chunk (tierFor n size) c x := fun hin => hx (hob.inFree x hin)
      rw [hframe' x hxb (fun hf => hx (hob.freeBytes x hf)), hin x hxc, hframe x hx]
    · intro i hi
      have hxc := hdst i hi
      have hnotb : ¬ InBlock n s.chunk t b (addrOf n s.chunk (tierFor n size) c + i) :=
        fun hxb => hother (leaf_eq (Or.inl hnew) (Or.inl hlive₁) hxc hxb)
      have hsrc : InBlock n s.chunk t b (addrOf n s.chunk t b + i) :=
        inBlock_offset s.chunk (by omega)
      have hcopied : s₂.mem (addrOf n s.chunk (tierFor n size) c + i) =
          s₁.mem (addrOf n s.chunk t b + i) := copy_inside hi
      rw [hframe' _ hnotb (not_freeByte hnew hxc), hcopied, hframe _ (not_freeByte hlive hsrc)]

/-- Which way `realloc` of a live block goes. -/
theorem Represents.realloc_eq (h : Represents m s) (hlive : m.node t b = .live) (hsize : size ≠ 0) :
    s.realloc (addrOf n s.chunk t b) size =
      if t = 0 ∧ size > blockBytes n t then .ok (NULL, s)
      else if n - 1 = t ∧ size ≤ blockBytes n t then .ok (addrOf n s.chunk t b, s)
      else if size > blockBytes n t then
        s.reallocMove (addrOf n s.chunk t b) size (blockBytes n t) (blockBytes n t)
      else if size ≤ blockBytes n t / 2 then
        s.reallocMove (addrOf n s.chunk t b) size (blockBytes n t) size
      else .ok (addrOf n s.chunk t b, s) := by
  obtain ⟨ht, -⟩ := m.inside (t := t) (b := b) (by simp [hlive])
  have hne := h.geometry.addrOf_ne_null t b
  have hhalf : blockBytes n t >>> 1 = blockBytes n t / 2 := by simp [Nat.shiftRight_eq_div_pow]
  simp only [realloc, if_neg hne, if_neg hsize, h.locateBlockInUse_spec hlive, ok_bind,
    h.geometry.blockSizeOf_ok ht, h.geometry.tierNum_eq, hhalf, pure_eq_ok]

theorem Accounted.realloc_spec (h : Accounted m s) (hlive : m.node t b = .live) (hsize : size ≠ 0) :
    ∃ q s', s.realloc (addrOf n s.chunk t b) size = .ok (q, s') ∧ Reallocated m s t b size q s' := by
  obtain ⟨ht, -⟩ := m.inside (t := t) (b := b) (by simp [hlive])
  have hle := h.geometry.le
  have hmove := h.reallocMove_spec hlive size
  rw [h.realloc_eq hlive hsize]
  by_cases htop : t = 0 ∧ size > blockBytes n t
  · exact ⟨NULL, s, if_pos htop, .failed⟩
  rw [if_neg htop]
  by_cases hbottom : n - 1 = t ∧ size ≤ blockBytes n t
  · refine ⟨_, s, if_pos hbottom, .kept (tierFor_eq hle ht hbottom.2 (Or.inl (by omega)))⟩
  rw [if_neg hbottom]
  by_cases hgrow : size > blockBytes n t
  · rw [if_pos hgrow]
    rwa [Nat.min_eq_right (by omega)] at hmove
  rw [if_neg hgrow]
  by_cases hshrink : size ≤ blockBytes n t / 2
  · rw [if_pos hshrink]
    rwa [Nat.min_eq_left (by omega)] at hmove
  · exact ⟨_, s, if_neg hshrink, .kept (tierFor_eq hle ht (by omega) (Or.inr (by omega)))⟩

end Realloc

section Available

theorem Represents.head_ne_null_iff (h : Represents m s) (ht : t < n) :
    s.freeChainHead t ≠ NULL ↔ ∃ c, m.node t c = .free := by
  obtain ⟨ids, hchain, hids⟩ := h.chains t ht
  rw [NULL, ne_eq, hchain.head_eq_zero_iff, List.map_eq_nil_iff, ← ne_eq, List.ne_nil_iff_exists_cons]
  constructor
  · rintro ⟨c, rest, rfl⟩
    exact ⟨c, (hids c).mp List.mem_cons_self⟩
  · rintro ⟨c, hc⟩
    obtain ⟨d, rest, hcons⟩ := List.exists_cons_of_ne_nil (List.ne_nil_of_mem ((hids c).mpr hc))
    exact ⟨d, rest, hcons⟩

/-- `available` reads off which tiers have a free block. -/
theorem Represents.available_congr (h : Represents m s) {s' : BuddyAllocatorDetails space}
    (h' : Represents m' s') (hfree : ∀ t c, m.node t c = .free ↔ m'.node t c = .free) :
    s.available = s'.available := by
  have hfind : (List.range n).find? (fun t => s.freeChainHead t ≠ NULL) =
      (List.range n).find? (fun t => s'.freeChainHead t ≠ NULL) := by
    apply List.find?_congr
    intro t ht
    have htier := List.mem_range.mp ht
    have hsame : s.freeChainHead t ≠ NULL ↔ s'.freeChainHead t ≠ NULL := by
      rw [h.head_ne_null_iff htier, h'.head_ne_null_iff htier]
      simp only [hfree]
    exact decide_eq_decide.mpr hsame
  unfold available
  rw [h.geometry.tierNum_eq, h'.geometry.tierNum_eq, hfind]
  cases hsome : (List.range n).find? (fun t => s'.freeChainHead t ≠ NULL) with
  | none => rfl
  | some t =>
    have ht : t < n := List.mem_range.mp (List.mem_of_find?_eq_some hsome)
    simp only [h.geometry.blockSizeOf_ok ht, h'.geometry.blockSizeOf_ok ht]

theorem Represents.available_root (h : Represents m s) (hroot : m.node 0 0 = .free) :
    s.available = .ok s.capacity := by
  have hpos := h.geometry.pos
  have hhead := (h.head_ne_null_iff hpos).mpr ⟨0, hroot⟩
  have hfind : (List.range n).find? (fun t => s.freeChainHead t ≠ NULL) = some 0 := by
    obtain ⟨k, rfl⟩ : ∃ k, n = k + 1 := ⟨n - 1, by omega⟩
    rw [List.range_succ_eq_map, List.find?_cons_of_pos (by simpa using hhead)]
  unfold available
  rw [h.geometry.tierNum_eq, hfind, h.geometry.capacity_eq]
  exact h.geometry.blockSizeOf_ok hpos

end Available

section Construct

/-- The number of tiers for a size: as few as serve it, but no more than there can be. -/
def tiersFor (size : ℕ) : ℕ := min 28 (max 1 (Nat.clog 2 size - 3))

/-- The sizing loop leaves by itself, with as many tiers as serve the size. -/
theorem sizingLoop_eq {k fuel : ℕ} (hk : k < 28) (hfuel : 28 ≤ k + fuel) :
    sizingLoop size fuel (2 ^ (k + 3)) k =
      (2 ^ (min 28 (max k (Nat.clog 2 size - 3)) + 3), min 28 (max k (Nat.clog 2 size - 3))) := by
  induction fuel generalizing k with
  | zero => omega
  | succ fuel ih =>
    have hserves : size ≤ 2 ^ (k + 3) ↔ Nat.clog 2 size ≤ k + 3 :=
      (Nat.clog_le_iff_le_pow Nat.one_lt_two).symm
    by_cases hlt : 2 ^ (k + 3) < size
    · have hmore : k + 3 < Nat.clog 2 size := by
        rw [← not_le, ← hserves]
        exact not_le.mpr hlt
      have hdouble : u32 (2 ^ (k + 3) <<< 1) = 2 ^ (k + 1 + 3) := by
        have hcap := capacity_lt (show k + 1 ≤ 28 by omega)
        rw [Nat.shiftLeft_eq, pow_one, ← pow_succ, show k + 3 + 1 = k + 1 + 3 by omega, u32_of_lt hcap]
      simp only [sizingLoop, if_pos hlt, hdouble]
      by_cases hmax : 1 <<< maxSizePowOf2 = 2 ^ (k + 1 + 3)
      · have hk28 : k + 1 = 28 := by
          rw [maxSizePowOf2, Nat.one_shiftLeft] at hmax
          have := Nat.pow_right_injective le_rfl hmax
          omega
        rw [if_pos hmax, show min 28 (max k (Nat.clog 2 size - 3)) = k + 1 by omega]
      · have hk28 : k + 1 ≠ 28 := by
          rintro h28
          exact hmax (by rw [h28, maxSizePowOf2, Nat.one_shiftLeft])
        rw [if_neg hmax, ih (by omega) (by omega),
          show max (k + 1) (Nat.clog 2 size - 3) = max k (Nat.clog 2 size - 3) by omega]
    · have hless := hserves.mp (not_lt.mp hlt)
      rw [sizingLoop, if_neg hlt, show min 28 (max k (Nat.clog 2 size - 3)) = k by omega]

theorem sizing_eq (size : ℕ) : sizing size = (2 ^ (tiersFor size + 3), tiersFor size) :=
  sizingLoop_eq (k := 1) (by omega) le_rfl

theorem tiersFor_pos (size : ℕ) : 0 < tiersFor size := by
  unfold tiersFor
  omega

theorem tiersFor_le (size : ℕ) : tiersFor size ≤ 28 := by
  unfold tiersFor
  omega

/-- A chunk of which the root alone is marked is one live block. -/
theorem Geometry.represents_whole (hg : Geometry n s) (hpos : 0 < n) (hflags : ∀ i, flagBit s.flags i = false)
    (hhead : ∀ t, s.freeChainHead t = NULL) :
    Represents (whole n hpos) ({ s with flags := setFlagBit s.flags (2 ^ 0 + 0) true } : BuddyAllocatorDetails space) := by
  refine ⟨hg.congr rfl rfl rfl, ?_, ?_⟩
  · intro t b ht hb
    have hone : 2 ^ t + b = 2 ^ 0 + 0 ↔ t = 0 ∧ b = 0 := by
      constructor
      · intro heq
        exact flagIndex_inj hb (by norm_num) heq
      · rintro ⟨rfl, rfl⟩
        rfl
    rw [flagBit_setFlagBit, hflags]
    simp only [hone, InUse, whole]
    by_cases hroot : t = 0 ∧ b = 0 <;> simp [hroot]
  · intro t _
    refine ⟨[], ?_, ?_⟩
    · rw [hhead]
      exact Chain.nil
    · intro b
      simp only [whole, List.not_mem_nil, false_iff]
      split <;> simp

/-- The constructor succeeds with nothing live and nothing counted. -/
theorem construct_spec (size : ℕ) (chunk : MallocBlock space (sizing size).1) (mem : Memory) :
    ∃ s : BuddyAllocatorDetails space, ∃ m : BuddyMap (sizing size).2,
      construct size chunk mem = .ok s ∧ Accounted m s ∧ s.chunk = chunk.addr ∧
      (∀ t b, m.node t b ≠ .live) ∧ s.usedBytes = 0 ∧ s.hwmBytes = 0 := by
  obtain ⟨n, hpos, hle, hsizing⟩ : ∃ n, 0 < n ∧ n ≤ 28 ∧ sizing size = (2 ^ (n + 3), n) :=
    ⟨tiersFor size, tiersFor_pos size, tiersFor_le size, sizing_eq size⟩
  have hcap : (sizing size).1 = 2 ^ (n + 3) := by rw [hsizing]
  have hspace : chunk.addr + 2 ^ (n + 3) ≤ 256 ^ space.sizeofPointer := by
    have := chunk.inSpace
    omega
  have hn : (sizing size).2 = n := by rw [hsizing]
  rw [hn]
  let s₀ : BuddyAllocatorDetails space :=
    { capacity := (sizing size).1
      chunk := chunk.addr
      flagsLen := 1 <<< (if (sizing size).2 ≤ 3 then 0 else (sizing size).2 - 3)
      flags := fun _ => 0
      tierNum := (sizing size).2
      freeChainHead := fun _ => NULL
      usedBytes := 0
      hwmBytes := 0
      mem := mem }
  have hg : Geometry n s₀ := ⟨hn, hcap, hpos, hle, chunk.notNull, hspace⟩
  have hclear : ∀ i, flagBit s₀.flags i = false := fun i => by simp [flagBit, s₀]
  have hrep := hg.represents_whole hpos hclear fun _ => rfl
  have hlive : (whole n hpos).node 0 0 = .live := by simp [whole]
  obtain ⟨s, m, hrun, hrep', hrec, hkept, -⟩ := hrep.recycle_spec hlive
  have hnone : ∀ t b, m.node t b ≠ .live := by
    intro t b hl
    obtain ⟨hl, hne⟩ := (hrec.live t b).mp hl
    simp only [whole] at hl
    split at hl
    · rename_i hroot
      exact hne hroot
    · simp at hl
  refine ⟨s, m, ?_, ⟨hrep', ?_⟩, hkept.chunk, hnone, hkept.usedBytes, hkept.hwmBytes⟩
  · have hset := hg.setBlockInUse_ok hpos (show 0 < 2 ^ 0 by norm_num) true
    have hstart : construct size chunk mem = s₀.setBlockInUse 0 0 true >>= fun s => s.recycle 0 0 := rfl
    rw [hstart, hset, ok_bind]
    exact hrun
  · have hempty : m.liveBlocks = ∅ := by
      ext ⟨t, b⟩
      simp [hnone]
    rw [hkept.usedBytes, liveBytes, hempty]
    rfl

end Construct
end BuddyAllocatorDetails
end LibXpf.Allocators
