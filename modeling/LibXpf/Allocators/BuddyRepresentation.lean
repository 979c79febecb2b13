import LibXpf.Allocators.BuddyBlocks

/-! # The buddy map a `BuddyAllocator` represents

The flags hold one bit for every block in use and the chain of each tier holds
the records of its free blocks. `recycle` and `obtain` keep this and write to no
byte outside free blocks and the block in hand.
-/
namespace LibXpf.Allocators
open ByteMemory LinkedChain BuddySystem BuddyMap

namespace BuddyAllocatorDetails
variable {space : AddressSpace} {s : BuddyAllocatorDetails space} {n t u b c x chunk : ℕ}
  {m m' : BuddyMap n}

section Bytes

/-- The bytes of a block. -/
def InBlock (n chunk t b x : ℕ) : Prop := addrOf n chunk t b ≤ x ∧ x < addrOf n chunk t (b + 1)

/-- The bytes of free blocks. -/
def FreeByte (m : BuddyMap n) (chunk x : ℕ) : Prop := ∃ t b, m.node t b = .free ∧ InBlock n chunk t b x

theorem addrOf_succ (n chunk t b : ℕ) : addrOf n chunk t (b + 1) = addrOf n chunk t b + blockBytes n t := by
  rw [addrOf, addrOf, Nat.succ_mul, Nat.add_assoc]

theorem inBlock_iff : InBlock n chunk t b x ↔ chunk ≤ x ∧ cell (n + 3) t (x - chunk) = b := by
  have hpos := blockBytes_pos (n := n) (t := t)
  have hlow := Nat.le_div_iff_mul_le (x := b) (y := x - chunk) hpos
  have hhigh := Nat.div_lt_iff_lt_mul (x := x - chunk) (y := b + 1) hpos
  have hge : chunk ≤ addrOf n chunk t b := Nat.le_add_right _ _
  change _ ↔ chunk ≤ x ∧ (x - chunk) / blockBytes n t = b
  unfold InBlock addrOf at *
  constructor
  · rintro ⟨hlo, hhi⟩
    have := hlow.mpr (by omega)
    have := hhigh.mpr (by omega)
    omega
  · rintro ⟨hle, hdiv⟩
    have := hlow.mp (by omega)
    have := hhigh.mp (by omega)
    omega

theorem leaf_eq (hb : m.Leaf t b) (hc : m.Leaf u c) (hxb : InBlock n chunk t b x)
    (hxc : InBlock n chunk u c x) : t = u ∧ b = c := by
  obtain ⟨-, rfl⟩ := inBlock_iff.mp hxb
  obtain ⟨-, rfl⟩ := inBlock_iff.mp hxc
  obtain rfl := m.leaf_unique (by omega) hb hc
  exact ⟨rfl, rfl⟩

theorem inBlock_parent (ht : t < n) (h : InBlock n chunk (t + 1) c x) :
    InBlock n chunk t (c / 2) x := by
  obtain ⟨hle, rfl⟩ := inBlock_iff.mp h
  have hhalf := cell_add (S := n + 3) (x := x - chunk) (Nat.le_succ t) (by omega)
  simp only [Nat.succ_eq_add_one, Nat.add_sub_cancel_left, pow_one] at hhalf
  exact inBlock_iff.mpr ⟨hle, hhalf.symm⟩

theorem inBlock_child (ht : t < n) (h : InBlock n chunk t b x) :
    ∃ c, c / 2 = b ∧ InBlock n chunk (t + 1) c x := by
  obtain ⟨hle, rfl⟩ := inBlock_iff.mp h
  have hhalf := cell_add (S := n + 3) (x := x - chunk) (Nat.le_succ t) (by omega)
  simp only [Nat.succ_eq_add_one, Nat.add_sub_cancel_left, pow_one] at hhalf
  exact ⟨_, hhalf, inBlock_iff.mpr ⟨hle, rfl⟩⟩

end Bytes

section Records

/-- The record of a block, in its last bytes. -/
def recordOf (space : AddressSpace) (n chunk t b : ℕ) : ℕ :=
  addrOf n chunk t (b + 1) - sizeofFreeBlockRecord space

theorem record_fits (space : AddressSpace) (chunk b : ℕ) (ht : t < n) :
    addrOf n chunk t b ≤ recordOf space n chunk t b ∧
    recordOf space n chunk t b + 2 * space.sizeofPointer = addrOf n chunk t (b + 1) := by
  have hge := blockBytes_ge ht
  have hfits : 2 * space.sizeofPointer ≤ 16 := space.recordFits
  have hsucc := addrOf_succ n chunk t b
  unfold recordOf sizeofFreeBlockRecord
  omega

theorem outside_record (ht : t < n) (hx : ¬ InBlock n chunk t b x) :
    x < recordOf space n chunk t b ∨ recordOf space n chunk t b + 2 * space.sizeofPointer ≤ x := by
  have hfits := record_fits space chunk b ht
  unfold InBlock at hx
  omega

theorem addrOf_mono (n chunk t : ℕ) (h : b ≤ c) : addrOf n chunk t b ≤ addrOf n chunk t c :=
  Nat.add_le_add_left (Nat.mul_le_mul_right _ h) _

theorem record_apart (ht : t < n) (hne : b ≠ c) :
    Apart (recordOf space n chunk t b) (2 * space.sizeofPointer)
      (recordOf space n chunk t c) (2 * space.sizeofPointer) := by
  have hb := record_fits space chunk b ht
  have hc := record_fits space chunk c ht
  rcases Nat.lt_or_gt_of_ne hne with hlt | hlt
  · have := addrOf_mono n chunk t (show b + 1 ≤ c by omega)
    left
    omega
  · have := addrOf_mono n chunk t (show c + 1 ≤ b by omega)
    right
    omega

theorem Geometry.pointer_pos (h : Geometry n s) : 0 < space.sizeofPointer := by
  by_contra hzero
  have hspace := h.inSpace
  have hchunk := h.chunk_ne
  have hcap : 0 < 2 ^ (n + 3) := Nat.two_pow_pos _
  rw [show space.sizeofPointer = 0 by omega, pow_zero] at hspace
  omega

theorem Geometry.record_valid (h : Geometry n s) (ht : t < n) (hb : b < 2 ^ t) :
    recordOf space n s.chunk t b ≠ 0 ∧ recordOf space n s.chunk t b < 256 ^ space.sizeofPointer := by
  have hfits := record_fits space s.chunk b ht
  have hpos := h.pointer_pos
  have hend := block_end_le (n := n) (t := t) (by omega) hb
  have hspace := h.inSpace
  have hchunk := h.chunk_ne
  have hge : s.chunk ≤ addrOf n s.chunk t b := Nat.le_add_right _ _
  unfold addrOf at *
  omega

theorem Geometry.freeBlockRecord_eq (h : Geometry n s) (ht : t < n) (hb : b < 2 ^ t) :
    s.freeBlockRecord (blockBytes n t) b = recordOf space n s.chunk t b := by
  have hcap := capacity_lt h.le
  have hend := block_end_le (n := n) (t := t) (by omega) hb
  have hle : b + 1 ≤ (b + 1) * blockBytes n t := Nat.le_mul_of_pos_right _ blockBytes_pos
  rw [freeBlockRecord, u32_of_lt (n := b + 1) (by omega), Nat.mul_comm, u32_of_lt (by omega)]
  rfl

theorem Geometry.blockId_of_record (h : Geometry n s) (ht : t < n) (hb : b < 2 ^ t) :
    u32 (recordOf space n s.chunk t b - s.chunk) / blockBytes n t = b := by
  have hfits := record_fits space s.chunk b ht
  have hpos := h.pointer_pos
  have hcap := capacity_lt h.le
  have hend := block_end_le (n := n) (t := t) (by omega) hb
  have hmem : InBlock n s.chunk t b (recordOf space n s.chunk t b) := ⟨hfits.1, by omega⟩
  rw [u32_of_lt]
  · exact (inBlock_iff.mp hmem).2
  · unfold addrOf at hfits
    omega

end Records

section Matching

/-- The flags hold the in-use bits of the map. -/
def FlagsMatch (m : BuddyMap n) (flags : ℕ → UInt8) : Prop :=
  ∀ t b, t < n → b < 2 ^ t → (flagBit flags (2 ^ t + b) = true ↔ m.InUse t b)

/-- The chain of every tier holds the records of its free blocks. -/
def ChainsMatch (space : AddressSpace) (m : BuddyMap n) (chunk : ℕ) (mem : Memory) (head : ℕ → ℕ) : Prop :=
  ∀ t, t < n → ∃ ids : List ℕ,
    Chain space.sizeofPointer mem (head t) (ids.map (recordOf space n chunk t)) ∧
    ∀ b, b ∈ ids ↔ m.node t b = .free

variable {flags : ℕ → UInt8} {mem mem' : Memory} {head : ℕ → ℕ}

theorem FlagsMatch.set (h : FlagsMatch m flags) (hb : b < 2 ^ t) {val : Bool}
    (hm : ∀ u c, c < 2 ^ u → (m'.InUse u c ↔ if u = t ∧ c = b then val = true else m.InUse u c)) :
    FlagsMatch m' (setFlagBit flags (2 ^ t + b) val) := by
  intro u c hu hc
  rw [flagBit_setFlagBit, hm u c hc]
  by_cases hsame : u = t ∧ c = b
  · obtain ⟨rfl, rfl⟩ := hsame
    simp
  · have hne : 2 ^ u + c ≠ 2 ^ t + b := fun heq => hsame (flagIndex_inj hc hb heq)
    rw [if_neg hne, if_neg hsame]
    exact h u c hu hc

/-- Only the chain of tier `t` changes when writes stay inside leaves of that tier. -/
theorem ChainsMatch.retier (h : ChainsMatch space m chunk mem head) {first : ℕ} (ids : List ℕ)
    (hchain : Chain space.sizeofPointer mem' first (ids.map (recordOf space n chunk t)))
    (hids : ∀ b, b ∈ ids ↔ m'.node t b = .free)
    (hfree : ∀ u c, u ≠ t → (m'.node u c = .free ↔ m.node u c = .free))
    (hmem : ∀ x, (∀ c, m.Leaf t c → ¬ InBlock n chunk t c x) → mem' x = mem x) :
    ChainsMatch space m' chunk mem' (Function.update head t first) := by
  intro u hu
  by_cases hut : u = t
  · subst hut
    exact ⟨ids, by simpa using hchain, hids⟩
  · obtain ⟨ids', hchain', hids'⟩ := h u hu
    refine ⟨ids', ?_, fun c => (hids' c).trans (hfree u c hut).symm⟩
    rw [Function.update_of_ne hut]
    refine hchain'.congr ?_
    intro a ha x hlo hhi
    obtain ⟨c, hc, rfl⟩ := List.mem_map.mp ha
    have hfits := record_fits space chunk c hu
    apply hmem
    intro d hd hxd
    exact hut (leaf_eq (Or.inr ((hids' c).mp hc)) hd ⟨by omega, by omega⟩ hxd).1

/-- The records of a chain, and one more, are apart from an address outside their blocks. -/
theorem outside_records (space : AddressSpace) (ht : t < n) {ids : List ℕ}
    (hx : ∀ c ∈ ids, ¬ InBlock n chunk t c x) :
    ∀ a ∈ ids.map (recordOf space n chunk t),
      x < a ∨ a + 2 * space.sizeofPointer ≤ x := by
  intro a ha
  obtain ⟨c, hc, rfl⟩ := List.mem_map.mp ha
  exact outside_record ht (hx c hc)

end Matching

/-- The allocator holds the map `m`. -/
structure Represents (m : BuddyMap n) (s : BuddyAllocatorDetails space) : Prop where
  geometry : Geometry n s
  flags : FlagsMatch m s.flags
  chains : ChainsMatch space m s.chunk s.mem s.freeChainHead

/-- What the operations on blocks leave alone. -/
structure Kept (s s' : BuddyAllocatorDetails space) : Prop where
  chunk : s'.chunk = s.chunk
  usedBytes : s'.usedBytes = s.usedBytes
  hwmBytes : s'.hwmBytes = s.hwmBytes

theorem Kept.trans {s' s'' : BuddyAllocatorDetails space} (h : Kept s s') (h' : Kept s' s'') :
    Kept s s'' :=
  ⟨h'.chunk.trans h.chunk, h'.usedBytes.trans h.usedBytes, h'.hwmBytes.trans h.hwmBytes⟩

section Elsewhere
variable {α : Type} {f : BuddyAllocatorDetails space → α} {s' : BuddyAllocatorDetails space}

/-- What flags, chains and the bytes of the chunk have no part in. -/
structure Elsewhere (f : BuddyAllocatorDetails space → α) : Prop where
  flags : ∀ s v, f { s with flags := v } = f s
  chains : ∀ s mem head, f { s with mem := mem, freeChainHead := head } = f s

theorem Elsewhere.setBlockInUse (h : Elsewhere f) {val : Bool}
    (hrun : s.setBlockInUse t b val = .ok s') : f s' = f s := by
  obtain ⟨_, -, hrun⟩ := ok_of_bind hrun
  dsimp only at hrun
  split at hrun
  · cases hrun
    exact h.flags s _
  · cases hrun
    exact h.flags s _

theorem Elsewhere.recycleFlag (h : Elsewhere f) (hrun : s.recycleFlag t b = .ok s') : f s' = f s := by
  obtain ⟨_, -, hrun⟩ := ok_of_bind hrun
  obtain ⟨_, -, hrun⟩ := ok_of_bind hrun
  exact h.setBlockInUse hrun

theorem Elsewhere.recyclePush (h : Elsewhere f) (hrun : s.recyclePush t b = .ok s') : f s' = f s := by
  obtain ⟨_, -, hrun⟩ := ok_of_bind hrun
  cases hrun
  exact h.chains s _ _

theorem Elsewhere.recycleUnlink (h : Elsewhere f) (hrun : s.recycleUnlink t b = .ok s') :
    f s' = f s := by
  obtain ⟨_, -, hrun⟩ := ok_of_bind hrun
  cases hrun
  exact h.chains s _ _

theorem Elsewhere.recycle (h : Elsewhere f) (hrun : s.recycle t b = .ok s') : f s' = f s := by
  induction t generalizing s b with
  | zero =>
    obtain ⟨u, hflag, hrun⟩ := ok_of_bind hrun
    exact (h.recyclePush hrun).trans (h.recycleFlag hflag)
  | succ t ih =>
    obtain ⟨u, hflag, hrun⟩ := ok_of_bind hrun
    obtain ⟨inUse, -, hrun⟩ := ok_of_bind hrun
    have hu := h.recycleFlag hflag
    split at hrun
    · exact (h.recyclePush hrun).trans hu
    · obtain ⟨v, hunlink, hrun⟩ := ok_of_bind hrun
      exact (ih hrun).trans ((h.recycleUnlink hunlink).trans hu)

theorem Elsewhere.obtainFirst (h : Elsewhere f) (hrun : s.obtainFirst t = .ok (b, s')) :
    f s' = f s := by
  obtain ⟨_, -, hrun⟩ := ok_of_bind hrun
  obtain ⟨u, hset, hrun⟩ := ok_of_bind hrun
  cases hrun
  exact (h.setBlockInUse hset).trans (h.chains s _ _)

theorem Elsewhere.obtainBlock (h : Elsewhere f) (hrun : s.obtainBlock t = .ok (b, s')) :
    f s' = f s := by
  induction t generalizing b s' with
  | zero =>
    rw [BuddyAllocatorDetails.obtainBlock] at hrun
    split at hrun
    · exact h.obtainFirst hrun
    · cases hrun
      rfl
  | succ t ih =>
    rw [BuddyAllocatorDetails.obtainBlock] at hrun
    split at hrun
    · exact h.obtainFirst hrun
    · obtain ⟨⟨upper, u⟩, hupper, hrun⟩ := ok_of_bind hrun
      have hu := ih hupper
      dsimp only at hrun
      split at hrun
      · obtain ⟨v, hfirst, hrun⟩ := ok_of_bind hrun
        obtain ⟨x, hsecond, hrun⟩ := ok_of_bind hrun
        obtain ⟨y, hrecycle, hrun⟩ := ok_of_bind hrun
        cases hrun
        calc f s' = f x := h.recycle hrecycle
          _ = f v := h.setBlockInUse hsecond
          _ = f u := h.setBlockInUse hfirst
          _ = f s := hu
      · cases hrun
        exact hu

/-- The chunk and the counters are such values. -/
theorem kept_of_elsewhere
    (h : ∀ f : BuddyAllocatorDetails space → ℕ, Elsewhere f → f s' = f s) : Kept s s' where
  chunk := h (·.chunk) ⟨fun _ _ => rfl, fun _ _ _ => rfl⟩
  usedBytes := h (·.usedBytes) ⟨fun _ _ => rfl, fun _ _ _ => rfl⟩
  hwmBytes := h (·.hwmBytes) ⟨fun _ _ => rfl, fun _ _ _ => rfl⟩

end Elsewhere

end BuddyAllocatorDetails
end LibXpf.Allocators
