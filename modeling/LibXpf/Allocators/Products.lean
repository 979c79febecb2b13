import LibXpf.Allocators.BuddyGrants
import LibXpf.Allocators.LinearBounds

/-! # Counts times sizes

`calloc` of both allocators multiplies in 32 bits, and `Allocator` multiplies in
`size_t` and passes the product on as a 32-bit size. A product that does not fit
is served, when it is served, by a block for what is left of it.
-/
namespace LibXpf.Allocators
open GuardedRuns

/-- The type `size_t`, which is at least as wide as a 32-bit size. -/
structure SizeType where
  bits : ℕ
  wide : 32 ≤ bits

def SizeType.mul (sizeT : SizeType) (a b : ℕ) : ℕ := a * b % 2 ^ sizeT.bits

/-- The conversion to a 32-bit size forgets what `size_t` held beyond it. -/
theorem SizeType.u32_mul (sizeT : SizeType) (a b : ℕ) : u32 (sizeT.mul a b) = u32 (a * b) :=
  Nat.mod_mod_of_dvd _ (Nat.pow_dvd_pow 2 sizeT.wide)

/-- What `allocate` throws. -/
inductive BadAlloc where
  | badAlloc
  deriving DecidableEq

/-- `Allocator<T, ...>` as far as its type decides what it does. -/
structure Allocator where
  sizeT : SizeType
  sizeofValueType : ℕ

namespace Allocator
variable {σ : Type} (a : Allocator) (pool : Interface σ)

def allocate (mPool : σ) (n : ℕ) : Except Fault (Except BadAlloc ℕ × σ) := do
  let (ptr, mPool) ← pool.alloc mPool (u32 (a.sizeT.mul n a.sizeofValueType))
  if ptr = NULL then
    return (.error .badAlloc, mPool)
  return (.ok ptr, mPool)

def deallocate (mPool : σ) (p n : ℕ) : Except Fault σ :=
  pool.dealloc mPool p (u32 (a.sizeT.mul n a.sizeofValueType))

end Allocator

/-- A call that returns a pointer returns one to a block of at least `product`
bytes. -/
def NeverShort {σ : Type} (owned : σ → ℕ → ℕ → Prop) (product : ℕ) (call : Except Fault (ℕ × σ)) : Prop :=
  ∀ p s, call = .ok (p, s) → p ≠ NULL → ∃ bytes, owned s p bytes ∧ product ≤ bytes

/-- The same of a call that throws instead of returning null. -/
def NeverShortOrThrows {σ : Type} (owned : σ → ℕ → ℕ → Prop) (product : ℕ)
    (call : Except Fault (Except BadAlloc ℕ × σ)) : Prop :=
  ∀ p s, call = .ok (.ok p, s) → p ≠ NULL ∧ ∃ bytes, owned s p bytes ∧ product ≤ bytes

/-- `allocate` owes what the `alloc` it calls owes. -/
theorem Allocator.neverShortOrThrows_iff {σ : Type} (a : Allocator) (pool : Interface σ)
    (owned : σ → ℕ → ℕ → Prop) (mPool : σ) (n product : ℕ) :
    NeverShortOrThrows owned product (a.allocate pool mPool n) ↔
      NeverShort owned product (pool.alloc mPool (u32 (n * a.sizeofValueType))) := by
  unfold NeverShortOrThrows NeverShort allocate
  rw [a.sizeT.u32_mul]
  cases pool.alloc mPool (u32 (n * a.sizeofValueType)) with
  | error e =>
    refine iff_of_true ?_ ?_
    · intro p s heq
      cases heq
    · intro p s heq
      cases heq
  | ok r =>
    obtain ⟨q, t⟩ := r
    by_cases hq : q = NULL
    · refine iff_of_true ?_ ?_
      · intro p s heq
        simp [hq] at heq
      · intro p s heq hp
        cases heq
        exact absurd hq hp
    · constructor
      · intro h p s heq hp
        cases heq
        exact (h q t (by simp [hq])).2
      · intro h p s heq
        simp only [ok_bind, if_neg hq, pure_eq_ok, Except.ok.injEq, Prod.mk.injEq] at heq
        obtain ⟨rfl, rfl⟩ := heq
        exact ⟨hq, h q t rfl hq⟩

namespace Buddy
open BuddyAllocatorDetails BuddySystem
variable {space : AddressSpace} {n : ℕ} {m : BuddyMap n} {w : State space}

/-- The block in use at `p` has `bytes` bytes. -/
def OwnedBytes (s : BuddyAllocatorDetails space) (p bytes : ℕ) : Prop :=
  ∃ t b, s.locateBlockInUse p = .ok (some (t, b)) ∧ s.blockSizeOf t = .ok bytes

/-- A pointer granted for a size owns a block of the tier that serves it. -/
theorem Holds.ownedBytes (h : Holds m w) {l : LiveBlock} (hl : l ∈ w.live) (bytes : ℕ) :
    OwnedBytes w.details l.ptr bytes ↔ bytes = blockBytes n (tierFor n l.size) := by
  obtain ⟨b, hlive, hptr⟩ := h.blocks.block_of_live l hl
  obtain ⟨ht, -⟩ := m.inside (t := tierFor n l.size) (b := b) (by simp [hlive])
  have hlocate := h.accounted.locateBlockInUse_spec hlive
  have hbytes := h.accounted.geometry.blockSizeOf_ok ht
  rw [← hptr] at hlocate
  constructor
  · rintro ⟨t, c, hlocate', hbytes'⟩
    obtain ⟨rfl, rfl⟩ := Prod.mk.inj (Option.some.inj (Except.ok.inj (hlocate.symm.trans hlocate')))
    exact (Except.ok.inj (hbytes.symm.trans hbytes')).symm
  · rintro rfl
    exact ⟨_, b, hlocate, hbytes⟩

/-- A call that grants a block for the product modulo `2 ^ 32` is short exactly
when the product does not fit and the block is granted. -/
theorem neverShort_iff {call : Except Fault (ℕ × BuddyAllocatorDetails space)} {product avail p : ℕ}
    {s : BuddyAllocatorDetails space} {live : List LiveBlock} (hcall : call = .ok (p, s))
    (hholds : Holds m ⟨s, granted p (u32 product) live⟩)
    (hnull : p ≠ NULL ↔ 0 < avail ∧ u32 product ≤ avail) :
    NeverShort OwnedBytes product call ↔
      product < 2 ^ 32 ∨ ¬ (0 < avail ∧ u32 product ≤ avail) := by
  rw [← hnull]
  by_cases hp : p = NULL
  · refine iff_of_true ?_ (Or.inr (not_not.mpr hp))
    intro q t heq hq
    obtain ⟨rfl, -⟩ := Prod.mk.inj (Except.ok.inj (hcall.symm.trans heq))
    exact absurd hp hq
  · have hle := hholds.accounted.geometry.le
    have hl : (⟨p, u32 product⟩ : LiveBlock) ∈ granted p (u32 product) live :=
      (mem_granted hp).mpr (Or.inl rfl)
    have howned := fun bytes => hholds.ownedBytes hl bytes
    dsimp only at howned
    obtain ⟨b, hlive, -⟩ := hholds.blocks.block_of_live _ hl
    obtain ⟨ht, -⟩ := m.inside (t := tierFor n (u32 product)) (b := b) (by simp [hlive])
    have hfit := size_le_of_tierFor hle ht
    have hmax := blockBytes_le (n := n) (tierFor n (u32 product))
    have hcap := capacity_lt hle
    constructor
    · intro hsafe
      obtain ⟨bytes, hbytes, hprod⟩ := hsafe p s hcall hp
      rw [howned] at hbytes
      left
      omega
    · rintro (hlt | hnone)
      · intro q t heq _
        obtain ⟨rfl, rfl⟩ := Prod.mk.inj (Except.ok.inj (hcall.symm.trans heq))
        rw [u32_of_lt hlt] at hfit howned
        exact ⟨_, (howned _).mpr rfl, hfit⟩
      · exact absurd hp hnone

theorem Holds.alloc_neverShort_iff (h : Holds m w) {avail : ℕ}
    (havail : ∀ size, Allocates w.details size ↔ 0 < avail ∧ size ≤ avail) (product : ℕ) :
    NeverShort OwnedBytes product (w.details.alloc (u32 product)) ↔
      product < 2 ^ 32 ∨ ¬ (0 < avail ∧ u32 product ≤ avail) := by
  obtain ⟨w', m', hrun, hholds, -⟩ := step_effect w (.alloc (u32 product)) h ⟨trivial, trivial⟩
  obtain ⟨⟨p, s⟩, hcall, hgranted⟩ := ok_of_bind hrun
  cases hgranted
  refine neverShort_iff hcall hholds ?_
  rw [← havail]
  constructor
  · exact fun hp => ⟨p, s, hcall, hp⟩
  · rintro ⟨q, t, hcall', hq⟩
    obtain ⟨rfl, -⟩ := Prod.mk.inj (Except.ok.inj (hcall'.symm.trans hcall))
    exact hq

theorem Holds.calloc_neverShort_iff (h : Holds m w) {avail : ℕ}
    (havail : ∀ size, Allocates w.details size ↔ 0 < avail ∧ size ≤ avail) (num size : ℕ) :
    NeverShort OwnedBytes (num * size) (w.details.calloc num size) ↔
      num * size < 2 ^ 32 ∨ ¬ (0 < avail ∧ u32 (num * size) ≤ avail) := by
  obtain ⟨w', m', hrun, hholds, -⟩ := step_effect w (.calloc num size) h ⟨trivial, trivial⟩
  obtain ⟨⟨p, s⟩, hcall, hgranted⟩ := ok_of_bind hrun
  cases hgranted
  refine neverShort_iff hcall hholds ?_
  rw [← havail]
  obtain ⟨⟨q, t⟩, halloc, hfill⟩ := ok_of_bind hcall
  have hsame : p = q := by
    dsimp only at hfill
    split at hfill <;> (cases hfill; rfl)
  subst hsame
  constructor
  · exact fun hp => ⟨p, t, halloc, hp⟩
  · rintro ⟨q, t', halloc', hq⟩
    obtain ⟨rfl, -⟩ := Prod.mk.inj (Except.ok.inj (halloc'.symm.trans halloc))
    exact hq

theorem Holds.allocates_iff_of_available (h : Holds m w) {avail : ℕ}
    (havail : w.details.available = .ok avail) (size : ℕ) :
    Allocates w.details size ↔ 0 < avail ∧ size ≤ avail := by
  obtain ⟨avail', havail', hiff⟩ := h.allocates_iff_available size
  obtain rfl := Except.ok.inj (havail.symm.trans havail')
  exact hiff

/-- A block that is given back with the count it was asked for is released as `free` releases it. -/
theorem Holds.deallocate_eq (h : Holds m w) {l : LiveBlock} (hl : l ∈ w.live) (a : Allocator) {count : ℕ}
    (hsize : l.size = u32 (count * a.sizeofValueType)) :
    Returns (w.details.free l.ptr) fun s =>
      a.deallocate (BuddyAllocatorDetails.interface space) w.details l.ptr count = .ok s := by
  obtain ⟨s, -, hfree, hdealloc, -⟩ := h.released_spec hl
  refine ⟨s, hfree, ?_⟩
  rw [Allocator.deallocate, a.sizeT.u32_mul, ← hsize]
  exact hdealloc

end Buddy

namespace Linear
open LinearAllocatorDetails
variable {s t : LinearAllocatorDetails} {product p : ℕ}

/-- The bytes from `p` to `Current`, which are those of a cell just made. -/
def OwnedBytes (s : LinearAllocatorDetails) (p bytes : ℕ) : Prop :=
  bytes = s.chunk + s.current - p

/-- The payload made for the product modulo `2 ^ 32` has room for the product
exactly when neither the product nor the size made of it wraps. -/
theorem le_payload_iff : product ≤ cellSize (u32 product) - 8 ↔ product ≤ 2 ^ 32 - 16 := by
  have hlt : u32 product < 2 ^ 32 := Nat.mod_lt _ (by norm_num)
  rcases Nat.lt_or_ge (2 ^ 32 - 16) (u32 product) with hlo | hle
  · have hle : u32 product ≤ product := Nat.mod_le _ _
    rcases Nat.lt_or_ge (2 ^ 32 - 8) (u32 product) with hlo' | hle'
    · rw [cellSize_added hlo' hlt]
      omega
    · rw [cellSize_rounded hlo hle']
      omega
  · rw [cellSize_of_le hle]
    constructor
    · intro hroom
      by_contra hbig
      rcases Nat.lt_or_ge product (2 ^ 32) with hfits | hwraps
      · rw [u32_of_lt hfits] at hle
        omega
      · omega
    · intro hfits
      rw [u32_of_lt (by omega)]
      omega

/-- `alloc` and `calloc` make the same cell. -/
theorem neverShort_iff (h : Bounded s) {call : Except Fault (ℕ × LinearAllocatorDetails)}
    (hcall : ∀ p t, s.alloc (u32 product) = .ok (p, t) → ∃ t', call = .ok (p, t') ∧
      t'.chunk = t.chunk ∧ t'.current = t.current)
    (herror : ∀ e, s.alloc (u32 product) = .error e → call = .error e) :
    NeverShort OwnedBytes product call ↔ product ≤ 2 ^ 32 - 16 ∨
      s.available < cellSize (u32 product) ∨ s.capacity ≤ s.current := by
  have hcases := h.alloc_allocated (u32 product)
  generalize s.alloc (u32 product) = result at hcases hcall herror
  cases hcases with
  | refused hfit =>
    refine iff_of_true ?_ (Or.inr (Or.inl hfit))
    intro p t heq hp
    obtain ⟨t', hrun, -⟩ := hcall NULL s rfl
    obtain ⟨rfl, -⟩ := Prod.mk.inj (Except.ok.inj (hrun.symm.trans heq))
    exact absurd rfl hp
  | pushed t hfit hcur hchunk hcap hcurrent =>
    obtain ⟨t', hrun, hchunk', hcurrent'⟩ := hcall _ t rfl
    have hroom : product ≤ cellSize (u32 product) - 8 ↔ product ≤ 2 ^ 32 - 16 := le_payload_iff
    have hbytes : t'.chunk + t'.current - (s.chunk + s.current + 8) = cellSize (u32 product) - 8 := by
      omega
    constructor
    · intro hsafe
      obtain ⟨bytes, hbytes', hprod⟩ := hsafe _ t' hrun (by simp [NULL])
      have hbytes'' : bytes = cellSize (u32 product) - 8 := hbytes'.trans hbytes
      exact Or.inl (hroom.mp (by omega))
    · rintro (hfits | hrefused | hfull)
      · intro p u heq hp
        obtain ⟨rfl, rfl⟩ := Prod.mk.inj (Except.ok.inj (hrun.symm.trans heq))
        exact ⟨_, hbytes.symm, hroom.mpr hfits⟩
      · omega
      · omega
  | stopped e hfit hcur =>
    refine iff_of_true ?_ (Or.inr (Or.inr hcur))
    intro p t heq
    rw [herror e rfl] at heq
    cases heq

theorem alloc_neverShort_iff (h : Bounded s) :
    NeverShort OwnedBytes product (s.alloc (u32 product)) ↔ product ≤ 2 ^ 32 - 16 ∨
      s.available < cellSize (u32 product) ∨ s.capacity ≤ s.current :=
  neverShort_iff h (fun _ t heq => ⟨t, heq, rfl, rfl⟩) (fun _ heq => heq)

theorem calloc_neverShort_iff (h : Bounded s) (num size : ℕ) :
    NeverShort OwnedBytes (num * size) (s.calloc num size) ↔ num * size ≤ 2 ^ 32 - 16 ∨
      s.available < cellSize (u32 (num * size)) ∨ s.capacity ≤ s.current := by
  refine neverShort_iff h ?_ ?_
  · intro p t heq
    by_cases hp : p = NULL
    · exact ⟨t, by simp [calloc, heq, hp], rfl, rfl⟩
    · exact ⟨{ t with mem := ByteMemory.fill t.mem p 0 (u32 (num * size)) }, by simp [calloc, heq, hp],
        rfl, rfl⟩
  · intro e heq
    simp only [calloc, heq]
    rfl

/-- The count is not used. -/
theorem deallocate_eq (a : Allocator) (s : LinearAllocatorDetails) (p count : ℕ) :
    a.deallocate LinearAllocatorDetails.interface s p count = s.free p := rfl

end Linear

/-- What the two allocators and `Allocator` on either of them do with a product. -/
theorem neverShort_iff_product_fits {space : AddressSpace} (bytes₁ : ℕ)
    (chunk₁ : MallocBlock space (BuddyAllocatorDetails.sizing bytes₁).1) (mem₁ : ByteMemory.Memory)
    (requests₁ : List Request) (b : Buddy.State space)
    (hb : Buddy.Reached bytes₁ chunk₁ mem₁ requests₁ b) (bytes₂ chunk₂ : ℕ)
    (mem₂ : ByteMemory.Memory) (requests₂ : List Request) (l : Linear.State)
    (hl : Linear.Reached bytes₂ chunk₂ mem₂ requests₂ l) (num size n : ℕ) (a : Allocator) :
    (∃ avail, b.details.available = .ok avail ∧
      (NeverShort Buddy.OwnedBytes (num * size) (b.details.calloc num size) ↔
        num * size < 2 ^ 32 ∨ ¬ (0 < avail ∧ u32 (num * size) ≤ avail)) ∧
      (NeverShortOrThrows Buddy.OwnedBytes (n * a.sizeofValueType)
          (a.allocate (BuddyAllocatorDetails.interface space) b.details n) ↔
        n * a.sizeofValueType < 2 ^ 32 ∨ ¬ (0 < avail ∧ u32 (n * a.sizeofValueType) ≤ avail))) ∧
    (NeverShort Linear.OwnedBytes (num * size) (l.details.calloc num size) ↔
      num * size ≤ 2 ^ 32 - 16 ∨
        l.details.available < LinearAllocatorDetails.cellSize (u32 (num * size)) ∨
          l.details.capacity ≤ l.details.current) ∧
    (NeverShortOrThrows Linear.OwnedBytes (n * a.sizeofValueType)
        (a.allocate LinearAllocatorDetails.interface l.details n) ↔
      n * a.sizeofValueType ≤ 2 ^ 32 - 16 ∨
        l.details.available < LinearAllocatorDetails.cellSize (u32 (n * a.sizeofValueType)) ∨
          l.details.capacity ≤ l.details.current) := by
  obtain ⟨m, hm⟩ := hb.holds
  obtain ⟨avail, havail, -⟩ := hm.allocates_iff_available 0
  have hgrants := hm.allocates_iff_of_available havail
  refine ⟨⟨avail, havail, hm.calloc_neverShort_iff hgrants num size, ?_⟩,
    Linear.calloc_neverShort_iff hl.bounded num size, ?_⟩
  · rw [a.neverShortOrThrows_iff]
    exact hm.alloc_neverShort_iff hgrants (n * a.sizeofValueType)
  · rw [a.neverShortOrThrows_iff]
    exact Linear.alloc_neverShort_iff hl.bounded

/-- `Allocator` of an eight-byte type on a 64-bit platform. -/
def allocatorOfWords : Allocator := ⟨⟨64, by norm_num⟩, 8⟩

/-- A fresh `BuddyAllocator` is reached, and has something to offer. -/
theorem Buddy.fresh_reached (size : ℕ) {space : AddressSpace}
    (chunk : MallocBlock space (BuddyAllocatorDetails.sizing size).1) (mem : ByteMemory.Memory) :
    ∃ w, Buddy.Reached size chunk mem [] w ∧ ∃ avail, w.details.available = .ok avail ∧ 0 < avail := by
  obtain ⟨w, hw, m, hm⟩ := Buddy.fresh_holds size chunk mem
  have hreached : Buddy.Reached size chunk mem [] w := ⟨w, hw, trivial, rfl⟩
  obtain ⟨s, -, hs⟩ := ok_of_bind hw
  cases hs
  refine ⟨_, hreached, _, hm.available_all ?_, ?_⟩
  · rintro t b ⟨l, hl, -⟩
    cases hl
  · rw [hm.accounted.geometry.capacity_eq]
    exact Nat.two_pow_pos _

theorem neverShort_small_products :
    ∃ (b : Buddy.State model64) (l : Linear.State),
      Buddy.Reached 100 Buddy.chunk128 (fun _ => 0) Buddy.movedBlockRun b ∧
      Linear.Reached 1024 4096 (fun _ => 0) Linear.releasedBelowRun l ∧
      NeverShort Buddy.OwnedBytes (3 * 5) (b.details.calloc 3 5) ∧
      NeverShort Linear.OwnedBytes (3 * 5) (l.details.calloc 3 5) ∧
      NeverShortOrThrows Linear.OwnedBytes (7 * 8)
        (allocatorOfWords.allocate LinearAllocatorDetails.interface l.details 7) := by
  obtain ⟨b, hb, -⟩ := Buddy.movedBlockRun_reaches
  obtain ⟨l, hl, -⟩ := Linear.releasedBelowRun_reaches
  obtain ⟨⟨avail, -, hcalloc, -⟩, hlinear, hallocate⟩ := neverShort_iff_product_fits 100
    Buddy.chunk128 (fun _ => 0) Buddy.movedBlockRun b hb 1024 4096 (fun _ => 0) Linear.releasedBelowRun l hl 3 5 7
    allocatorOfWords
  exact ⟨b, l, hb, hl, hcalloc.mpr (Or.inl (by norm_num)), hlinear.mpr (Or.inl (by norm_num)),
    hallocate.mpr (Or.inl (by norm_num [allocatorOfWords]))⟩

/-- A product of `2 ^ 32` bytes is served by every one of them. -/
theorem neverShort_fails :
    (∃ b, Buddy.Reached 100 Buddy.chunk128 (fun _ => 0) [] b ∧
      ¬ NeverShort Buddy.OwnedBytes (65536 * 65536) (b.details.calloc 65536 65536)) ∧
    Linear.Reached 1024 4096 (fun _ => 0) [] (Linear.fresh 1024 4096 (fun _ => 0)) ∧
    ¬ NeverShort Linear.OwnedBytes (65536 * 65536)
        ((Linear.fresh 1024 4096 (fun _ => 0)).details.calloc 65536 65536) ∧
    ¬ NeverShortOrThrows Linear.OwnedBytes (536870912 * 8) (allocatorOfWords.allocate
        LinearAllocatorDetails.interface (Linear.fresh 1024 4096 (fun _ => 0)).details 536870912) := by
  have hfresh := Linear.bounded_fresh 1024 4096 (fun _ => 0)
  have hserved : ¬ ((Linear.fresh 1024 4096 (fun _ => 0)).details.available <
      LinearAllocatorDetails.cellSize (u32 (65536 * 65536)) ∨
        (Linear.fresh 1024 4096 (fun _ => 0)).details.capacity ≤
          (Linear.fresh 1024 4096 (fun _ => 0)).details.current) := by decide
  refine ⟨?_, ⟨trivial, rfl⟩, ?_, ?_⟩
  · obtain ⟨b, hb, avail, havail, hpos⟩ := Buddy.fresh_reached 100 Buddy.chunk128 (fun _ => 0)
    obtain ⟨m, hm⟩ := hb.holds
    refine ⟨b, hb, ?_⟩
    rw [hm.calloc_neverShort_iff (hm.allocates_iff_of_available havail)]
    have hzero : u32 (65536 * 65536) = 0 := by decide
    rw [hzero]
    omega
  · rw [Linear.calloc_neverShort_iff hfresh]
    exact fun h => h.elim (by norm_num) hserved
  · have hwidth : allocatorOfWords.sizeofValueType = 8 := rfl
    have halloc : LinearAllocatorDetails.interface.alloc = LinearAllocatorDetails.alloc := rfl
    rw [allocatorOfWords.neverShortOrThrows_iff, hwidth, halloc, Linear.alloc_neverShort_iff hfresh]
    exact fun h => h.elim (by norm_num) hserved

end LibXpf.Allocators
