import LibXpf.Allocators.BuddyHistories
import LibXpf.Allocators.Contents

/-! # A `BuddyAllocator` is a store of blocks

Every admitted run is a run of a store of blocks. The bytes that callers wrote are there,
through every split, merge and move, until the block is given back.
-/
namespace LibXpf.Allocators
open ByteMemory BuddySystem BuddyMap BlockStore GuardedRuns

namespace Buddy
open BuddyAllocatorDetails
variable {space : AddressSpace} {n : ℕ} {m m' : BuddyMap n} {w w' : State space} {r : Request} {chunk : ℕ}
  {live : List LiveBlock}

theorem addrOf_inj {t b c : ℕ} (h : addrOf n chunk t b = addrOf n chunk t c) : b = c := by
  have hpos := blockBytes_pos (n := n) (t := t)
  unfold addrOf at h
  exact Nat.eq_of_mul_eq_mul_right hpos (Nat.add_left_cancel h)

/-- The bytes of a live pointer are bytes of its block. -/
theorem Matches.inBlock (h : Matches m chunk live) (hn : n ≤ 28) {l : LiveBlock} (hl : l ∈ live) :
    ∃ b, m.node (tierFor n l.size) b = .live ∧ l.ptr = addrOf n chunk (tierFor n l.size) b ∧
      l.size ≤ blockBytes n (tierFor n l.size) := by
  obtain ⟨b, hb, hptr⟩ := h.block_of_live l hl
  obtain ⟨ht, -⟩ := m.inside (t := tierFor n l.size) (b := b) (by simp [hb])
  exact ⟨b, hb, hptr, size_le_of_tierFor hn ht⟩

theorem Holds.separate (h : Holds m w) : Separate w.live := by
  have hn := h.accounted.geometry.le
  refine ⟨h.blocks.distinct, ?_, ?_⟩
  · intro l hl
    obtain ⟨b, -, hptr⟩ := h.blocks.block_of_live l hl
    rw [hptr]
    exact h.accounted.geometry.addrOf_ne_null _ b
  · intro k hk l hl hne
    obtain ⟨b, hb, hkb, hbytes⟩ := h.blocks.inBlock hn hk
    obtain ⟨c, hc, hlc, hlbytes⟩ := h.blocks.inBlock hn hl
    -- a shared byte would lie in two live blocks
    by_contra hshared
    unfold Apart at hshared
    have hbin : InBlock n w.details.chunk (tierFor n k.size) b (max k.ptr l.ptr) := by
      have hsucc := addrOf_succ n w.details.chunk (tierFor n k.size) b
      have hpos := blockBytes_pos (n := n) (t := tierFor n k.size)
      unfold InBlock
      omega
    have hcin : InBlock n w.details.chunk (tierFor n l.size) c (max k.ptr l.ptr) := by
      have hsucc := addrOf_succ n w.details.chunk (tierFor n l.size) c
      have hpos := blockBytes_pos (n := n) (t := tierFor n l.size)
      unfold InBlock
      omega
    obtain ⟨htier, rfl⟩ := leaf_eq (Or.inl hb) (Or.inl hc) hbin hcin
    exact hne (h.blocks.distinct.eq_of_ptr hk hl (hkb.trans ((congrArg (addrOf n _ · b) htier).trans hlc.symm)))

/-- A block that is held before and after is the same block of the map. -/
theorem Holds.kept (h : Holds m w) (h' : Holds m' w') (hchunk : w'.details.chunk = w.details.chunk)
    (hkeeps : KeepsLiveBytes m m' w w' r) (hread : ∀ p i v, r ≠ .write p i v) {l : LiveBlock} (hl : l ∈ w.live)
    (hl' : l ∈ w'.live) {i : ℕ} (hi : i < l.size) : w'.details.mem (l.ptr + i) = w.details.mem (l.ptr + i) := by
  obtain ⟨b, hb, hptr, hbytes⟩ := h.blocks.inBlock h.accounted.geometry.le hl
  obtain ⟨c, hc, hptr', -⟩ := h'.blocks.inBlock h'.accounted.geometry.le hl'
  rw [hchunk] at hptr'
  obtain rfl : b = c := addrOf_inj (hptr.symm.trans hptr')
  apply hkeeps _ b _ hb hc
  · rw [hptr]
    exact inBlock_offset w.details.chunk (hi.trans_le hbytes)
  · cases r with
    | write p i v => exact absurd rfl (hread p i v)
    | _ => exact id

theorem calloc_cleared {s s' : BuddyAllocatorDetails space} {num size p : ℕ}
    (hrun : s.calloc num size = .ok (p, s')) (hp : p ≠ NULL) {i : ℕ} (hi : i < u32 (num * size)) :
    s'.mem (p + i) = 0 := by
  obtain ⟨⟨q, t⟩, -, hok⟩ := ok_of_bind hrun
  dsimp only at hok
  split at hok
  · cases hok
    exact fill_inside hi
  · next hq =>
    cases hok
    exact absurd (not_not.mp hq) hp

theorem step_served (w : State space) (r : Request) (h : Holds m w) (hadm : Admits w r) :
    ∃ w', ∃ m' : BuddyMap n, step w r = .ok w' ∧ Holds m' w' ∧
      Served (interface space) (·.mem) w r w' := by
  obtain ⟨w', m', hrun, h', hchunk, hkeeps⟩ := step_effect w r h hadm
  refine ⟨w', m', hrun, h', fun hread b hb hb' i hi => h.kept h' hchunk hkeeps hread hb hb' hi, ?_, ?_, ?_⟩
  · rintro num size p rfl hcall hp i hi
    exact calloc_cleared hcall hp hi
  · rintro p size q rfl hcall hq b hb hptr i hi
    exact realloc_contents h hcall hq hb hptr hi
  · rintro p i v rfl
    obtain rfl := Except.ok.inj hrun
    rfl

/-- A block is written to, and the next size moves it. -/
def writtenBlockRun : List Request := [.alloc 16, .calloc 3 5, .write 4112 2 7, .realloc 4112 20, .free 4096]

end Buddy
end LibXpf.Allocators
