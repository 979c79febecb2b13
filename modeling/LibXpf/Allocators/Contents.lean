import LibXpf.Foundation.BlockStore
import LibXpf.Allocators.Sessions

/-! # What an allocator is for

To its caller an allocator is a store of blocks: it answers a request for bytes with a new
handle or with none, and from then on the block has the bytes the caller last wrote to it,
whatever is requested for other blocks. Where blocks lie, and how the allocator finds them, is
no part of this.
-/
namespace LibXpf.Allocators
open ByteMemory BlockStore GuardedRuns

abbrev Blocks := Store ℕ UInt8

/-- A handle for a block that is added. -/
def Unused (st : Blocks) (p : ℕ) : Prop := p ≠ NULL ∧ st p = none

/-- The answers to a request, and the blocks afterwards. The parameters say whether `realloc` to
size zero frees, and whether `reset` does. -/
inductive Answers (zeroFrees resetReleases : Bool) (st : Blocks) : Request → Blocks → Prop
  | allocRefused (size : ℕ) : Answers zeroFrees resetReleases st (.alloc size) st
  | allocated (size : ℕ) {p : ℕ} (new : Unused st p) :
      Answers zeroFrees resetReleases st (.alloc size) (put st p (blank size))
  | callocRefused (num size : ℕ) : Answers zeroFrees resetReleases st (.calloc num size) st
  /-- The product is taken in 32 bits. -/
  | cleared (num size : ℕ) {p : ℕ} (new : Unused st p) :
      Answers zeroFrees resetReleases st (.calloc num size)
        (put st p (List.replicate (u32 (num * size)) (some 0)))
  | reallocRefused (p size : ℕ) (keeps : p = NULL ∨ size ≠ 0 ∨ zeroFrees = false) :
      Answers zeroFrees resetReleases st (.realloc p size) st
  | reallocFreed {p : ℕ} (live : p ≠ NULL) (frees : zeroFrees = true) :
      Answers zeroFrees resetReleases st (.realloc p 0) (drop st p)
  | obtained (size : ℕ) {p : ℕ} (new : Unused st p) :
      Answers zeroFrees resetReleases st (.realloc NULL size) (put st p (blank size))
  /-- The block is resized in place or moved. -/
  | resized (size : ℕ) {p q : ℕ} {cells : List (Option UInt8)} (block : st p = some cells)
      (new : Unused (drop st p) q) :
      Answers zeroFrees resetReleases st (.realloc p size) (put (drop st p) q (resize cells size))
  | freed (p : ℕ) : Answers zeroFrees resetReleases st (.free p) (drop st p)
  | dealloced (p size : ℕ) : Answers zeroFrees resetReleases st (.dealloc p size) (drop st p)
  | reset : Answers zeroFrees resetReleases st .reset (if resetReleases then fun _ => none else st)
  | written (p i : ℕ) (v : UInt8) : Answers zeroFrees resetReleases st (.write p i v) (write st p i v)

/-- Blocks held at the same time share neither pointer nor byte. -/
structure Separate (live : List LiveBlock) : Prop where
  distinct : DistinctPointers live
  notNull : ∀ b ∈ live, b.ptr ≠ NULL
  apart : ∀ b ∈ live, ∀ c ∈ live, b ≠ c → Apart b.ptr b.size c.ptr c.size

/-- The store has the blocks that are held, and the memory has their contents. -/
structure Agrees (m : Memory) (st : Blocks) (live : List LiveBlock) : Prop where
  extents : ∀ p n, extent st p = some n ↔ ⟨p, n⟩ ∈ live
  contents : Holds (fun p i => m (p + i)) st

namespace Agrees

variable {m m' : Memory} {st : Blocks} {live : List LiveBlock} {p i : ℕ} {v : UInt8}

theorem empty : Agrees m (fun _ => none) [] :=
  ⟨fun p n => iff_of_false (by simp [extent]) List.not_mem_nil, holds_empty⟩

theorem cells_of_live (h : Agrees m st live) {b : LiveBlock} (hb : b ∈ live) :
    ∃ cells, st b.ptr = some cells ∧ cells.length = b.size :=
  extent_eq_some.mp ((h.extents b.ptr b.size).mpr hb)

theorem unused (h : Agrees m st live) (hp : ¬ IsLive live p) (hnull : p ≠ NULL) : Unused st p := by
  refine ⟨hnull, extent_eq_none.mp ?_⟩
  by_contra hsome
  obtain ⟨n, hn⟩ := Option.ne_none_iff_exists'.mp hsome
  exact hp ⟨_, (h.extents p n).mp hn, rfl⟩

theorem frame (h : Agrees m st live) (hm : ∀ b ∈ live, ∀ i < b.size, m' (b.ptr + i) = m (b.ptr + i)) :
    Agrees m' st live := by
  refine ⟨h.extents, h.contents.frame ?_⟩
  intro p n hn i hi
  exact hm ⟨p, n⟩ ((h.extents p n).mp hn) i hi

theorem release (h : Agrees m st live) (p : ℕ) : Agrees m (drop st p) (released p live) := by
  refine ⟨fun q n => ?_, h.contents.drop p⟩
  rw [mem_released, extent_drop, ← h.extents q n]
  by_cases hq : q = p
  · simp [hq]
  · simp [hq]

theorem grant (h : Agrees m st live) (cells : List (Option UInt8)) (hp : p ≠ NULL) (hnot : ¬ IsLive live p)
    (hcells : ∀ i v, cells[i]? = some (some v) → m (p + i) = v) :
    Agrees m (put st p cells) (granted p cells.length live) := by
  refine ⟨fun q n => ?_, (h.contents.drop p).put hcells⟩
  rw [mem_granted hp, extent_put]
  by_cases hq : q = p
  · simp only [hq, if_true, Option.some.injEq, LiveBlock.mk.injEq, true_and]
    exact ⟨fun hn => .inl hn.symm, fun hn => hn.elim Eq.symm (fun hb => absurd ⟨_, hb, rfl⟩ hnot)⟩
  · simp only [hq, if_false, h.extents q n, LiveBlock.mk.injEq, false_and, false_or]

/-- No other block has the byte that is written. -/
theorem written (h : Agrees m st live) (hsep : Separate live) {b : LiveBlock} (hb : b ∈ live) (hi : i < b.size) :
    Agrees (Function.update m (b.ptr + i) v) (write st b.ptr i v) live := by
  refine ⟨fun q n => ?_, h.contents.write (fun _ => Function.update_self ..) ?_⟩
  · rw [extent_write]
    exact h.extents q n
  · intro q n hn j hj hne
    apply Function.update_of_ne
    intro heq
    by_cases hsame : b = ⟨q, n⟩
    · subst hsame
      exact hne ⟨rfl, Nat.add_left_cancel heq⟩
    · have hapart := hsep.apart b hb ⟨q, n⟩ ((h.extents q n).mp hn) hsame
      unfold Apart at hapart
      dsimp only at hapart
      omega

end Agrees

section Sessions

variable {σ : Type} {A : Interface σ} {mem : σ → Memory} {w w' : Session σ} {r : Request}

/-- What a call owes the callers that hold blocks, in terms of addresses. -/
structure Served (A : Interface σ) (mem : σ → Memory) (w : Session σ) (r : Request) (w' : Session σ) : Prop where
  kept : (∀ p i v, r ≠ .write p i v) → ∀ b ∈ w.live, b ∈ w'.live →
    ∀ i < b.size, mem w'.details (b.ptr + i) = mem w.details (b.ptr + i)
  cleared : ∀ num size p, r = .calloc num size → A.calloc w.details num size = .ok (p, w'.details) → p ≠ NULL →
    ∀ i < u32 (num * size), mem w'.details (p + i) = 0
  carried : ∀ p size q, r = .realloc p size → A.realloc w.details p size = .ok (q, w'.details) → q ≠ NULL →
    ∀ b ∈ w.live, b.ptr = p → ∀ i < min b.size size, mem w'.details (q + i) = mem w.details (p + i)
  written : ∀ p i v, r = .write p i v → mem w'.details = Function.update (mem w.details) (p + i) v

theorem not_live_of_granted {p size : ℕ} {live : List LiveBlock} (h : Separate (granted p size live)) (hp : p ≠ NULL) :
    ¬ IsLive live p := by
  rintro ⟨b, hb, rfl⟩
  have hdistinct := h.distinct
  rw [granted, if_neg hp] at hdistinct
  exact (List.pairwise_cons.mp hdistinct).1 b hb rfl

/-- A block that is added leaves the others as they were. -/
theorem Agrees.answered_new {st : Blocks} (h : Agrees (mem w.details) st w.live) (cells : List (Option UInt8)) (hsep : Separate w'.live)
    (hserved : Served A mem w r w') (hread : ∀ p i v, r ≠ .write p i v) {p : ℕ} (hp : p ≠ NULL)
    (hlive : w'.live = granted p cells.length w.live)
    (hcells : ∀ i v, cells[i]? = some (some v) → mem w'.details (p + i) = v) :
    Unused st p ∧ Agrees (mem w'.details) (put st p cells) w'.live := by
  have hnot := not_live_of_granted (hlive ▸ hsep) hp
  refine ⟨h.unused hnot hp, hlive ▸ Agrees.grant (h.frame fun b hb i hi => ?_) cells hp hnot hcells⟩
  exact hserved.kept hread b hb (hlive ▸ (mem_granted hp).mpr (.inr hb)) i hi

theorem Agrees.answered_drop {st : Blocks} (h : Agrees (mem w.details) st w.live) (hserved : Served A mem w r w')
    (hread : ∀ p i v, r ≠ .write p i v) {p : ℕ} (hlive : w'.live = released p w.live) :
    Agrees (mem w'.details) (drop st p) w'.live := by
  refine hlive ▸ (h.release p).frame fun b hb i hi => ?_
  exact hserved.kept hread b (mem_released.mp hb).1 (hlive ▸ hb) i hi

theorem Agrees.answered_same {st : Blocks} (h : Agrees (mem w.details) st w.live) (hserved : Served A mem w r w')
    (hread : ∀ p i v, r ≠ .write p i v) (hlive : w'.live = w.live) : Agrees (mem w'.details) st w'.live := by
  refine hlive ▸ h.frame fun b hb i hi => ?_
  exact hserved.kept hread b hb (hlive ▸ hb) i hi

/-- The block that comes back from `realloc` has the contents of the one that went in. -/
theorem Agrees.answered_resized {st : Blocks} (h : Agrees (mem w.details) st w.live) (hsep : Separate w'.live) {b : LiveBlock}
    (hb : b ∈ w.live) {size q : ℕ} (hserved : Served A mem w (.realloc b.ptr size) w') (hq : q ≠ NULL)
    (hlive : w'.live = granted q size (released b.ptr w.live)) (hcall : A.realloc w.details b.ptr size = .ok (q, w'.details)) :
    ∃ cells, st b.ptr = some cells ∧ Unused (drop st b.ptr) q ∧
      Agrees (mem w'.details) (put (drop st b.ptr) q (resize cells size)) w'.live := by
  obtain ⟨cells, hcells, hlength⟩ := h.cells_of_live hb
  have hnot := not_live_of_granted (hlive ▸ hsep) hq
  have hother : Agrees (mem w'.details) (drop st b.ptr) (released b.ptr w.live) := by
    refine (h.release b.ptr).frame fun c hc i hi => ?_
    have hc' : c ∈ w'.live := hlive ▸ (mem_granted hq).mpr (.inr hc)
    exact hserved.kept (by rintro q i v ⟨⟩) c (mem_released.mp hc).1 hc' i hi
  have hcarried : ∀ i v, (resize cells size)[i]? = some (some v) → mem w'.details (q + i) = v := by
    intro i v hv
    obtain ⟨hi, hval⟩ := resize_value hv
    rw [hlength] at hi
    rw [hserved.carried b.ptr size q rfl hcall hq b hb rfl i hi]
    exact h.contents b.ptr cells hcells i v hval
  have hgranted := hother.grant (resize cells size) hq hnot hcarried
  rw [resize_length, ← hlive] at hgranted
  exact ⟨cells, hcells, hother.unused hnot hq, hgranted⟩

theorem Agrees.answered_realloc {st : Blocks} (h : Agrees (mem w.details) st w.live) (hsep : Separate w.live)
    (hsep' : Separate w'.live) {p size : ℕ} (hargs : (Request.realloc p size).argumentsLive w.live)
    (hrun : Session.step A w (.realloc p size) = .ok w') (hserved : Served A mem w (.realloc p size) w') :
    ∃ st', Answers A.reallocZeroFrees A.resetReleases st (.realloc p size) st' ∧ Agrees (mem w'.details) st' w'.live := by
  have hread : ∀ q i v, Request.realloc p size ≠ .write q i v := by rintro q i v ⟨⟩
  obtain ⟨⟨q, s⟩, hcall, hok⟩ := ok_of_bind hrun
  dsimp only at hok
  split at hok
  · next hq =>
    obtain rfl := Except.ok.inj hok
    rcases hargs with rfl | ⟨b, hb, rfl⟩
    · -- nothing is held at the null pointer
      have hnull : released NULL w.live = w.live := released_of_not_live hsep.notNull
      obtain ⟨hnew, hagrees⟩ := h.answered_new (blank size) hsep' hserved hread hq
        (by rw [blank_length, hnull]) (fun i v hv => absurd hv not_blank)
      exact ⟨_, .obtained size hnew, hagrees⟩
    · obtain ⟨cells, hcells, hnew, hagrees⟩ := h.answered_resized hsep' hb hserved hq rfl hcall
      exact ⟨_, .resized size hcells hnew, hagrees⟩
  · next hq =>
    split at hok
    · next hz =>
      obtain rfl := Except.ok.inj hok
      obtain ⟨rfl, hfrees⟩ := hz
      by_cases hp : p = NULL
      · refine ⟨st, .reallocRefused p 0 (.inl hp), h.answered_same hserved hread ?_⟩
        rw [hp]
        exact released_of_not_live hsep.notNull
      · exact ⟨_, .reallocFreed hp hfrees, h.answered_drop hserved hread rfl⟩
    · next hz =>
      obtain rfl := Except.ok.inj hok
      refine ⟨st, .reallocRefused p size (.inr ?_), h.answered_same hserved hread rfl⟩
      by_cases hzero : size = 0
      · exact .inr (Bool.eq_false_iff.mpr fun hfrees => hz ⟨hzero, hfrees⟩)
      · exact .inl hzero

/-- An allocator that serves a request answers it as a store of blocks. -/
theorem Agrees.answered {st : Blocks} (h : Agrees (mem w.details) st w.live) (hsep : Separate w.live)
    (hsep' : Separate w'.live) (hargs : r.argumentsLive w.live) (hrun : Session.step A w r = .ok w')
    (hserved : Served A mem w r w') :
    ∃ st', Answers A.reallocZeroFrees A.resetReleases st r st' ∧ Agrees (mem w'.details) st' w'.live := by
  cases r with
  | alloc size =>
    have hread : ∀ p i v, Request.alloc size ≠ .write p i v := by rintro p i v ⟨⟩
    obtain ⟨⟨p, s⟩, hcall, hok⟩ := ok_of_bind hrun
    obtain rfl := Except.ok.inj hok
    by_cases hp : p = NULL
    · exact ⟨st, .allocRefused size, h.answered_same hserved hread (by rw [hp, granted_null])⟩
    · obtain ⟨hnew, hagrees⟩ := h.answered_new (blank size) hsep' hserved hread hp (by rw [blank_length])
        (fun i v hv => absurd hv not_blank)
      exact ⟨_, .allocated size hnew, hagrees⟩
  | calloc num size =>
    have hread : ∀ p i v, Request.calloc num size ≠ .write p i v := by rintro p i v ⟨⟩
    obtain ⟨⟨p, s⟩, hcall, hok⟩ := ok_of_bind hrun
    obtain rfl := Except.ok.inj hok
    by_cases hp : p = NULL
    · exact ⟨st, .callocRefused num size, h.answered_same hserved hread (by rw [hp, granted_null])⟩
    · obtain ⟨hnew, hagrees⟩ := h.answered_new (List.replicate (u32 (num * size)) (some 0)) hsep' hserved
        hread hp (by rw [List.length_replicate]) (fun i v hv => by
          rw [List.getElem?_replicate] at hv
          split at hv
          · next hi =>
            obtain rfl := Option.some.inj (Option.some.inj hv)
            exact hserved.cleared num size p rfl hcall hp i hi
          · cases hv)
      exact ⟨_, .cleared num size hnew, hagrees⟩
  | realloc p size => exact h.answered_realloc hsep hsep' hargs hrun hserved
  | free p =>
    have hread : ∀ q i v, Request.free p ≠ .write q i v := by rintro q i v ⟨⟩
    obtain ⟨s, hcall, hok⟩ := ok_of_bind hrun
    obtain rfl := Except.ok.inj hok
    exact ⟨_, .freed p, h.answered_drop hserved hread rfl⟩
  | dealloc p size =>
    have hread : ∀ q i v, Request.dealloc p size ≠ .write q i v := by rintro q i v ⟨⟩
    obtain ⟨s, hcall, hok⟩ := ok_of_bind hrun
    obtain rfl := Except.ok.inj hok
    exact ⟨_, .dealloced p size, h.answered_drop hserved hread rfl⟩
  | reset =>
    have hread : ∀ q i v, Request.reset ≠ .write q i v := by rintro q i v ⟨⟩
    obtain rfl := Except.ok.inj hrun
    refine ⟨_, .reset, ?_⟩
    cases hreleases : A.resetReleases with
    | true =>
      simp only [hreleases, if_true] at hserved ⊢
      exact .empty
    | false =>
      simp only [hreleases, Bool.false_eq_true, if_false] at hserved ⊢
      exact h.answered_same hserved hread rfl
  | write p i v =>
    obtain rfl := Except.ok.inj hrun
    obtain ⟨b, hb, rfl, hi⟩ := hargs
    refine ⟨_, .written b.ptr i v, ?_⟩
    rw [hserved.written b.ptr i v rfl]
    exact h.written hsep hb hi

/-- Where an invariant has every admitted request served, the runs of an allocator are runs of a
store of blocks. -/
theorem answered_along {Inv : Session σ → Prop} {admits : Session σ → Request → Prop}
    (hsep : ∀ w, Inv w → Separate w.live) (hargs : ∀ w r, admits w r → r.argumentsLive w.live)
    (hstep : ∀ w r, Inv w → admits w r → ∃ w', Session.step A w r = .ok w' ∧ Inv w' ∧ Served A mem w r w')
    {s : σ} (hinv : Inv ⟨s, []⟩) {requests : List Request}
    (h : Along (Session.step A) admits ⟨s, []⟩ requests) :
    ∃ w' st', final (Session.step A) ⟨s, []⟩ requests = .ok w' ∧
      Path (Answers A.reallocZeroFrees A.resetReleases) (fun _ => none) requests st' ∧
      Agrees (mem w'.details) st' w'.live := by
  have hsim : ∀ w (st : Blocks) r, Inv w ∧ Agrees (mem w.details) st w.live → admits w r →
      ∃ w' st', Session.step A w r = .ok w' ∧ Answers A.reallocZeroFrees A.resetReleases st r st' ∧
        Inv w' ∧ Agrees (mem w'.details) st' w'.live := by
    rintro w st r ⟨hw, hagrees⟩ hr
    obtain ⟨w', hrun, hw', hserved⟩ := hstep w r hw hr
    obtain ⟨st', hanswers, hagrees'⟩ :=
      hagrees.answered (hsep w hw) (hsep w' hw') (hargs w r hr) hrun hserved
    exact ⟨w', st', hrun, hanswers, hw', hagrees'⟩
  obtain ⟨w', st', hfinal, hpath, -, hagrees⟩ := final_simulates hsim ⟨hinv, .empty⟩ h
  exact ⟨w', st', hfinal, hpath, hagrees⟩

end Sessions
end LibXpf.Allocators
