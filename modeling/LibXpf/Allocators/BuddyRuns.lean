import LibXpf.Allocators.BuddySteps

/-! # Sessions of a `BuddyAllocator`

The live pointers of a session are the live blocks of the map. Every admitted
request succeeds, keeps this, and leaves the bytes of all other live blocks as
they were.
-/
namespace LibXpf.Allocators
open ByteMemory BuddySystem BuddyMap GuardedRuns

namespace Buddy
open BuddyAllocatorDetails
variable {space : AddressSpace}

abbrev State (space : AddressSpace) := Session (BuddyAllocatorDetails space)

def step (w : State space) (r : Request) : Except Fault (State space) :=
  Session.step (BuddyAllocatorDetails.interface space) w r

/-- A fresh allocator, with nothing live. -/
def fresh (size : ℕ) (chunk : MallocBlock space (sizing size).1) (mem : Memory) :
    Except Fault (State space) := do
  let s ← construct size chunk mem
  return ⟨s, []⟩

/-- `dealloc` receives the size last requested for its pointer. -/
def sizeAsRequested (live : List LiveBlock) : Request → Prop
  | .dealloc p size => ∃ l ∈ live, l.ptr = p ∧ l.size = size
  | _ => True

instance (live : List LiveBlock) : (r : Request) → Decidable (sizeAsRequested live r)
  | .dealloc _ _ => inferInstanceAs (Decidable (∃ l ∈ live, _ ∧ _))
  | .alloc _ | .calloc _ _ | .realloc _ _ | .free _ | .reset | .write _ _ _ => isTrue trivial

/-- The requests a caller may make. -/
def Admits (w : State space) (r : Request) : Prop :=
  r.argumentsLive w.live ∧ sizeAsRequested w.live r

instance (w : State space) (r : Request) : Decidable (Admits w r) :=
  inferInstanceAs (Decidable (_ ∧ _))

variable {n t u b c p size chunk : ℕ} {m m' : BuddyMap n} {live : List LiveBlock}
  {s : BuddyAllocatorDetails space}

/-- The live pointers are the addresses of the live blocks, each with a size its
tier serves. -/
structure Matches (m : BuddyMap n) (chunk : ℕ) (live : List LiveBlock) : Prop where
  distinct : DistinctPointers live
  block_of_live : ∀ l ∈ live, ∃ b, m.node (tierFor n l.size) b = .live ∧
    l.ptr = addrOf n chunk (tierFor n l.size) b
  live_of_block : ∀ t b, m.node t b = .live → ∃ l ∈ live, l.ptr = addrOf n chunk t b

/-- The invariant of a session. -/
structure Holds (m : BuddyMap n) (w : State space) : Prop where
  accounted : Accounted m w.details
  blocks : Matches m w.details.chunk w.live

section Matches

theorem inBlock_start (n chunk t b : ℕ) : InBlock n chunk t b (addrOf n chunk t b) := by
  have := inBlock_offset (n := n) (t := t) (b := b) chunk blockBytes_pos
  simpa using this

theorem live_eq (hb : m.node t b = .live) (hc : m.node u c = .live)
    (h : addrOf n chunk t b = addrOf n chunk u c) : t = u ∧ b = c :=
  leaf_eq (Or.inl hb) (Or.inl hc) (inBlock_start n chunk t b) (h ▸ inBlock_start n chunk u c)

theorem Matches.block (h : Matches m chunk live) (hp : IsLive live p) :
    ∃ t b, m.node t b = .live ∧ p = addrOf n chunk t b := by
  obtain ⟨l, hl, rfl⟩ := hp
  obtain ⟨b, hb, hptr⟩ := h.block_of_live l hl
  exact ⟨_, b, hb, hptr⟩

/-- The tier of a live pointer is the one that serves its size. -/
theorem Matches.tier (h : Matches m chunk live) {l : LiveBlock} (hl : l ∈ live)
    (hb : m.node t b = .live) (hptr : l.ptr = addrOf n chunk t b) : tierFor n l.size = t := by
  obtain ⟨c, hc, hptr'⟩ := h.block_of_live l hl
  exact (live_eq hc hb (hptr'.symm.trans hptr)).1

theorem Matches.empty (h : ∀ t b, m.node t b ≠ .live) : Matches m chunk [] where
  distinct := List.Pairwise.nil
  block_of_live := by simp
  live_of_block := fun t b hb => absurd hb (h t b)

theorem Matches.grant (h : Matches m chunk live) (hob : Obtained chunk m m' (tierFor n size) b)
    (hnull : addrOf n chunk (tierFor n size) b ≠ NULL) :
    Matches m' chunk (granted (addrOf n chunk (tierFor n size) b) size live) := by
  have hold : ∀ t c, m.node t c = .live → m'.node t c = .live :=
    fun t c hc => (hob.live t c).mpr (Or.inl hc)
  have hnew : m'.node (tierFor n size) b = .live := (hob.live _ b).mpr (Or.inr ⟨rfl, rfl⟩)
  refine ⟨?_, ?_, ?_⟩
  · rw [granted, if_neg hnull]
    apply h.distinct.cons
    intro l hl heq
    obtain ⟨c, hc, hptr⟩ := h.block_of_live l hl
    obtain ⟨hu, rfl⟩ := live_eq (hold _ c hc) hnew (hptr.symm.trans heq)
    rw [hu] at hc
    exact hob.unused (Or.inl hc)
  · intro l hl
    rcases (mem_granted hnull).mp hl with rfl | hl
    · exact ⟨b, hnew, rfl⟩
    · obtain ⟨c, hc, hptr⟩ := h.block_of_live l hl
      exact ⟨c, hold _ c hc, hptr⟩
  · intro u c hc
    rcases (hob.live u c).mp hc with hc | ⟨rfl, rfl⟩
    · obtain ⟨l, hl, hptr⟩ := h.live_of_block u c hc
      exact ⟨l, (mem_granted hnull).mpr (Or.inr hl), hptr⟩
    · exact ⟨_, (mem_granted hnull).mpr (Or.inl rfl), rfl⟩

theorem Matches.release (h : Matches m chunk live) (hlive : m.node t b = .live)
    (hrec : Recycled chunk m m' t b) : Matches m' chunk (released (addrOf n chunk t b) live) := by
  refine ⟨h.distinct.released _, ?_, ?_⟩
  · intro l hl
    obtain ⟨hl, hne⟩ := mem_released.mp hl
    obtain ⟨c, hc, hptr⟩ := h.block_of_live l hl
    refine ⟨c, (hrec.live _ c).mpr ⟨hc, ?_⟩, hptr⟩
    rintro ⟨hu, rfl⟩
    rw [hu] at hptr
    exact hne hptr
  · intro u c hc
    obtain ⟨hc, hne⟩ := (hrec.live u c).mp hc
    obtain ⟨l, hl, hptr⟩ := h.live_of_block u c hc
    refine ⟨l, mem_released.mpr ⟨hl, ?_⟩, hptr⟩
    intro heq
    exact hne (live_eq hc hlive (hptr.symm.trans heq))

/-- A block that stays serves a new size of its tier. -/
theorem Matches.resize (h : Matches m chunk live) (hlive : m.node t b = .live)
    (hsize : tierFor n size = t) (hnull : addrOf n chunk t b ≠ NULL) :
    Matches m chunk (granted (addrOf n chunk t b) size (released (addrOf n chunk t b) live)) := by
  refine ⟨?_, ?_, ?_⟩
  · rw [granted, if_neg hnull]
    exact (h.distinct.released _).cons (fun l hl => (mem_released.mp hl).2)
  · intro l hl
    rcases (mem_granted hnull).mp hl with rfl | hl
    · exact ⟨b, hsize.symm ▸ hlive, by rw [hsize]⟩
    · exact h.block_of_live l (mem_released.mp hl).1
  · intro u c hc
    by_cases hsame : addrOf n chunk t b = addrOf n chunk u c
    · exact ⟨_, (mem_granted hnull).mpr (Or.inl rfl), hsame⟩
    · obtain ⟨l, hl, hptr⟩ := h.live_of_block u c hc
      refine ⟨l, (mem_granted hnull).mpr (Or.inr (mem_released.mpr ⟨hl, ?_⟩)), hptr⟩
      intro heq
      exact hsame (heq.symm.trans hptr)

theorem Holds.released_null {w : State space} (h : Holds m w) : released NULL w.live = w.live := by
  apply released_of_not_live
  intro l hl
  obtain ⟨b, -, hptr⟩ := h.blocks.block_of_live l hl
  rw [hptr]
  exact h.accounted.geometry.addrOf_ne_null _ b

end Matches

section Steps

/-- The bytes a request's caller writes by itself. -/
def writes : Request → ℕ → Prop
  | .write p i _, x => x = p + i
  | _, _ => False

/-- The bytes of blocks live before and after are kept, but for the caller's own. -/
def KeepsLiveBytes (m m' : BuddyMap n) (w w' : State space) (r : Request) : Prop :=
  ∀ t b x, m.node t b = .live → m'.node t b = .live → InBlock n w.details.chunk t b x →
    ¬ writes r x → w'.details.mem x = w.details.mem x

/-- What an admitted request does to a session that holds the map `m`. -/
def Effect (m : BuddyMap n) (w : State space) (r : Request) : Prop :=
  ∃ w', ∃ m' : BuddyMap n, step w r = .ok w' ∧ Holds m' w' ∧ w'.details.chunk = w.details.chunk ∧
    KeepsLiveBytes m m' w w' r

theorem Effect.unchanged {w : State space} {r : Request} (h : Holds m w) (hrun : step w r = .ok w) :
    Effect m w r :=
  ⟨w, m, hrun, h, rfl, fun _ _ _ _ _ _ _ => rfl⟩

theorem alloc_effect (h : Holds m ⟨s, live⟩) (size : ℕ) : Effect m ⟨s, live⟩ (.alloc size) := by
  obtain ⟨hacc, hmatch⟩ := h
  rcases hacc.alloc_spec size with ⟨hrun, -⟩ | ⟨b, s', m', hrun, -, hacc', hob, hchunk, hframe⟩
  · apply Effect.unchanged ⟨hacc, hmatch⟩
    simp [step, Session.step, interface, hrun]
  · have hnull := hacc.geometry.addrOf_ne_null (tierFor n size) b
    refine ⟨⟨s', granted (addrOf n s.chunk (tierFor n size) b) size live⟩, m', ?_,
      ⟨hacc', hchunk ▸ hmatch.grant hob hnull⟩, hchunk, ?_⟩
    · simp [step, Session.step, interface, hrun]
    · intro t c x hc _ hx _
      exact hframe x (not_freeByte hc hx)

/-- The zeroed bytes lie in the new block. -/
theorem calloc_effect (h : Holds m ⟨s, live⟩) (num size : ℕ) :
    Effect m ⟨s, live⟩ (.calloc num size) := by
  obtain ⟨hacc, hmatch⟩ := h
  have hle := hacc.geometry.le
  rcases hacc.alloc_spec (u32 (num * size)) with
    ⟨hrun, -⟩ | ⟨b, s', m', hrun, htier, hacc', hob, hchunk, hframe⟩
  · apply Effect.unchanged ⟨hacc, hmatch⟩
    simp [step, Session.step, interface, calloc, hrun]
  · have hnull := hacc.geometry.addrOf_ne_null (tierFor n (u32 (num * size))) b
    have hnew : m'.node (tierFor n (u32 (num * size))) b = .live := (hob.live _ b).mpr (Or.inr ⟨rfl, rfl⟩)
    have hlen := size_le_of_tierFor hle htier
    have hsucc := addrOf_succ n s.chunk (tierFor n (u32 (num * size))) b
    let s₂ : BuddyAllocatorDetails space := { s' with
      mem := fill s'.mem (addrOf n s.chunk (tierFor n (u32 (num * size))) b) 0 (u32 (num * size)) }
    have hfill : ∀ x, ¬ InBlock n s.chunk (tierFor n (u32 (num * size))) b x → s₂.mem x = s'.mem x := by
      intro x hx
      apply fill_outside
      unfold InBlock at hx
      omega
    have hacc₂ : Accounted m' s₂ := by
      apply hacc'.write
      intro x hx
      rw [hchunk] at hx
      exact hfill x (fun hin => not_freeByte hnew hin hx)
    refine ⟨⟨s₂, granted (addrOf n s.chunk (tierFor n (u32 (num * size))) b) (u32 (num * size)) live⟩,
      m', ?_, ⟨hacc₂, ?_⟩, hchunk, ?_⟩
    · simp only [step, Session.step, interface, calloc, hrun, ok_bind, if_pos hnull, pure_eq_ok]
      rfl
    · have hchunk₂ : s₂.chunk = s.chunk := hchunk
      rw [hchunk₂]
      exact hmatch.grant hob hnull
    · intro t c x hc hc' hx _
      have hout : ¬ InBlock n s.chunk (tierFor n (u32 (num * size))) b x := by
        intro hin
        obtain ⟨rfl, rfl⟩ := leaf_eq (Or.inl hc') (Or.inl hnew) hx hin
        exact hob.unused (Or.inl hc)
      exact (hfill x hout).trans (hframe x (not_freeByte hc hx))

theorem release_effect (h : Holds m ⟨s, live⟩) (hlive : m.node t b = .live) {r : Request}
    (hrun : ∀ s', s.recycleUsed t b = .ok s' →
      step ⟨s, live⟩ r = .ok ⟨s', released (addrOf n s.chunk t b) live⟩) :
    Effect m ⟨s, live⟩ r := by
  obtain ⟨hacc, hmatch⟩ := h
  obtain ⟨s', m', hrec, hacc', hrecycled, hchunk, hframe⟩ := hacc.recycleUsed_spec hlive
  refine ⟨_, m', hrun s' hrec, ⟨hacc', hchunk ▸ hmatch.release hlive hrecycled⟩, hchunk, ?_⟩
  intro u c x hc hc' hx _
  apply hframe x
  · intro hin
    exact ((hrecycled.live u c).mp hc').2 (leaf_eq (Or.inl hc) (Or.inl hlive) hx hin)
  · exact not_freeByte hc hx

theorem free_effect (h : Holds m ⟨s, live⟩) (hp : IsLive live p) : Effect m ⟨s, live⟩ (.free p) := by
  obtain ⟨t, b, hlive, rfl⟩ := h.blocks.block hp
  apply release_effect h hlive
  intro s' hrec
  simp [step, Session.step, interface, h.accounted.free_eq hlive, hrec]

theorem dealloc_effect (h : Holds m ⟨s, live⟩) (hsize : ∃ l ∈ live, l.ptr = p ∧ l.size = size) :
    Effect m ⟨s, live⟩ (.dealloc p size) := by
  obtain ⟨l, hl, rfl, rfl⟩ := hsize
  obtain ⟨t, b, hlive, hptr⟩ := h.blocks.block ⟨l, hl, rfl⟩
  have htier := h.blocks.tier hl hlive hptr
  rw [hptr]
  apply release_effect h hlive
  intro s' hrec
  simp [step, Session.step, interface, h.accounted.dealloc_eq hlive htier, hrec]

theorem realloc_effect (h : Holds m ⟨s, live⟩) (hp : p = NULL ∨ IsLive live p) :
    Effect m ⟨s, live⟩ (.realloc p size) := by
  by_cases hnull : p = NULL
  · subst hnull
    have hrel : released NULL live = live := h.released_null
    have hsame : step ⟨s, live⟩ (.realloc NULL size) = step ⟨s, live⟩ (.alloc size) := by
      simp only [step, Session.step, interface, realloc, if_true]
      cases s.alloc size with
      | error e => rfl
      | ok r =>
        obtain ⟨q, s'⟩ := r
        by_cases hq : q = NULL <;> by_cases hz : size = 0 <;> simp [hq, hz, hrel]
    obtain ⟨w', m', hrun, hrest⟩ := alloc_effect h size
    exact ⟨w', m', hsame.trans hrun, hrest⟩
  obtain ⟨t, b, hlive, rfl⟩ := h.blocks.block (hp.resolve_left hnull)
  by_cases hzero : size = 0
  · subst hzero
    apply release_effect h hlive
    intro s' hrec
    have hfree := h.accounted.free_eq hlive
    simp [step, Session.step, interface, realloc, hnull, hfree, hrec]
  obtain ⟨hacc, hmatch⟩ := h
  obtain ⟨q, s', hrun, hresult⟩ := hacc.realloc_spec hlive hzero
  cases hresult with
  | failed =>
    apply Effect.unchanged ⟨hacc, hmatch⟩
    simp [step, Session.step, interface, hrun, hzero]
  | kept hsize =>
    refine ⟨⟨s, granted (addrOf n s.chunk t b) size (released (addrOf n s.chunk t b) live)⟩, m, ?_,
      ⟨hacc, hmatch.resize hlive hsize hnull⟩, rfl, fun _ _ _ _ _ _ _ => rfl⟩
    simp [step, Session.step, interface, hrun, hnull]
  | moved c s' m₁ m' htier hob hrecycled hacc' hchunk hframe hcontents =>
    have hq := hacc.geometry.addrOf_ne_null (tierFor n size) c
    have hlive₁ : m₁.node t b = .live := (hob.live t b).mpr (Or.inl hlive)
    have hnew : m₁.node (tierFor n size) c = .live := (hob.live _ c).mpr (Or.inr ⟨rfl, rfl⟩)
    have hne : addrOf n s.chunk (tierFor n size) c ≠ addrOf n s.chunk t b := by
      intro heq
      obtain ⟨hu, rfl⟩ := live_eq hnew hlive₁ heq
      rw [← hu] at hlive
      exact hob.unused (Or.inl hlive)
    have hmatch' := (hmatch.grant hob hq).release hlive₁ hrecycled
    rw [released_granted hq hne] at hmatch'
    refine ⟨⟨s', granted (addrOf n s.chunk (tierFor n size) c) size
      (released (addrOf n s.chunk t b) live)⟩, m', ?_, ⟨hacc', hchunk.symm ▸ hmatch'⟩, hchunk, ?_⟩
    · simp [step, Session.step, interface, hrun, hq]
    · intro u d x hd hd' hx _
      apply hframe x (not_freeByte hd hx)
      intro hin
      exact ((hrecycled.live u d).mp hd').2 (leaf_eq (Or.inl hd) (Or.inl hlive) hx hin)

theorem write_effect (h : Holds m ⟨s, live⟩) {i : ℕ} {v : UInt8}
    (hp : ∃ l ∈ live, l.ptr = p ∧ i < l.size) : Effect m ⟨s, live⟩ (.write p i v) := by
  obtain ⟨hacc, hmatch⟩ := h
  obtain ⟨l, hl, rfl, hi⟩ := hp
  obtain ⟨b, hlive, hptr⟩ := hmatch.block_of_live l hl
  obtain ⟨ht, -⟩ := m.inside (t := tierFor n l.size) (b := b) (by simp [hlive])
  have hlen := size_le_of_tierFor hacc.geometry.le ht
  have hin : InBlock n s.chunk (tierFor n l.size) b (l.ptr + i) := by
    rw [hptr]
    exact inBlock_offset s.chunk (by omega)
  have hacc' : Accounted m ({ s with mem := Function.update s.mem (l.ptr + i) v } :
      BuddyAllocatorDetails space) := by
    apply hacc.write
    intro x hx
    apply Function.update_of_ne
    rintro rfl
    exact not_freeByte hlive hin hx
  refine ⟨⟨_, live⟩, m, rfl, ⟨hacc', hmatch⟩, rfl, ?_⟩
  intro u c x _ _ _ hnot
  exact Function.update_of_ne hnot _ _

theorem step_effect (w : State space) (r : Request) (h : Holds m w) (hadm : Admits w r) :
    Effect m w r := by
  obtain ⟨s, live⟩ := w
  obtain ⟨hargs, hsize⟩ := hadm
  cases r with
  | alloc size => exact alloc_effect h size
  | calloc num size => exact calloc_effect h num size
  | realloc p size => exact realloc_effect h hargs
  | free p => exact free_effect h hargs
  | dealloc p size => exact dealloc_effect h hsize
  | reset =>
    refine ⟨⟨s.reset.2, live⟩, m, rfl, ⟨⟨⟨?_, h.accounted.flags, h.accounted.chains⟩,
      h.accounted.used⟩, h.blocks⟩, rfl, fun _ _ _ _ _ _ _ => rfl⟩
    exact h.accounted.geometry.congr rfl rfl rfl
  | write p i v => exact write_effect h hargs

end Steps
end Buddy
end LibXpf.Allocators
