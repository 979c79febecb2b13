import LibXpf.Allocators.BuddyRepresentation

/-! # `obtain` and `recycle`

Both walk up the tiers. Each stage changes the map by one block: a free block
goes live, a live block is divided, a live block is freed, or a live block and
its free buddy are merged.
-/
namespace LibXpf.Allocators
open ByteMemory LinkedChain BuddySystem BuddyMap

namespace BuddyAllocatorDetails
variable {space : AddressSpace} {s : BuddyAllocatorDetails space} {n t u b c x : ℕ}
  {m m' : BuddyMap n}

section Chains
variable {mem : Memory} {head : ℕ → ℕ}

theorem ChainsMatch.pop (h : ChainsMatch space m s.chunk mem head)
    (ht : t < n) (hne : head t ≠ 0) :
    ∃ b, m.node t b = .free ∧ head t = recordOf space n s.chunk t b ∧
      (∀ m' : BuddyMap n,
        (∀ u c, m'.node u c = .free ↔ m.node u c = .free ∧ ¬ (u = t ∧ c = b)) →
        ChainsMatch space m' s.chunk (popFront space.sizeofPointer mem (head t))
          (Function.update head t (next space.sizeofPointer mem (head t)))) ∧
      ∀ x, ¬ FreeByte m s.chunk x → popFront space.sizeofPointer mem (head t) x = mem x := by
  obtain ⟨ids, hchain, hids⟩ := h t ht
  cases ids with
  | nil => exact absurd (hchain.head_eq_zero_iff.mpr rfl) hne
  | cons b rest =>
    have hhead : head t = recordOf space n s.chunk t b := hchain.head_eq
    have hfree : m.node t b = .free := (hids b).mp List.mem_cons_self
    have hnodup := List.nodup_cons.mp (List.Nodup.of_map _ hchain.nodup)
    rw [hhead, List.map_cons] at hchain
    have hframe : ∀ x, (∀ c ∈ b :: rest, ¬ InBlock n s.chunk t c x) →
        popFront space.sizeofPointer mem (head t) x = mem x := by
      intro x hx
      rw [hhead]
      exact hchain.popFront_outside (outside_records space ht hx)
    refine ⟨b, hfree, hhead, ?_, ?_⟩
    · intro m' hm'
      rw [hhead] at hframe ⊢
      refine h.retier rest hchain.popFront ?_ ?_ ?_
      · intro c
        rw [hm', ← hids, List.mem_cons]
        constructor
        · intro hc
          refine ⟨Or.inr hc, ?_⟩
          rintro ⟨-, rfl⟩
          exact hnodup.1 hc
        · rintro ⟨rfl | hc, hne⟩
          · exact absurd ⟨rfl, rfl⟩ hne
          · exact hc
      · intro u c hut
        simp [hm', hut]
      · intro x hx
        exact hframe x (fun c hc => hx c (Or.inr ((hids c).mp hc)))
    · intro x hx
      exact hframe x (fun c hc hxc => hx ⟨t, c, (hids c).mp hc, hxc⟩)

theorem ChainsMatch.push (hg : Geometry n s) (h : ChainsMatch space m s.chunk mem head)
    (hlive : m.node t b = .live) :
    (∀ m' : BuddyMap n,
      (∀ u c, m'.node u c = .free ↔ m.node u c = .free ∨ (u = t ∧ c = b)) →
      ChainsMatch space m' s.chunk
        (pushFront space.sizeofPointer mem (head t) (recordOf space n s.chunk t b))
        (Function.update head t (recordOf space n s.chunk t b))) ∧
    ∀ x, ¬ InBlock n s.chunk t b x → ¬ FreeByte m s.chunk x →
      pushFront space.sizeofPointer mem (head t) (recordOf space n s.chunk t b) x = mem x := by
  obtain ⟨ht, hb⟩ := m.inside (t := t) (b := b) (by simp [hlive])
  obtain ⟨ids, hchain, hids⟩ := h t ht
  have hnot : b ∉ ids := by
    intro hmem
    simp [(hids b).mp hmem] at hlive
  obtain ⟨hne, hlt⟩ := hg.record_valid ht hb
  have hframe : ∀ x, (∀ c ∈ b :: ids, ¬ InBlock n s.chunk t c x) →
      pushFront space.sizeofPointer mem (head t) (recordOf space n s.chunk t b) x = mem x := by
    intro x hx
    exact hchain.pushFront_outside (outside_records space ht hx)
  constructor
  · intro m' hm'
    refine h.retier (b :: ids) (hchain.pushFront hne hlt ?_) ?_ ?_ ?_
    · intro a ha
      obtain ⟨c, hc, rfl⟩ := List.mem_map.mp ha
      apply record_apart ht
      rintro rfl
      exact hnot hc
    · intro c
      rw [hm', ← hids, List.mem_cons]
      tauto
    · intro u c hut
      simp [hm', hut]
    · intro x hx
      apply hframe
      intro c hc
      rcases List.mem_cons.mp hc with rfl | hc
      · exact hx c (Or.inl hlive)
      · exact hx c (Or.inr ((hids c).mp hc))
  · intro x hx hfree
    apply hframe
    intro c hc hxc
    rcases List.mem_cons.mp hc with rfl | hc
    · exact hx hxc
    · exact hfree ⟨t, c, (hids c).mp hc, hxc⟩

theorem ChainsMatch.unlink (h : ChainsMatch space m s.chunk mem head) (hfree : m.node t b = .free) :
    (∀ m' : BuddyMap n,
      (∀ u c, m'.node u c = .free ↔ m.node u c = .free ∧ ¬ (u = t ∧ c = b)) →
      ChainsMatch space m' s.chunk
        (unlink space.sizeofPointer mem (recordOf space n s.chunk t b))
        (Function.update head t (unlinkHead space.sizeofPointer
          (unlink space.sizeofPointer mem (recordOf space n s.chunk t b)) (head t)
          (recordOf space n s.chunk t b)))) ∧
    ∀ x, ¬ FreeByte m s.chunk x →
      unlink space.sizeofPointer mem (recordOf space n s.chunk t b) x = mem x := by
  obtain ⟨ht, -⟩ := m.inside (t := t) (b := b) (by simp [hfree])
  obtain ⟨ids, hchain, hids⟩ := h t ht
  obtain ⟨l₁, l₂, rfl⟩ := List.append_of_mem ((hids b).mpr hfree)
  have hnodup := List.Nodup.of_map _ hchain.nodup
  rw [List.map_append, List.map_cons] at hchain
  have hframe : ∀ x, (∀ c ∈ l₁ ++ b :: l₂, ¬ InBlock n s.chunk t c x) →
      LinkedChain.unlink space.sizeofPointer mem (recordOf space n s.chunk t b) x = mem x := by
    intro x hx
    apply hchain.unlink_outside
    have := outside_records space ht hx
    rwa [List.map_append, List.map_cons] at this
  constructor
  · intro m' hm'
    refine h.retier (l₁ ++ l₂) ?_ ?_ ?_ ?_
    · rw [List.map_append]
      exact hchain.unlink
    · intro c
      rw [hm', ← hids]
      have hb : b ∉ l₁ ++ l₂ := (List.nodup_middle.mp hnodup |> List.nodup_cons.mp).1
      simp only [List.mem_append, List.mem_cons] at hb ⊢
      constructor
      · intro hc
        refine ⟨by tauto, ?_⟩
        rintro ⟨-, rfl⟩
        exact hb hc
      · tauto
    · intro u c hut
      simp [hm', hut]
    · intro x hx
      exact hframe x (fun c hc => hx c (Or.inr ((hids c).mp hc)))
  · intro x hx
    exact hframe x (fun c hc hxc => hx ⟨t, c, (hids c).mp hc, hxc⟩)

end Chains

section Recycle

/-- What `recycle` does to the map: the block is no longer live, and free bytes
are those that were free or in the block. -/
structure Recycled (chunk : ℕ) (m m' : BuddyMap n) (t b : ℕ) : Prop where
  live : ∀ u c, m'.node u c = .live ↔ m.node u c = .live ∧ ¬ (u = t ∧ c = b)
  freeBytes : ∀ x, FreeByte m' chunk x → FreeByte m chunk x ∨ InBlock n chunk t b x

theorem buddy_free (hlive : m.node (t + 1) b = .live) (huse : ¬ m.InUse (t + 1) (buddy b)) :
    m.node (t + 1) (buddy b) = .free := by
  have hne := m.buddy_ne_absent (t := t) (b := b) (by simp [hlive])
  unfold InUse at huse
  cases hnode : m.node (t + 1) (buddy b) <;> simp_all

theorem Represents.recycleFlag_ok (h : Represents m s) (hlive : m.node t b = .live) :
    s.recycleFlag t b = .ok { s with flags := setFlagBit s.flags (2 ^ t + b) false } := by
  obtain ⟨ht, hb⟩ := m.inside (t := t) (b := b) (by simp [hlive])
  have hbit : flagBit s.flags (2 ^ t + b) = true := (h.flags t b ht hb).mpr (Or.inl hlive)
  simp only [recycleFlag, h.geometry.isBlockInUse_ok ht hb, ok_bind, hbit, xpfAssert_true,
    h.geometry.setBlockInUse_ok ht hb]

/-- The last stage of `recycle` frees a block whose buddy is not free. -/
theorem Represents.recyclePush_spec (h : Represents m s) (hlive : m.node t b = .live)
    (hbuddy : t = 0 ∨ m.node t (buddy b) ≠ .free) :
    ∃ s' : BuddyAllocatorDetails space, ∃ m' : BuddyMap n,
      recyclePush { s with flags := setFlagBit s.flags (2 ^ t + b) false } t b = .ok s' ∧
      Represents m' s' ∧ Recycled s.chunk m m' t b ∧ Kept s s' ∧
      ∀ x, ¬ InBlock n s.chunk t b x → ¬ FreeByte m s.chunk x → s'.mem x = s.mem x := by
  obtain ⟨ht, hb⟩ := m.inside (t := t) (b := b) (by simp [hlive])
  obtain ⟨hchains, hframe⟩ := h.chains.push h.geometry hlive
  let s₁ : BuddyAllocatorDetails space := { s with flags := setFlagBit s.flags (2 ^ t + b) false }
  have hg : Geometry n s₁ := h.geometry.congr rfl rfl rfl
  have hrun : s₁.recyclePush t b = .ok { s₁ with
      mem := pushFront space.sizeofPointer s.mem (s.freeChainHead t) (recordOf space n s.chunk t b)
      freeChainHead := Function.update s.freeChainHead t (recordOf space n s.chunk t b) } := by
    simp only [recyclePush, hg.blockSizeOf_ok ht, ok_bind, hg.freeBlockRecord_eq ht hb]
    rfl
  refine ⟨_, m.release hlive hbuddy, hrun,
    ⟨h.geometry.congr rfl rfl rfl, ?_, hchains _ (fun u c => release_free hlive hbuddy)⟩,
    ⟨fun u c => release_live hlive hbuddy, ?_⟩, ⟨rfl, rfl, rfl⟩, hframe⟩
  · refine h.flags.set hb ?_
    intro u c _
    rw [release_inUse]
    split <;> simp_all
  · rintro x ⟨u, c, hc, hxc⟩
    rcases (release_free hlive hbuddy).mp hc with hc | ⟨rfl, rfl⟩
    · exact Or.inl ⟨u, c, hc, hxc⟩
    · exact Or.inr hxc

/-- The other stages of `recycle` give the block and its free buddy to the tier above. -/
theorem Represents.recycleUnlink_spec (h : Represents m s) (hlive : m.node (t + 1) b = .live)
    (hbuddy : m.node (t + 1) (buddy b) = .free) :
    ∃ s' : BuddyAllocatorDetails space,
      recycleUnlink { s with flags := setFlagBit s.flags (2 ^ (t + 1) + b) false } (t + 1) (buddy b) =
        .ok s' ∧
      Represents (m.merge hlive hbuddy) s' ∧ Kept s s' ∧
      ∀ x, ¬ FreeByte m s.chunk x → s'.mem x = s.mem x := by
  obtain ⟨ht, hb⟩ := m.inside (t := t + 1) (b := b) (by simp [hlive])
  obtain ⟨-, hb'⟩ := m.inside (t := t + 1) (b := buddy b) (by simp [hbuddy])
  obtain ⟨hchains, hframe⟩ := h.chains.unlink hbuddy
  let s₁ : BuddyAllocatorDetails space :=
    { s with flags := setFlagBit s.flags (2 ^ (t + 1) + b) false }
  have hg : Geometry n s₁ := h.geometry.congr rfl rfl rfl
  let mem' := LinkedChain.unlink space.sizeofPointer s.mem (recordOf space n s.chunk (t + 1) (buddy b))
  have hrun : s₁.recycleUnlink (t + 1) (buddy b) = .ok { s₁ with
      mem := mem'
      freeChainHead := Function.update s.freeChainHead (t + 1)
        (unlinkHead space.sizeofPointer mem' (s.freeChainHead (t + 1))
          (recordOf space n s.chunk (t + 1) (buddy b))) } := by
    simp only [recycleUnlink, hg.blockSizeOf_ok ht, ok_bind, hg.freeBlockRecord_eq ht hb']
    rfl
  refine ⟨_, hrun, ⟨h.geometry.congr rfl rfl rfl, ?_, hchains _ (fun u c => merge_free hlive hbuddy)⟩,
    ⟨rfl, rfl, rfl⟩, hframe⟩
  refine h.flags.set hb ?_
  intro u c _
  rw [merge_inUse]
  split <;> simp_all

/-- One round of `recycle` looks at the flag of the buddy. -/
theorem Represents.recycle_succ (h : Represents m s) (hlive : m.node (t + 1) b = .live) :
    s.recycle (t + 1) b =
      if flagBit s.flags (2 ^ (t + 1) + buddy b) = true then
        { s with flags := setFlagBit s.flags (2 ^ (t + 1) + b) false }.recyclePush (t + 1) b
      else { s with flags := setFlagBit s.flags (2 ^ (t + 1) + b) false }.recycleUnlink (t + 1) (buddy b) >>=
        fun s => s.recycle t (b / 2) := by
  obtain ⟨ht, -⟩ := m.inside (t := t + 1) (b := b) (by simp [hlive])
  obtain ⟨-, hb'⟩ := m.inside (m.buddy_ne_absent (t := t) (b := b) (by simp [hlive]))
  let s₁ : BuddyAllocatorDetails space :=
    { s with flags := setFlagBit s.flags (2 ^ (t + 1) + b) false }
  have hg : Geometry n s₁ := h.geometry.congr rfl rfl rfl
  have hbit : flagBit s₁.flags (2 ^ (t + 1) + buddy b) = flagBit s.flags (2 ^ (t + 1) + buddy b) := by
    have hne := buddy_ne (b := b)
    rw [flagBit_setFlagBit, if_neg (by omega)]
  have hshift : b >>> 1 = b / 2 := by simp [Nat.shiftRight_eq_div_pow]
  simp only [recycle, h.recycleFlag_ok hlive, ok_bind, buddyIdOf, xor_one, hshift]
  rw [hg.isBlockInUse_ok ht hb', ok_bind, hbit]

theorem freeByte_of_merge (hlive : m.node (t + 1) b = .live) (hbuddy : m.node (t + 1) (buddy b) = .free) {chunk : ℕ}
    (hx : FreeByte (m.merge hlive hbuddy) chunk x) : FreeByte m chunk x := by
  obtain ⟨u, c, hc, hxc⟩ := hx
  exact ⟨u, c, ((merge_free hlive hbuddy).mp hc).1, hxc⟩

theorem inBlock_merged (ht : t + 1 < n) (hbuddy : m.node (t + 1) (buddy b) = .free) {chunk : ℕ}
    (hx : InBlock n chunk t (b / 2) x) : FreeByte m chunk x ∨ InBlock n chunk (t + 1) b x := by
  obtain ⟨c, hc, hxc⟩ := inBlock_child (by omega) hx
  rcases eq_or_buddy hc with rfl | rfl
  · exact Or.inr hxc
  · exact Or.inl ⟨t + 1, buddy b, hbuddy, hxc⟩

/-- Recycling the block above recycles its half. -/
theorem Recycled.merged {m' : BuddyMap n} (ht : t + 1 < n) (hlive : m.node (t + 1) b = .live)
    (hbuddy : m.node (t + 1) (buddy b) = .free) {chunk : ℕ}
    (hrec : Recycled chunk (m.merge hlive hbuddy) m' t (b / 2)) : Recycled chunk m m' (t + 1) b := by
  refine ⟨?_, ?_⟩
  · intro u c
    have hsplit : m.node t (b / 2) = .split := (m.child ht).mp (by simp [hlive])
    rw [hrec.live, merge_live]
    constructor
    · rintro ⟨hc | hc, hne⟩
      · exact hc
      · exact absurd hc hne
    · intro hc
      refine ⟨Or.inl hc, ?_⟩
      rintro ⟨rfl, rfl⟩
      simp [hsplit] at hc
  · intro x hx
    rcases hrec.freeBytes x hx with hx | hx
    · exact Or.inl (freeByte_of_merge hlive hbuddy hx)
    · exact inBlock_merged ht hbuddy hx

/-- `recycle` of a live block ends, and the block is free afterwards, alone or
within a larger free block. -/
theorem Represents.recycle_spec (h : Represents m s) (hlive : m.node t b = .live) :
    ∃ s' : BuddyAllocatorDetails space, ∃ m' : BuddyMap n,
      s.recycle t b = .ok s' ∧ Represents m' s' ∧ Recycled s.chunk m m' t b ∧ Kept s s' ∧
      ∀ x, ¬ InBlock n s.chunk t b x → ¬ FreeByte m s.chunk x → s'.mem x = s.mem x := by
  induction t generalizing m s b with
  | zero =>
    simp only [recycle, h.recycleFlag_ok hlive, ok_bind]
    exact h.recyclePush_spec hlive (Or.inl rfl)
  | succ t ih =>
    obtain ⟨ht, -⟩ := m.inside (t := t + 1) (b := b) (by simp [hlive])
    obtain ⟨-, hb'⟩ := m.inside (m.buddy_ne_absent (t := t) (b := b) (by simp [hlive]))
    have hstart := h.recycle_succ hlive
    by_cases huse : m.InUse (t + 1) (buddy b)
    · have hset := (h.flags _ _ ht hb').mpr huse
      rw [hstart, if_pos hset]
      apply h.recyclePush_spec hlive
      right
      rcases huse with huse | huse <;> simp [huse]
    · have hclear : ¬ flagBit s.flags (2 ^ (t + 1) + buddy b) = true :=
        fun hset => huse ((h.flags _ _ ht hb').mp hset)
      have hbuddy := buddy_free hlive huse
      obtain ⟨s₂, hunlink, hrep, hkept, hframe⟩ := h.recycleUnlink_spec hlive hbuddy
      have htop : (m.merge hlive hbuddy).node t (b / 2) = .live :=
        (merge_live hlive hbuddy).mpr (Or.inr ⟨rfl, rfl⟩)
      obtain ⟨s', m', hrun, hrep', hrec, hkept', hframe'⟩ := ih hrep htop
      rw [hkept.chunk] at hrec hframe'
      refine ⟨s', m', ?_, hrep', hrec.merged ht hlive hbuddy, hkept.trans hkept', ?_⟩
      · rw [hstart, if_neg hclear, hunlink, ok_bind]
        exact hrun
      · intro x hx hnot
        rw [hframe' x ?_ ?_, hframe x hnot]
        · intro hin
          rcases inBlock_merged ht hbuddy hin with hin | hin
          · exact hnot hin
          · exact hx hin
        · exact fun hin => hnot (freeByte_of_merge hlive hbuddy hin)

end Recycle
section Obtain

/-- What `obtain` does to the map: a block of the tier, taken from free bytes,
is live. -/
structure Obtained (chunk : ℕ) (m m' : BuddyMap n) (t b : ℕ) : Prop where
  lt : b < 2 ^ t
  unused : ¬ m.InUse t b
  source : ∃ u ≤ t, ∃ c, m.node u c = .free
  inFree : ∀ x, InBlock n chunk t b x → FreeByte m chunk x
  live : ∀ u c, m'.node u c = .live ↔ m.node u c = .live ∨ (u = t ∧ c = b)
  freeBytes : ∀ x, FreeByte m' chunk x → FreeByte m chunk x

theorem Represents.head_eq_zero (h : Represents m s) (ht : t < n) (hzero : s.freeChainHead t = 0)
    (c : ℕ) : m.node t c ≠ .free := by
  obtain ⟨ids, hchain, hids⟩ := h.chains t ht
  intro hfree
  have hmem := (hids c).mpr hfree
  have hnil := hchain.head_eq_zero_iff.mp hzero
  simp only [List.map_eq_nil_iff] at hnil
  simp [hnil] at hmem

/-- Step 1 of `obtain` takes the first block of the chain. -/
theorem Represents.obtainFirst_spec (h : Represents m s) (ht : t < n)
    (hne : s.freeChainHead t ≠ 0) :
    ∃ b, ∃ s' : BuddyAllocatorDetails space, ∃ m' : BuddyMap n,
      s.obtainFirst t = .ok (b, s') ∧ Represents m' s' ∧ Obtained s.chunk m m' t b ∧ Kept s s' ∧
      ∀ x, ¬ FreeByte m s.chunk x → s'.mem x = s.mem x := by
  obtain ⟨b, hfree, hhead, hchains, hframe⟩ := h.chains.pop ht hne
  obtain ⟨-, hb⟩ := m.inside (t := t) (b := b) (by simp [hfree])
  let s₁ : BuddyAllocatorDetails space := { s with
    freeChainHead := Function.update s.freeChainHead t (next space.sizeofPointer s.mem (s.freeChainHead t))
    mem := popFront space.sizeofPointer s.mem (s.freeChainHead t) }
  have hg : Geometry n s₁ := h.geometry.congr rfl rfl rfl
  have hid : u32 (s.freeChainHead t - s.chunk) / blockBytes n t = b := by
    rw [hhead]
    exact h.geometry.blockId_of_record ht hb
  have hrun : s.obtainFirst t = .ok (b, { s₁ with flags := setFlagBit s.flags (2 ^ t + b) true }) := by
    simp only [obtainFirst, h.geometry.blockSizeOf_ok ht, ok_bind, hid]
    change (s₁.setBlockInUse t b true >>= fun s => Except.ok (b, s)) = _
    rw [hg.setBlockInUse_ok ht hb, ok_bind]
  refine ⟨b, _, m.take hfree, hrun,
    ⟨h.geometry.congr rfl rfl rfl, ?_, hchains _ (fun u c => take_free hfree)⟩,
    ⟨hb, ?_, ⟨t, le_rfl, b, hfree⟩, fun x hx => ⟨t, b, hfree, hx⟩, fun u c => take_live hfree, ?_⟩,
    ⟨rfl, rfl, rfl⟩, hframe⟩
  · refine h.flags.set hb ?_
    intro u c _
    rw [take_inUse]
    split <;> simp_all
  · simp [InUse, hfree]
  · rintro x ⟨u, c, hc, hxc⟩
    exact ⟨u, c, ((take_free hfree).mp hc).1, hxc⟩

theorem Represents.divided (h : Represents m s) (hlive : m.node t b = .live) (ht : t + 1 < n) :
    Represents (m.divide hlive ht) ({ s with
      flags := setFlagBit (setFlagBit s.flags (2 ^ (t + 1) + 2 * b) true) (2 ^ (t + 1) + (2 * b + 1)) true } :
        BuddyAllocatorDetails space) := by
  obtain ⟨-, hb⟩ := m.inside (t := t) (b := b) (by simp [hlive])
  refine ⟨h.geometry.congr rfl rfl rfl, ?_, ?_⟩
  · intro u c hu hc
    rw [flagBit_setFlagBit, flagBit_setFlagBit, divide_inUse, ← h.flags u c hu hc]
    by_cases hhalf : u = t + 1 ∧ c / 2 = b
    · obtain ⟨rfl, hc2⟩ := hhalf
      have hor : c = 2 * b + 1 ∨ c = 2 * b := by omega
      rcases hor with rfl | rfl <;> simp [hc2]
    · have hother : ∀ half < 2 ^ (t + 1), half / 2 = b → 2 ^ u + c ≠ 2 ^ (t + 1) + half := by
        intro half hlt hhalfb heq
        obtain ⟨rfl, rfl⟩ := flagIndex_inj hc hlt heq
        exact hhalf ⟨rfl, hhalfb⟩
      have hlow := hother (2 * b) (by rw [pow_succ]; omega) (by omega)
      have hhigh := hother (2 * b + 1) (by rw [pow_succ]; omega) (by omega)
      simp [hlow, hhigh, hhalf]
  · intro u hu
    obtain ⟨ids, hchain, hids⟩ := h.chains u hu
    exact ⟨ids, hchain, fun c => (hids c).trans (divide_free hlive ht).symm⟩

/-- Step 2 of `obtain` divides a block of the tier above and frees its upper half. -/
theorem Represents.obtainHalf_spec (h : Represents m s) (hlive : m.node t b = .live)
    (ht : t + 1 < n) :
    ∃ s' : BuddyAllocatorDetails space, ∃ m' : BuddyMap n,
      (do
        let s ← s.setBlockInUse (t + 1) (2 * b) true
        let s ← s.setBlockInUse (t + 1) (2 * b + 1) true
        s.recycle (t + 1) (2 * b + 1)) = .ok s' ∧
      Represents m' s' ∧ Kept s s' ∧
      (∀ u c, m'.node u c = .live ↔
        (m.node u c = .live ∧ ¬ (u = t ∧ c = b)) ∨ (u = t + 1 ∧ c = 2 * b)) ∧
      (∀ x, FreeByte m' s.chunk x → FreeByte m s.chunk x ∨ InBlock n s.chunk t b x) ∧
      ∀ x, ¬ InBlock n s.chunk t b x → ¬ FreeByte m s.chunk x → s'.mem x = s.mem x := by
  obtain ⟨-, hb⟩ := m.inside (t := t) (b := b) (by simp [hlive])
  have hlow : 2 * b < 2 ^ (t + 1) := by
    rw [pow_succ]
    omega
  have hhigh : 2 * b + 1 < 2 ^ (t + 1) := by
    rw [pow_succ]
    omega
  let s₁ : BuddyAllocatorDetails space := { s with
    flags := setFlagBit s.flags (2 ^ (t + 1) + 2 * b) true }
  have hg : Geometry n s₁ := h.geometry.congr rfl rfl rfl
  let m₁ := m.divide hlive ht
  have hrep := h.divided hlive ht
  have hupper : m₁.node (t + 1) (2 * b + 1) = .live :=
    (divide_live hlive ht).mpr (Or.inr ⟨rfl, by omega⟩)
  obtain ⟨s', m', hrun, hrep', hrec, hkept, hframe⟩ := hrep.recycle_spec hupper
  have hfree : ∀ x, FreeByte m₁ s.chunk x → FreeByte m s.chunk x := by
    rintro x ⟨u, c, hc, hxc⟩
    exact ⟨u, c, (divide_free hlive ht).mp hc, hxc⟩
  have hin : ∀ x, InBlock n s.chunk (t + 1) (2 * b + 1) x → InBlock n s.chunk t b x := by
    intro x hx
    have := inBlock_parent (by omega) hx
    rwa [show (2 * b + 1) / 2 = b by omega] at this
  refine ⟨s', m', ?_, hrep', ⟨hkept.chunk, hkept.usedBytes, hkept.hwmBytes⟩, ?_, ?_, ?_⟩
  · rw [h.geometry.setBlockInUse_ok ht hlow, ok_bind, hg.setBlockInUse_ok ht hhigh, ok_bind]
    exact hrun
  · intro u c
    rw [hrec.live, divide_live]
    constructor
    · rintro ⟨hc | ⟨rfl, hc⟩, hne⟩
      · exact Or.inl hc
      · exact Or.inr ⟨rfl, by simp at hne; omega⟩
    · rintro (⟨hc, hne⟩ | ⟨rfl, rfl⟩)
      · refine ⟨Or.inl ⟨hc, hne⟩, ?_⟩
        rintro ⟨rfl, rfl⟩
        have habs := half_absent (m := m) (t := t) (b := b) (c := 2 * b + 1) (by simp [hlive]) (by omega)
        simp [habs] at hc
      · exact ⟨Or.inr ⟨rfl, by omega⟩, by omega⟩
  · intro x hx
    rcases hrec.freeBytes x hx with hx | hx
    · exact Or.inl (hfree x hx)
    · exact Or.inr (hin x hx)
  · intro x hx hnot
    exact hframe x (fun h => hx (hin x h)) (fun h => hnot (hfree x h))

theorem obtainBlock_first (hne : s.freeChainHead t ≠ 0) : s.obtainBlock t = s.obtainFirst t := by
  cases t with
  | zero => exact if_pos hne
  | succ t => exact if_pos hne

theorem obtainBlock_zero (hzero : s.freeChainHead 0 = 0) : s.obtainBlock 0 = .ok (invalidValue, s) :=
  if_neg (not_not.mpr hzero)

theorem obtainBlock_succ (hzero : s.freeChainHead (t + 1) = 0) :
    s.obtainBlock (t + 1) = s.obtainBlock t >>= fun r =>
      if r.1 ≠ invalidValue then
        (do
          let s ← r.2.setBlockInUse (t + 1) (u32 (r.1 <<< 1)) true
          let s ← s.setBlockInUse (t + 1) (u32 (u32 (r.1 <<< 1) + 1)) true
          s.recycle (t + 1) (u32 (u32 (r.1 <<< 1) + 1))) >>= fun s => .ok (u32 (r.1 <<< 1), s)
      else .ok (invalidValue, r.2) := by
  have hnull : ¬ s.freeChainHead (t + 1) ≠ NULL := not_not.mpr hzero
  rw [obtainBlock, if_neg hnull]
  congr 1
  funext r
  obtain ⟨b, s₁⟩ := r
  by_cases hvalid : b ≠ invalidValue
  · simp only [if_pos hvalid]
    cases s₁.setBlockInUse (t + 1) (u32 (b <<< 1)) true with
    | error e => rfl
    | ok s₂ =>
      simp only [ok_bind]
      cases s₂.setBlockInUse (t + 1) (u32 (u32 (b <<< 1) + 1)) true <;> rfl
  · simp only [if_neg hvalid]
    rfl

/-- The lower half of a block that was obtained is obtained, once the upper half is free. -/
theorem Obtained.half {m₁ : BuddyMap n} {chunk : ℕ} (hob : Obtained chunk m m₁ t b) (ht : t + 1 < n)
    (hlive : ∀ u c, m'.node u c = .live ↔
      (m₁.node u c = .live ∧ ¬ (u = t ∧ c = b)) ∨ (u = t + 1 ∧ c = 2 * b))
    (hfree : ∀ x, FreeByte m' chunk x → FreeByte m₁ chunk x ∨ InBlock n chunk t b x) :
    Obtained chunk m m' (t + 1) (2 * b) := by
  have hb := hob.lt
  have hparent : 2 * b / 2 = b := by omega
  refine ⟨?_, ?_, ?_, ?_, ?_, ?_⟩
  · rw [pow_succ]
    omega
  · intro huse
    have hsplit := (m.child ht).mp huse.ne_absent
    rw [hparent] at hsplit
    exact hob.unused (Or.inr hsplit)
  · obtain ⟨u, hu, hc⟩ := hob.source
    exact ⟨u, by omega, hc⟩
  · intro x hx
    have hpar := inBlock_parent (by omega) hx
    rw [hparent] at hpar
    exact hob.inFree x hpar
  · intro u c
    rw [hlive, hob.live]
    have hnot : m.node t b ≠ .live := fun hl => hob.unused (Or.inl hl)
    constructor
    · rintro (⟨hc | hc, hne⟩ | hc)
      · exact Or.inl hc
      · exact absurd hc hne
      · exact Or.inr hc
    · rintro (hc | hc)
      · refine Or.inl ⟨Or.inl hc, ?_⟩
        rintro ⟨rfl, rfl⟩
        exact hnot hc
      · exact Or.inr hc
  · intro x hx
    rcases hfree x hx with hx | hx
    · exact hob.freeBytes x hx
    · exact hob.inFree x hx

/-- `obtain` hands out a block exactly when its tier or one above has a free
block, and changes nothing otherwise. -/
theorem Represents.obtainBlock_spec (h : Represents m s) (ht : t < n) :
    (s.obtainBlock t = .ok (invalidValue, s) ∧ ∀ u ≤ t, ∀ c, m.node u c ≠ .free) ∨
    ∃ b, ∃ s' : BuddyAllocatorDetails space, ∃ m' : BuddyMap n,
      s.obtainBlock t = .ok (b, s') ∧ Represents m' s' ∧ Obtained s.chunk m m' t b ∧ Kept s s' ∧
      ∀ x, ¬ FreeByte m s.chunk x → s'.mem x = s.mem x := by
  induction t with
  | zero =>
    by_cases hzero : s.freeChainHead 0 = 0
    · refine Or.inl ⟨obtainBlock_zero hzero, ?_⟩
      intro u hu
      obtain rfl : u = 0 := by omega
      exact h.head_eq_zero ht hzero
    · right
      rw [obtainBlock_first hzero]
      exact h.obtainFirst_spec ht hzero
  | succ t ih =>
    by_cases hzero : s.freeChainHead (t + 1) = 0
    · have hhere := h.head_eq_zero ht hzero
      have hstart := obtainBlock_succ hzero
      rcases ih (by omega) with ⟨hfail, habove⟩ | ⟨b, s₁, m₁, hrun, hrep, hob, hkept, hframe⟩
      · left
        refine ⟨by rw [hstart, hfail]; rfl, ?_⟩
        intro u hu
        rcases Nat.lt_or_eq_of_le hu with hlt | rfl
        · exact habove u (by omega)
        · exact hhere
      · right
        have hvalid := ne_invalidValue h.geometry.le (show t < n by omega) hob.lt
        have hlive : m₁.node t b = .live := (hob.live t b).mpr (Or.inr ⟨rfl, rfl⟩)
        obtain ⟨s', m', hhalf, hrep', hkept', hlive', hfree', hframe'⟩ := hrep.obtainHalf_spec hlive ht
        have hpow : 2 ^ t ≤ 2 ^ 28 := Nat.pow_le_pow_right (by omega) (by have := h.geometry.le; omega)
        have hb := hob.lt
        have hid1 : u32 (b <<< 1) = 2 * b := by
          rw [Nat.shiftLeft_eq, pow_one, u32_of_lt (by omega), Nat.mul_comm]
        have hid2 : u32 (2 * b + 1) = 2 * b + 1 := u32_of_lt (by omega)
        rw [hkept.chunk] at hfree' hframe'
        refine ⟨2 * b, s', m', ?_, hrep', hob.half ht hlive' hfree', hkept.trans hkept', ?_⟩
        · rw [hstart, hrun, ok_bind, if_pos hvalid]
          simp only [hid1, hid2, hhalf, ok_bind]
        · intro x hx
          rw [hframe' x (fun h => hx (hob.inFree x h)) (fun h => hx (hob.freeBytes x h)), hframe x hx]
    · right
      rw [obtainBlock_first hzero]
      exact h.obtainFirst_spec ht hzero

end Obtain
end BuddyAllocatorDetails
end LibXpf.Allocators
