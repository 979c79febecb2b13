import LibXpf.Allocators.BuddyTiling

/-! # The high water mark of a `BuddyAllocator`

The mark is raised in `alloc` only. Here a session is watched together with the
values of `UsedBytes` since the last `reset`, also the value between the two
halves of a move, when the old block and the new one are both counted. `reset`
puts the mark to zero whatever is live, so after it more can be used than the
mark says.
-/
namespace LibXpf.Allocators
open ByteMemory BuddySystem BuddyMap GuardedRuns

namespace BuddyAllocatorDetails
variable {space : AddressSpace} {s s' : BuddyAllocatorDetails space} {n t b p q size : ℕ} {m : BuddyMap n}

section Counters

/-- Besides `alloc` and the count of a release nothing touches the counters. -/
theorem kept_of_recycle (hrun : s.recycle t b = .ok s') : Kept s s' :=
  kept_of_elsewhere fun _ hf => hf.recycle hrun

theorem kept_of_obtainBlock (hrun : s.obtainBlock t = .ok (b, s')) : Kept s s' :=
  kept_of_elsewhere fun _ hf => hf.obtainBlock hrun

/-- `alloc` raises the mark to what is then in use. -/
theorem hwmBytes_of_alloc (hmark : s.usedBytes ≤ s.hwmBytes) (hrun : s.alloc size = .ok (p, s')) :
    s'.hwmBytes = max s.hwmBytes s'.usedBytes := by
  rw [alloc] at hrun
  dsimp only at hrun
  split at hrun
  · cases hrun
    exact (max_eq_left hmark).symm
  · obtain ⟨⟨blockId, u⟩, hobtain, hrun⟩ := ok_of_bind hrun
    have hu := kept_of_obtainBlock hobtain
    dsimp only at hrun
    split at hrun
    · cases hrun
      rw [hu.hwmBytes, hu.usedBytes, max_eq_left hmark]
    · obtain ⟨bsize, -, hrun⟩ := ok_of_bind hrun
      cases hrun
      dsimp only
      rw [hu.hwmBytes]
      split <;> omega

theorem hwmBytes_of_recycleUsed (hrun : s.recycleUsed t b = .ok s') : s'.hwmBytes = s.hwmBytes := by
  obtain ⟨u, hrecycle, hrun⟩ := ok_of_bind hrun
  obtain ⟨bsize, -, hrun⟩ := ok_of_bind hrun
  cases hrun
  exact (kept_of_recycle hrecycle).hwmBytes

theorem hwmBytes_of_dealloc (hrun : s.dealloc p size = .ok s') : s'.hwmBytes = s.hwmBytes := by
  obtain ⟨_, -, hrun⟩ := ok_of_bind hrun
  split at hrun
  · cases hrun
    rfl
  · obtain ⟨blockId, -, hrun⟩ := ok_of_bind hrun
    obtain ⟨_, -, hrun⟩ := ok_of_bind hrun
    split at hrun
    · exact hwmBytes_of_recycleUsed hrun
    · cases hrun
      rfl

/-- A release counts a live block as unused. -/
theorem Accounted.recycleUsed_le (h : Accounted m s) (hlive : m.node t b = .live)
    (hrun : s.recycleUsed t b = .ok s') : s'.usedBytes ≤ s.usedBytes := by
  obtain ⟨u, m', hrun', hacc, hrec, -⟩ := h.recycleUsed_spec hlive
  obtain rfl := Except.ok.inj (hrun.symm.trans hrun')
  have hbytes := liveBytes_remove (S := n + 3) hlive hrec.live
  rw [hacc.used, h.used]
  exact hbytes ▸ Nat.le_add_right _ _

end Counters

section Moves

/-- The states that a `realloc` passes through between its calls. A move has one:
the new block is obtained and the old one is not given back yet. -/
def reallocStates (s : BuddyAllocatorDetails space) (p size : ℕ) :
    Except Fault (List (BuddyAllocatorDetails space)) := do
  if p = NULL ∨ size = 0 then
    return []
  match ← s.locateBlockInUse p with
  | some (tier, _) =>
    let blockSize ← s.blockSizeOf tier
    if tier = 0 ∧ size > blockSize then
      return []
    if s.tierNum - 1 = tier ∧ size ≤ blockSize then
      return []
    if size > blockSize ∨ size ≤ blockSize >>> 1 then
      let (_, s) ← s.alloc size
      return [s]
    return []
  | none => return []

/-- The mark after more values were seen. -/
def raised (mark : ℕ) (values : List ℕ) : ℕ := values.foldl max mark

/-- The values seen on the way from `s` to `s'` through these states are what
raised the mark, and none exceeds the capacity. -/
structure Raises (s s' : BuddyAllocatorDetails space) (between : List (BuddyAllocatorDetails space)) : Prop where
  mark : s'.hwmBytes = raised s.hwmBytes ((between ++ [s']).map used)
  within : ∀ t ∈ between, t.usedBytes ≤ s.capacity

theorem Raises.of_alloc (hmark : s.usedBytes ≤ s.hwmBytes) (hrun : s.alloc size = .ok (p, s')) :
    Raises s s' [] := ⟨hwmBytes_of_alloc hmark hrun, by simp⟩

theorem Raises.of_calloc (hmark : s.usedBytes ≤ s.hwmBytes) {num : ℕ} (hrun : s.calloc num size = .ok (p, s')) :
    Raises s s' [] := by
  obtain ⟨⟨q, u⟩, halloc, hfill⟩ := ok_of_bind hrun
  have hraises := Raises.of_alloc hmark halloc
  dsimp only at hfill
  split at hfill
  · cases hfill
    exact ⟨hraises.mark, by simp⟩
  · cases hfill
    exact hraises

/-- Nothing new is seen when what is in use does not grow. -/
theorem Raises.of_le (hmark : s.usedBytes ≤ s.hwmBytes) (hused : s'.usedBytes ≤ s.usedBytes)
    (hhwm : s'.hwmBytes = s.hwmBytes) : Raises s s' [] :=
  ⟨hhwm.trans (max_eq_left (hused.trans hmark)).symm, by simp⟩

theorem Accounted.alloc_le (h : Accounted m s) (hrun : s.alloc size = .ok (p, s')) :
    s'.usedBytes ≤ s.capacity := by
  rw [h.geometry.capacity_eq]
  rcases h.alloc_spec size with ⟨hrun', -⟩ | ⟨b, u, m', hrun', -, hacc, -⟩
  · obtain ⟨-, rfl⟩ := Prod.mk.inj (Except.ok.inj (hrun.symm.trans hrun'))
    exact h.used_le
  · obtain ⟨-, rfl⟩ := Prod.mk.inj (Except.ok.inj (hrun.symm.trans hrun'))
    exact hacc.used_le

/-- A successful `alloc` counts the block it hands out. -/
theorem Accounted.alloc_used (h : Accounted m s) (hrun : s.alloc size = .ok (p, s')) (hp : p ≠ NULL) :
    s'.usedBytes = s.usedBytes + blockBytes n (tierFor n size) := by
  rcases h.alloc_spec size with ⟨hrun', -⟩ | ⟨b, u, m', hrun', -, hacc, hob, -⟩
  · obtain ⟨rfl, -⟩ := Prod.mk.inj (Except.ok.inj (hrun.symm.trans hrun'))
    exact absurd rfl hp
  · obtain ⟨-, rfl⟩ := Prod.mk.inj (Except.ok.inj (hrun.symm.trans hrun'))
    rw [hacc.used, h.used]
    exact liveBytes_add (fun hl => hob.unused (Or.inl hl)) hob.live

/-- What a move leaves counted is within what it counted on the way. -/
theorem Reallocated.usedBytes_le (h : Accounted m s) (hlive : m.node t b = .live)
    (hresult : Reallocated m s t b size q s') :
    s'.usedBytes ≤ s.usedBytes + blockBytes n (tierFor n size) := by
  cases hresult with
  | failed => exact Nat.le_add_right _ _
  | kept => exact Nat.le_add_right _ _
  | moved c s' m₁ m' htier hob hrecycled hacc' =>
    have hadd := liveBytes_add (S := n + 3) (fun hl => hob.unused (Or.inl hl)) hob.live
    have hremove := liveBytes_remove (S := n + 3) ((hob.live t b).mpr (Or.inl hlive)) hrecycled.live
    calc s'.usedBytes = m'.liveBytes (n + 3) := hacc'.used
      _ ≤ m₁.liveBytes (n + 3) := hremove ▸ Nat.le_add_right _ _
      _ = s.usedBytes + blockBytes n (tierFor n size) := by rw [hadd, h.used, blockBytes]

/-- A move is counted twice for a moment. -/
theorem Accounted.reallocMove_raises (h : Accounted m s) (hmark : s.usedBytes ≤ s.hwmBytes)
    (hlive : m.node t b = .live) {length : ℕ} (hlength : length = min size (blockBytes n t))
    (hrun : s.reallocMove (addrOf n s.chunk t b) size (blockBytes n t) length = .ok (q, s')) :
    ∃ p u, s.alloc size = .ok (p, u) ∧ Raises s s' [u] := by
  have hend : s'.usedBytes ≤ s.usedBytes + blockBytes n (tierFor n size) := by
    obtain ⟨q', u', hrun', hresult⟩ := h.reallocMove_spec hlive size
    rw [hlength] at hrun
    obtain ⟨-, rfl⟩ := Prod.mk.inj (Except.ok.inj (hrun.symm.trans hrun'))
    exact hresult.usedBytes_le h hlive
  obtain ⟨⟨p, u⟩, halloc, hmove⟩ := ok_of_bind hrun
  have hu := hwmBytes_of_alloc hmark halloc
  have hwithin := h.alloc_le halloc
  refine ⟨p, u, halloc, ?_, by simpa using hwithin⟩
  change s'.hwmBytes = max (max s.hwmBytes u.usedBytes) s'.usedBytes
  dsimp only at hmove
  split at hmove
  · rename_i hp
    obtain ⟨v, hdealloc, hv⟩ := ok_of_bind hmove
    cases hv
    have hhwm := hwmBytes_of_dealloc hdealloc
    have hused := h.alloc_used halloc hp
    dsimp only at hhwm
    omega
  · cases hmove
    omega

/-- `realloc` of a live block to a nonzero size. -/
theorem Accounted.realloc_raises (h : Accounted m s) (hmark : s.usedBytes ≤ s.hwmBytes)
    (hlive : m.node t b = .live) (hsize : size ≠ 0)
    (hrun : s.realloc (addrOf n s.chunk t b) size = .ok (q, s')) :
    ∃ between, s.reallocStates (addrOf n s.chunk t b) size = .ok between ∧ Raises s s' between := by
  obtain ⟨ht, -⟩ := m.inside (t := t) (b := b) (by simp [hlive])
  have hnull : ¬ (addrOf n s.chunk t b = NULL ∨ size = 0) :=
    not_or.mpr ⟨h.geometry.addrOf_ne_null t b, hsize⟩
  have hhalf : blockBytes n t >>> 1 = blockBytes n t / 2 := by simp [Nat.shiftRight_eq_div_pow]
  have hsame : Raises s s [] := Raises.of_le hmark le_rfl rfl
  rw [h.realloc_eq hlive hsize] at hrun
  simp only [reallocStates, if_neg hnull, h.locateBlockInUse_spec hlive, ok_bind,
    h.geometry.blockSizeOf_ok ht, h.geometry.tierNum_eq, hhalf, pure_eq_ok]
  by_cases htop : t = 0 ∧ size > blockBytes n t
  · rw [if_pos htop] at hrun ⊢
    cases hrun
    exact ⟨[], rfl, hsame⟩
  rw [if_neg htop] at hrun ⊢
  by_cases hbottom : n - 1 = t ∧ size ≤ blockBytes n t
  · rw [if_pos hbottom] at hrun ⊢
    cases hrun
    exact ⟨[], rfl, hsame⟩
  rw [if_neg hbottom] at hrun ⊢
  by_cases hmove : size > blockBytes n t ∨ size ≤ blockBytes n t / 2
  · have hraises : ∃ p u, s.alloc size = .ok (p, u) ∧ Raises s s' [u] := by
      rcases hmove with hgrow | hshrink
      · rw [if_pos hgrow] at hrun
        exact h.reallocMove_raises hmark hlive (by omega) hrun
      · rw [if_neg (by omega), if_pos hshrink] at hrun
        exact h.reallocMove_raises hmark hlive (by omega) hrun
    obtain ⟨p, u, halloc, hraises⟩ := hraises
    refine ⟨[u], ?_, hraises⟩
    rw [if_pos hmove, halloc]
    rfl
  · obtain ⟨hgrow, hshrink⟩ := not_or.mp hmove
    rw [if_neg hgrow, if_neg hshrink] at hrun
    cases hrun
    refine ⟨[], ?_, hsame⟩
    rw [if_neg hmove]

end Moves
end BuddyAllocatorDetails

/-- The greatest value of a list, and one of its members. -/
def IsPeak (mark : ℕ) (values : List ℕ) : Prop := mark ∈ values ∧ ∀ u ∈ values, u ≤ mark

instance (mark : ℕ) (values : List ℕ) : Decidable (IsPeak mark values) := inferInstanceAs (Decidable (_ ∧ _))

open BuddyAllocatorDetails in
theorem IsPeak.append {mark : ℕ} {since : List ℕ} (h : IsPeak mark since) (values : List ℕ) :
    IsPeak (raised mark values) (since ++ values) := by
  induction values generalizing mark since with
  | nil => rwa [List.append_nil]
  | cons v rest ih =>
    have hone : IsPeak (max mark v) (since ++ [v]) := by
      constructor
      · rcases max_choice mark v with heq | heq
        · rw [heq]
          exact List.mem_append_left _ h.1
        · rw [heq]
          exact List.mem_append_right _ List.mem_cons_self
      · intro u hu
        rcases List.mem_append.mp hu with hu | hu
        · exact (h.2 u hu).trans (le_max_left _ _)
        · rw [List.mem_singleton.mp hu]
          exact le_max_right _ _
    rw [List.append_cons]
    exact ih hone

namespace Buddy
open BuddyAllocatorDetails
variable {space : AddressSpace} {n : ℕ} {m : BuddyMap n}

/-- A session with the values of `UsedBytes` since the last `reset`. -/
structure Watched (space : AddressSpace) where
  session : State space
  since : List ℕ

def watch (session : State space) : Watched space := ⟨session, [session.details.used]⟩

def statesBetween (s : BuddyAllocatorDetails space) :
    Request → Except Fault (List (BuddyAllocatorDetails space))
  | .realloc p size => s.reallocStates p size
  | _ => return []

def watchedStep (w : Watched space) (r : Request) : Except Fault (Watched space) := do
  let session ← step w.session r
  let between ← statesBetween w.session.details r
  if r = .reset then
    return watch session
  return ⟨session, w.since ++ (between ++ [session.details]).map used⟩

/-- `hwm` is the maximum since the last `reset`, between `used` and `capacity`. -/
def MarksPeak (w : Watched space) : Prop :=
  IsPeak w.session.details.hwm w.since ∧ w.session.details.used ≤ w.session.details.hwm ∧
    w.session.details.hwm ≤ w.session.details.capacity

instance (w : Watched space) : Decidable (MarksPeak w) := inferInstanceAs (Decidable (_ ∧ _))

/-- Nothing is in use when the mark is reset. -/
def ResetsWhenEmpty (w : Watched space) (r : Request) : Prop :=
  r = .reset → w.session.details.used = 0

instance (w : Watched space) (r : Request) : Decidable (ResetsWhenEmpty w r) :=
  inferInstanceAs (Decidable (_ → _))

def AdmitsWatched (w : Watched space) (r : Request) : Prop := Admits w.session r

instance (w : Watched space) (r : Request) : Decidable (AdmitsWatched w r) :=
  inferInstanceAs (Decidable (Admits w.session r))

/-- A request other than `reset` moves the mark to the greatest value it passes. -/
theorem step_raises {w w' : State space} {r : Request} (h : Holds m w) (hadm : Admits w r)
    (hmark : w.details.usedBytes ≤ w.details.hwmBytes) (hreset : r ≠ .reset)
    (hrun : step w r = .ok w') :
    ∃ between, statesBetween w.details r = .ok between ∧ Raises w.details w'.details between := by
  obtain ⟨s, live⟩ := w
  have hrelease : ∀ {t b : ℕ} {u : BuddyAllocatorDetails space}, m.node t b = .live →
      s.recycleUsed t b = .ok u → Raises s u [] := fun hlive hrun =>
    Raises.of_le hmark (h.accounted.recycleUsed_le hlive hrun) (hwmBytes_of_recycleUsed hrun)
  have hanswered := Session.step_answered hrun
  generalize w'.details = u at hanswered ⊢
  cases hanswered with
  | alloc halloc => exact ⟨[], rfl, Raises.of_alloc hmark halloc⟩
  | calloc hcalloc => exact ⟨[], rfl, Raises.of_calloc hmark hcalloc⟩
  | @realloc p size q _ hrealloc =>
    have hcall : s.realloc p size = .ok (q, u) := hrealloc
    by_cases hnull : p = NULL
    · have halloc : s.alloc size = .ok (q, u) := by simpa [realloc, hnull] using hcall
      exact ⟨[], by simp [statesBetween, reallocStates, hnull], Raises.of_alloc hmark halloc⟩
    obtain ⟨t, b, hlive, rfl⟩ := h.blocks.block (hadm.1.resolve_left hnull)
    by_cases hzero : size = 0
    · refine ⟨[], by simp [statesBetween, reallocStates, hzero], ?_⟩
      rw [realloc, if_neg hnull, if_pos hzero, h.accounted.free_eq hlive] at hcall
      obtain ⟨v, hrecycle, hv⟩ := ok_of_bind hcall
      cases hv
      exact hrelease hlive hrecycle
    · exact h.accounted.realloc_raises hmark hlive hzero hcall
  | @free p _ hfree =>
    obtain ⟨t, b, hlive, rfl⟩ := h.blocks.block hadm.1
    have hcall : s.free (addrOf n s.chunk t b) = .ok u := hfree
    rw [h.accounted.free_eq hlive] at hcall
    exact ⟨[], rfl, hrelease hlive hcall⟩
  | @dealloc p size _ hdealloc =>
    obtain ⟨l, hl, rfl, rfl⟩ := hadm.2
    obtain ⟨t, b, hlive, hptr⟩ := h.blocks.block ⟨l, hl, rfl⟩
    have hcall : s.dealloc l.ptr l.size = .ok u := hdealloc
    rw [hptr, h.accounted.dealloc_eq hlive (h.blocks.tier hl hlive hptr)] at hcall
    exact ⟨[], rfl, hrelease hlive hcall⟩
  | reset => exact absurd rfl hreset
  | write p i v => exact ⟨[], rfl, Raises.of_le hmark le_rfl rfl⟩

/-- The invariant of a watched session. -/
def Marked (n : ℕ) (w : Watched space) : Prop := (∃ m : BuddyMap n, Holds m w.session) ∧ MarksPeak w

theorem watched_good (w : Watched space) (r : Request) (hinv : Marked n w) (hadm : AdmitsWatched w r)
    (hreset : ResetsWhenEmpty w r) : ∃ w', watchedStep w r = .ok w' ∧ Marked n w' := by
  obtain ⟨⟨m, hm⟩, hpeak, hmark, hcap⟩ := hinv
  obtain ⟨session, m', hrun, hm', -⟩ := step_effect w.session r hm hadm
  by_cases hr : r = .reset
  · subst hr
    have hzero : w.session.details.used = 0 := hreset rfl
    obtain rfl := Except.ok.inj hrun
    refine ⟨_, rfl, ⟨m', hm'⟩, ?_, hzero.le, Nat.zero_le _⟩
    -- the only value seen is what is in use now
    refine ⟨List.mem_singleton.mpr hzero.symm, ?_⟩
    intro u hu
    rw [List.mem_singleton.mp hu]
    exact hzero.le
  · obtain ⟨between, hbetween, hraises⟩ := step_raises hm hadm hmark hr hrun
    have hpeak' : IsPeak session.details.hwm (w.since ++ (between ++ [session.details]).map used) := by
      rw [hwm, hraises.mark]
      exact hpeak.append _
    have hlast : session.details.used ∈ (between ++ [session.details]).map used :=
      List.mem_map_of_mem (List.mem_append_right _ List.mem_cons_self)
    refine ⟨⟨session, w.since ++ (between ++ [session.details]).map used⟩, ?_, ⟨m', hm'⟩, hpeak',
      hpeak'.2 _ (List.mem_append_right _ hlast), ?_⟩
    · simp only [watchedStep, hrun, ok_bind, hbetween, if_neg hr, pure_eq_ok]
    · have hold := hm.accounted.geometry.capacity_eq
      rw [hm'.accounted.geometry.capacity_eq, ← hold]
      rcases List.mem_append.mp hpeak'.1 with hu | hu
      · exact (hpeak.2 _ hu).trans hcap
      · obtain ⟨t, ht, heq⟩ := List.mem_map.mp hu
        rw [← heq]
        rcases List.mem_append.mp ht with ht | ht
        · exact hraises.within t ht
        · rw [List.mem_singleton.mp ht, hold]
          exact hm'.accounted.used_le

/-- A reset with live blocks puts the mark below what is in use. -/
theorem watched_bad (w : Watched space) (r : Request) (w' : Watched space) (_hinv : Marked n w)
    (_hadm : AdmitsWatched w r) (hreset : ¬ ResetsWhenEmpty w r) (hrun : watchedStep w r = .ok w') :
    ¬ MarksPeak w' := by
  obtain ⟨rfl, hused⟩ := Classical.not_imp.mp hreset
  cases hrun
  rintro ⟨-, hle, -⟩
  exact hused (Nat.le_zero.mp hle)

/-- For every constructor size and every admitted run from a fresh allocator: no
request fails and `hwm` is the maximum since the last `reset` in every state,
if and only if nothing is in use at any `reset`. -/
theorem marksPeak_iff_resetsWhenEmpty (size : ℕ) (chunk : MallocBlock space (sizing size).1) (mem : Memory) :
    Returns (fresh size chunk mem) (fun w => ∀ requests : List Request,
      Along watchedStep AdmitsWatched (watch w) requests →
      (Throughout watchedStep MarksPeak (watch w) requests ↔
        Along watchedStep ResetsWhenEmpty (watch w) requests)) := by
  obtain ⟨s, m, hrun, hacc, -, hnone, hused, hhwm⟩ := construct_spec size chunk mem
  have hstart : Marked (sizing size).2 (watch ⟨s, []⟩) := by
    refine ⟨⟨m, hacc, Matches.empty hnone⟩, ?_⟩
    simp [MarksPeak, IsPeak, watch, used, hwm, hused, hhwm]
  refine ⟨⟨s, []⟩, by simp [fresh, hrun], ?_⟩
  intro requests hadm
  exact throughout_iff_along (fun _ hinv => hinv.2) watched_good watched_bad hstart hadm

/-- A block is moved and released before the mark is reset. -/
def movedThenResetRun : List Request := [.alloc 16, .realloc 4096 40, .free 4160, .reset, .calloc 3 5]

theorem marksPeak_iff_resetsWhenEmpty_movedThenResetRun :
    Returns (fresh 100 chunk128 (fun _ => 0)) (fun w =>
      Throughout watchedStep MarksPeak (watch w) movedThenResetRun ↔
        Along watchedStep ResetsWhenEmpty (watch w) movedThenResetRun) := by
  obtain ⟨w, hw, hruns⟩ := marksPeak_iff_resetsWhenEmpty 100 chunk128 (fun _ => 0)
  obtain ⟨w', hw', hadm⟩ : Returns (fresh 100 chunk128 (fun _ => 0)) (fun w =>
      Along watchedStep AdmitsWatched (watch w) movedThenResetRun) := by
    decide +kernel
  obtain rfl : w = w' := Except.ok.inj (hw.symm.trans hw')
  exact ⟨w, hw, hruns _ hadm⟩

/-- After a reset with sixteen bytes live the mark is zero. -/
theorem liveReset_marksLess :
    Returns (fresh 100 chunk128 (fun _ => 0)) (fun w =>
      Along watchedStep AdmitsWatched (watch w) [.alloc 16, .reset] ∧
      Returns (final watchedStep (watch w) [.alloc 16, .reset]) (fun w' =>
        w'.session.details.hwm = 0 ∧ w'.session.details.used = 16) ∧
      ¬ Throughout watchedStep MarksPeak (watch w) [.alloc 16, .reset]) := by
  decide +kernel

end Buddy
end LibXpf.Allocators
