import LibXpf.Foundation.ByteMemory
import Mathlib.Data.List.Nodup
import Mathlib.Data.List.Pairwise

/-! # Doubly linked chains stored in byte memory

A record is two words of width `w`: the address of the record before it, then
the address of the record after it. Address zero ends a chain on either side.
A record is pushed, popped or unlinked by writes to itself and its neighbours.
-/
namespace LibXpf.LinkedChain
open ByteMemory

variable {w : ℕ} {m m' : Memory} {a b v x head before after : ℕ} {l l₁ l₂ : List ℕ}

section Fields

def prev (w : ℕ) (m : Memory) (a : ℕ) : ℕ := load w m a

def next (w : ℕ) (m : Memory) (a : ℕ) : ℕ := load w m (a + w)

def setPrev (w : ℕ) (m : Memory) (a v : ℕ) : Memory := store w m a v

def setNext (w : ℕ) (m : Memory) (a v : ℕ) : Memory := store w m (a + w) v

/-- Two memories have the same record at `a`. -/
def SameRecord (w : ℕ) (m m' : Memory) (a : ℕ) : Prop := ∀ x, a ≤ x → x < a + 2 * w → m' x = m x

theorem SameRecord.prev_eq (h : SameRecord w m m' a) : prev w m' a = prev w m a :=
  load_congr (fun x hlo hhi => h x hlo (by omega))

theorem SameRecord.next_eq (h : SameRecord w m m' a) : next w m' a = next w m a :=
  load_congr (fun x hlo hhi => h x (by omega) (by omega))

theorem SameRecord.trans {m'' : Memory} (h : SameRecord w m m' a) (h' : SameRecord w m' m'' a) :
    SameRecord w m m'' a := by
  intro x hlo hhi
  rw [h' x hlo hhi, h x hlo hhi]

theorem setPrev_outside (h : x < a ∨ a + 2 * w ≤ x) : setPrev w m a v x = m x :=
  store_outside (by omega)

theorem setNext_outside (h : x < a ∨ a + 2 * w ≤ x) : setNext w m a v x = m x :=
  store_outside (by omega)

theorem setPrev_same (h : Apart a (2 * w) b (2 * w)) : SameRecord w m (setPrev w m b v) a := by
  intro x hlo hhi
  apply setPrev_outside
  rcases h with h | h <;> omega

theorem setNext_same (h : Apart a (2 * w) b (2 * w)) : SameRecord w m (setNext w m b v) a := by
  intro x hlo hhi
  apply setNext_outside
  rcases h with h | h <;> omega

@[simp] theorem next_setPrev : next w (setPrev w m a v) a = next w m a :=
  load_store_apart (Or.inl le_rfl)

@[simp] theorem prev_setNext : prev w (setNext w m a v) a = prev w m a :=
  load_store_apart (Or.inr le_rfl)

theorem prev_setPrev (hv : v < 256 ^ w) : prev w (setPrev w m a v) a = v := load_store hv

theorem next_setNext (hv : v < 256 ^ w) : next w (setNext w m a v) a = v := load_store hv

end Fields

section Segments

/-- The records of `l` name their neighbours; `before` and `after` lie at the ends. -/
def Linked (w : ℕ) (m : Memory) : ℕ → List ℕ → ℕ → Prop
  | _, [], _ => True
  | before, a :: rest, after =>
    prev w m a = before ∧ next w m a = rest.headD after ∧ Linked w m a rest after

theorem Linked.congr (h : Linked w m before l after) (hsame : ∀ a ∈ l, SameRecord w m m' a) :
    Linked w m' before l after := by
  induction l generalizing before with
  | nil => trivial
  | cons a rest ih =>
    obtain ⟨hprev, hnext, hrest⟩ := h
    have ha := hsame a List.mem_cons_self
    refine ⟨ha.prev_eq.trans hprev, ha.next_eq.trans hnext, ih hrest ?_⟩
    intro b hb
    exact hsame b (List.mem_cons_of_mem _ hb)

theorem linked_append : Linked w m before (l₁ ++ l₂) after ↔
    Linked w m before l₁ (l₂.headD after) ∧ Linked w m (l₁.getLastD before) l₂ after := by
  induction l₁ generalizing before with
  | nil => simp [Linked]
  | cons a rest ih =>
    have hhead : (rest ++ l₂).headD after = rest.headD (l₂.headD after) := by
      cases rest <;> simp
    simp only [List.cons_append, Linked, ih, hhead, List.getLastD_cons, and_assoc]

theorem Linked.setFirst (h : Linked w m before (a :: l) after)
    (hapart : ∀ b ∈ l, Apart b (2 * w) a (2 * w)) (hv : v < 256 ^ w) :
    Linked w (setPrev w m a v) v (a :: l) after := by
  obtain ⟨_, hnext, hrest⟩ := h
  refine ⟨prev_setPrev hv, next_setPrev.trans hnext, hrest.congr ?_⟩
  intro b hb
  exact setPrev_same (hapart b hb)

theorem Linked.setLast (h : Linked w m before (l ++ [a]) after)
    (hapart : ∀ b ∈ l, Apart b (2 * w) a (2 * w)) (hv : v < 256 ^ w) :
    Linked w (setNext w m a v) before (l ++ [a]) v := by
  obtain ⟨hinit, hprev, _, _⟩ := linked_append.mp h
  refine linked_append.mpr ⟨hinit.congr ?_, prev_setNext.trans hprev, next_setNext hv, trivial⟩
  intro b hb
  exact setNext_same (hapart b hb)

end Segments

/-- `head` starts a chain through exactly the records of `l`, which are apart
from each other and inside the address space. -/
structure Chain (w : ℕ) (m : Memory) (head : ℕ) (l : List ℕ) : Prop where
  head_eq : head = l.headD 0
  linked : Linked w m 0 l 0
  apart : l.Pairwise (fun a b => Apart a (2 * w) b (2 * w))
  valid : ∀ a ∈ l, a ≠ 0 ∧ a < 256 ^ w

section Writes

/-- The memory after `a` was pushed in front of the chain at `head`. -/
def pushFront (w : ℕ) (m : Memory) (head a : ℕ) : Memory :=
  let m := if head ≠ 0 then setPrev w m head a else m
  let m := setNext w m a head
  setPrev w m a 0

/-- The memory after the first record `a` was taken off. -/
def popFront (w : ℕ) (m : Memory) (a : ℕ) : Memory :=
  if next w m a ≠ 0 then setPrev w m (next w m a) 0 else m

/-- The memory after the neighbours of `a` were linked to each other. -/
def unlink (w : ℕ) (m : Memory) (a : ℕ) : Memory :=
  let m := if prev w m a ≠ 0 then setNext w m (prev w m a) (next w m a) else m
  if next w m a ≠ 0 then setPrev w m (next w m a) (prev w m a) else m

/-- The first record after `a` was unlinked. -/
def unlinkHead (w : ℕ) (m : Memory) (head a : ℕ) : ℕ :=
  if a = head then (if prev w m a ≠ 0 then prev w m a else next w m a) else head

end Writes

namespace Chain

theorem nil : Chain w m 0 [] := ⟨rfl, trivial, List.Pairwise.nil, by simp⟩

theorem head_eq_zero_iff (h : Chain w m head l) : head = 0 ↔ l = [] := by
  cases l with
  | nil => simp [h.head_eq]
  | cons a rest =>
    have ha := (h.valid a List.mem_cons_self).1
    simpa [h.head_eq] using ha

theorem width_pos (h : Chain w m head l) (ha : a ∈ l) : 0 < w := by
  obtain ⟨hne, hlt⟩ := h.valid a ha
  by_contra hw
  simp only [not_lt, nonpos_iff_eq_zero] at hw
  subst hw
  omega

theorem nodup (h : Chain w m head l) : l.Nodup := by
  refine List.Pairwise.imp_of_mem ?_ h.apart
  rintro a b ha - hab rfl
  have hw := h.width_pos ha
  rcases hab with hab | hab <;> omega

theorem congr (h : Chain w m head l) (hsame : ∀ a ∈ l, SameRecord w m m' a) :
    Chain w m' head l := ⟨h.head_eq, h.linked.congr hsame, h.apart, h.valid⟩

theorem pushFront (h : Chain w m head l) (ha : a ≠ 0) (hlt : a < 256 ^ w)
    (hapart : ∀ b ∈ l, Apart a (2 * w) b (2 * w)) :
    Chain w (pushFront w m head a) a (a :: l) := by
  have hzero : 0 < 256 ^ w := by omega
  have hrest : ∀ m' : Memory, Linked w m' a l 0 →
      Linked w (setPrev w (setNext w m' a head) a 0) 0 (a :: l) 0 := by
    intro m' hl
    have hhead : head < 256 ^ w := by
      rw [h.head_eq]
      cases l with
      | nil => exact hzero
      | cons b rest => exact (h.valid b List.mem_cons_self).2
    refine ⟨prev_setPrev hzero, next_setPrev.trans ((next_setNext hhead).trans h.head_eq), ?_⟩
    refine hl.congr ?_
    intro b hb
    exact (setNext_same (hapart b hb).symm).trans (setPrev_same (hapart b hb).symm)
  refine ⟨rfl, hrest _ ?_, List.pairwise_cons.mpr ⟨hapart, h.apart⟩, ?_⟩
  · cases l with
    | nil => trivial
    | cons b rest =>
      obtain rfl : head = b := h.head_eq
      have hb := (h.valid head List.mem_cons_self).1
      rw [if_pos hb]
      refine h.linked.setFirst ?_ hlt
      intro c hc
      exact (List.rel_of_pairwise_cons h.apart hc).symm
  · intro b hb
    rcases List.mem_cons.mp hb with rfl | hb
    · exact ⟨ha, hlt⟩
    · exact h.valid b hb

theorem popFront (h : Chain w m head (a :: l)) :
    Chain w (popFront w m a) (next w m a) l := by
  obtain ⟨_, hnext, hrest⟩ := h.linked
  have hvalid : ∀ b ∈ l, b ≠ 0 ∧ b < 256 ^ w := fun b hb => h.valid b (List.mem_cons_of_mem _ hb)
  refine ⟨hnext, ?_, (List.pairwise_cons.mp h.apart).2, hvalid⟩
  cases l with
  | nil => trivial
  | cons b rest =>
    obtain ⟨hb, hlt⟩ := hvalid b List.mem_cons_self
    have hne : next w m a ≠ 0 := by simpa [hnext] using hb
    have hapart := (List.pairwise_cons.mp h.apart).2
    simp only [LinkedChain.popFront, if_pos hne]
    simp only [List.headD_cons] at hnext
    rw [hnext]
    refine hrest.setFirst ?_ (by omega)
    intro c hc
    exact (List.rel_of_pairwise_cons hapart hc).symm

theorem neighbours (h : Chain w m head (l₁ ++ a :: l₂)) :
    prev w m a = l₁.getLastD 0 ∧ next w m a = l₂.headD 0 := by
  obtain ⟨_, hprev, hnext, _⟩ := linked_append.mp h.linked
  exact ⟨hprev, hnext⟩

/-- The first write of `unlink` redirects the part before `a` past it. -/
theorem bridge_next (h : Chain w m head (l₁ ++ a :: l₂)) :
    ∃ m' : Memory,
      (if prev w m a ≠ 0 then setNext w m (prev w m a) (next w m a) else m) = m' ∧
      Linked w m' 0 l₁ (l₂.headD 0) ∧ ∀ b ∈ a :: l₂, SameRecord w m m' b := by
  obtain ⟨hprev, hnext⟩ := h.neighbours
  obtain ⟨hl₁, -, -, -⟩ := linked_append.mp h.linked
  rcases List.eq_nil_or_concat l₁ with rfl | ⟨l, x, rfl⟩
  · refine ⟨m, if_neg (by simpa using hprev), trivial, ?_⟩
    intro b _ x _ _
    rfl
  · rw [List.concat_eq_append] at *
    have hx : prev w m a = x := by simpa using hprev
    have hmem : ∀ b ∈ l₂, b ∈ (l ++ [x]) ++ a :: l₂ := by
      intro b hb
      simp [hb]
    have hne : x ≠ 0 := (h.valid x (by simp)).1
    have hlt : l₂.headD 0 < 256 ^ w := by
      cases l₂ with
      | nil => exact Nat.pow_pos (by omega)
      | cons b rest => exact (h.valid b (hmem b List.mem_cons_self)).2
    have hnodup := h.nodup
    refine ⟨setNext w m x (l₂.headD 0), by rw [hx, hnext, if_pos hne], ?_, ?_⟩
    · refine hl₁.setLast ?_ hlt
      intro b hb
      have := h.apart
      simp only [List.append_assoc, List.pairwise_append] at this
      exact this.2.2 b hb x (by simp)
    · intro b hb
      apply setNext_same
      have := h.apart
      rw [List.pairwise_append] at this
      exact (this.2.2 x (by simp) b hb).symm

/-- The second write of `unlink` redirects the part after `a` past it. -/
theorem bridge_prev (h : Chain w m head (l₁ ++ a :: l₂)) (hleft : Linked w m' 0 l₁ (l₂.headD 0))
    (hsame : ∀ b ∈ a :: l₂, SameRecord w m m' b) :
    ∃ m'' : Memory,
      (if next w m' a ≠ 0 then setPrev w m' (next w m' a) (prev w m' a) else m') = m'' ∧
      Linked w m'' 0 (l₁ ++ l₂) 0 ∧ SameRecord w m m'' a := by
  obtain ⟨hprev, hnext⟩ := h.neighbours
  have ha := hsame a List.mem_cons_self
  obtain ⟨-, -, -, hright⟩ := linked_append.mp h.linked
  rw [ha.prev_eq, ha.next_eq, hprev, hnext]
  cases l₂ with
  | nil => exact ⟨m', if_neg (by simp), by simpa using hleft, ha⟩
  | cons y rest =>
    have hy := (h.valid y (by simp)).1
    have hlt : l₁.getLastD 0 < 256 ^ w := by
      rcases List.eq_nil_or_concat l₁ with rfl | ⟨l, x, rfl⟩
      · exact Nat.pow_pos (by omega)
      · simpa using (h.valid x (by simp)).2
    have hapart := h.apart
    rw [List.pairwise_append, List.pairwise_cons, List.pairwise_cons] at hapart
    obtain ⟨-, ⟨hay, hyr, -⟩, hcross⟩ := hapart
    refine ⟨setPrev w m' y (l₁.getLastD 0), if_pos hy, linked_append.mpr ⟨?_, ?_⟩, ?_⟩
    · refine hleft.congr ?_
      intro b hb
      exact setPrev_same (hcross b hb y (by simp))
    · refine (hright.congr ?_).setFirst ?_ hlt
      · intro b hb
        exact hsame b (List.mem_cons_of_mem _ hb)
      · intro b hb
        exact (hyr b hb).symm
    · exact ha.trans (setPrev_same (hay y List.mem_cons_self))

theorem unlink (h : Chain w m head (l₁ ++ a :: l₂)) :
    Chain w (unlink w m a) (unlinkHead w (unlink w m a) head a) (l₁ ++ l₂) := by
  obtain ⟨m', hm', hleft, hsame⟩ := h.bridge_next
  obtain ⟨m'', hm'', hlinked, ha⟩ := h.bridge_prev hleft hsame
  have hrun : LinkedChain.unlink w m a = m'' := by
    simp only [LinkedChain.unlink, hm', hm'']
  have hsub : (l₁ ++ l₂).Sublist (l₁ ++ a :: l₂) := by simp
  rw [hrun]
  refine ⟨?_, hlinked, h.apart.sublist hsub, fun b hb => h.valid b (hsub.subset hb)⟩
  obtain ⟨hprev, hnext⟩ := h.neighbours
  have hhead := h.head_eq
  have hnodup := h.nodup
  unfold unlinkHead
  rw [ha.prev_eq, ha.next_eq, hprev, hnext]
  cases l₁ with
  | nil =>
    obtain rfl : head = a := hhead
    simp
  | cons y rest =>
    obtain rfl : head = y := hhead
    have hne : a ≠ head := by
      rintro rfl
      simp at hnodup
    simp [hne]

section Frame

theorem pushFront_outside (h : Chain w m head l)
    (hx : ∀ b ∈ a :: l, x < b ∨ b + 2 * w ≤ x) : LinkedChain.pushFront w m head a x = m x := by
  have ha := hx a List.mem_cons_self
  simp only [LinkedChain.pushFront]
  rw [setPrev_outside ha, setNext_outside ha]
  split
  · rename_i hne
    cases l with
    | nil => exact absurd h.head_eq hne
    | cons b rest =>
      obtain rfl : head = b := h.head_eq
      exact setPrev_outside (hx head (by simp))
  · rfl

theorem popFront_outside (h : Chain w m head (a :: l))
    (hx : ∀ b ∈ a :: l, x < b ∨ b + 2 * w ≤ x) : LinkedChain.popFront w m a x = m x := by
  obtain ⟨-, hnext, -⟩ := h.linked
  unfold LinkedChain.popFront
  split
  · rename_i hne
    cases l with
    | nil => exact absurd hnext hne
    | cons b rest =>
      simp only [List.headD_cons] at hnext
      rw [hnext]
      exact setPrev_outside (hx b (by simp))
  · rfl

theorem unlink_outside (h : Chain w m head (l₁ ++ a :: l₂))
    (hx : ∀ b ∈ l₁ ++ a :: l₂, x < b ∨ b + 2 * w ≤ x) : LinkedChain.unlink w m a x = m x := by
  obtain ⟨hprev, hnext⟩ := h.neighbours
  have hfirst : (if prev w m a ≠ 0 then setNext w m (prev w m a) (next w m a) else m) x = m x := by
    split
    · rename_i hne
      rcases List.eq_nil_or_concat l₁ with rfl | ⟨l, y, rfl⟩
      · exact absurd hprev hne
      · have hy : prev w m a = y := by simpa using hprev
        rw [hy]
        exact setNext_outside (hx y (by simp))
    · rfl
  obtain ⟨m', hm', -, hsame⟩ := h.bridge_next
  have hrun : LinkedChain.unlink w m a =
      if next w m' a ≠ 0 then setPrev w m' (next w m' a) (prev w m' a) else m' := by
    simp only [LinkedChain.unlink, hm']
  rw [hm'] at hfirst
  rw [hrun, (hsame a List.mem_cons_self).next_eq, hnext]
  split
  · rename_i hne
    cases l₂ with
    | nil => exact absurd rfl hne
    | cons y rest => exact (setPrev_outside (hx y (by simp))).trans hfirst
  · exact hfirst

end Frame

end Chain

/-- The records met by following forward links, at most `fuel` of them. -/
def walk (w : ℕ) (m : Memory) : ℕ → ℕ → List ℕ
  | 0, _ => []
  | fuel + 1, a => if a = 0 then [] else a :: walk w m fuel (next w m a)

theorem Linked.walk_eq (h : Linked w m before l 0) (hne : ∀ a ∈ l, a ≠ 0) {fuel : ℕ}
    (hlen : l.length ≤ fuel) : walk w m fuel (l.headD 0) = l := by
  induction l generalizing before fuel with
  | nil => cases fuel <;> rfl
  | cons a rest ih =>
    obtain ⟨-, hnext, hrest⟩ := h
    cases fuel with
    | zero => simp at hlen
    | succ fuel =>
      have htail := ih hrest (fun b hb => hne b (List.mem_cons_of_mem _ hb)) (by simpa using hlen)
      simp only [walk, List.headD_cons, if_neg (hne a List.mem_cons_self), hnext, htail]

theorem Chain.walk_eq (h : Chain w m head l) {fuel : ℕ} (hlen : l.length ≤ fuel) :
    walk w m fuel head = l := by
  rw [h.head_eq]
  exact h.linked.walk_eq (fun a ha => (h.valid a ha).1) hlen

end LibXpf.LinkedChain
