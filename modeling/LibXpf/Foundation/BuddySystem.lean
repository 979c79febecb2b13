import Mathlib.Algebra.BigOperators.Group.Finset.Basic
import Mathlib.Algebra.Order.BigOperators.Group.Finset
import Mathlib.Data.Nat.Bitwise
import Mathlib.Order.Interval.Finset.Nat
import Mathlib.Tactic.NormNum

/-! # Maps of a buddy system

Tier `0` is the whole region and every tier below halves the blocks above it.
A map says of every block whether it is free, live or split, or whether it is
absent because a block above it is not split. Two free buddies never stand side
by side, so the map is determined by its live blocks.
-/
namespace LibXpf.BuddySystem
open Finset

section Halves
variable {b c : ℕ}

/-- The other half of the block that `b` is a half of. -/
def buddy (b : ℕ) : ℕ := if b % 2 = 0 then b + 1 else b - 1

theorem buddy_ne : buddy b ≠ b := by
  unfold buddy
  split <;> omega

theorem buddy_div : buddy b / 2 = b / 2 := by
  unfold buddy
  split <;> omega

@[simp] theorem buddy_buddy : buddy (buddy b) = b := by
  unfold buddy
  split <;> split <;> omega

theorem eq_or_buddy (h : c / 2 = b / 2) : c = b ∨ c = buddy b := by
  unfold buddy
  split <;> omega

theorem xor_one (b : ℕ) : b ^^^ 1 = buddy b := by
  have hdiv : (b ^^^ 1) / 2 = b / 2 := by simp [Nat.xor_div_two]
  have hmod : (b ^^^ 1) % 2 = (b + 1) % 2 := by simp [Nat.xor_mod_two_eq]
  unfold buddy
  split <;> omega

end Halves

inductive Node where
  | absent
  | free
  | live
  | split
  deriving DecidableEq, Repr

/-- A map of `n` tiers. -/
structure BuddyMap (n : ℕ) where
  node : ℕ → ℕ → Node
  root : node 0 0 ≠ .absent
  inside : ∀ {t b}, node t b ≠ .absent → t < n ∧ b < 2 ^ t
  child : ∀ {t b}, t + 1 < n → (node (t + 1) b ≠ .absent ↔ node t (b / 2) = .split)
  bottom : ∀ {t b}, node t b = .split → t + 1 < n
  canonical : ∀ {t b}, node (t + 1) b = .free → node (t + 1) (buddy b) ≠ .free

namespace BuddyMap
variable {n t u b c : ℕ} (m : BuddyMap n)

/-- A block that is handed out or waits to be. -/
def Leaf (t b : ℕ) : Prop := m.node t b = .live ∨ m.node t b = .free

/-- What the in-use bit of a block stands for. -/
def InUse (t b : ℕ) : Prop := m.node t b = .live ∨ m.node t b = .split

variable {m}

theorem Leaf.ne_absent (h : m.Leaf t b) : m.node t b ≠ .absent := by
  rcases h with h | h <;> simp [h]

theorem InUse.ne_absent (h : m.InUse t b) : m.node t b ≠ .absent := by
  rcases h with h | h <;> simp [h]

theorem buddy_ne_absent (h : m.node (t + 1) b ≠ .absent) : m.node (t + 1) (buddy b) ≠ .absent := by
  have hlt := (m.inside h).1
  rw [m.child hlt] at h ⊢
  rwa [buddy_div]

section Operations

/-- One whole block, live. -/
def whole (n : ℕ) (hn : 0 < n) : BuddyMap n where
  node t b := if t = 0 ∧ b = 0 then .live else .absent
  root := by simp
  inside := by
    intro t b h
    by_cases hroot : t = 0 ∧ b = 0
    · simp [hroot, hn]
    · simp [hroot] at h
  child := by
    intro t b _
    simp only [Nat.add_eq_zero_iff, one_ne_zero, and_false, false_and, if_false, ne_eq, not_true_eq_false, false_iff]
    split <;> simp
  bottom := by
    intro t b h
    split at h <;> simp at h
  canonical := by simp

/-- A leaf changes between free and live. -/
def setLeaf (m : BuddyMap n) (h : m.Leaf t b) (v : Node) (hv : v = .live ∨ v = .free)
    (hfree : v = .free → t = 0 ∨ m.node t (buddy b) ≠ .free) : BuddyMap n where
  node u c := if u = t ∧ c = b then v else m.node u c
  root := by
    have := m.root
    grind
  inside := by
    intro u c hne
    have := h.ne_absent
    have := @m.inside u c
    grind
  child := by
    intro u c hu
    have := m.child (b := c) hu
    have := h.ne_absent
    unfold Leaf at h
    grind
  bottom := by
    intro u c hs
    have := @m.bottom u c
    grind
  canonical := by
    intro u c hc
    have := @m.canonical u c
    have := @buddy_ne c
    have := @buddy_buddy c
    grind

/-- A live block becomes two live halves. -/
def divide (m : BuddyMap n) (h : m.node t b = .live) (ht : t + 1 < n) : BuddyMap n where
  node u c :=
    if u = t ∧ c = b then .split else if u = t + 1 ∧ c / 2 = b then .live else m.node u c
  root := by
    have := m.root
    grind
  inside := by
    intro u c hne
    have := @m.inside u c
    have := m.inside (t := t) (b := b) (by simp [h])
    have := @Nat.pow_succ 2 t
    grind
  child := by
    intro u c hu
    have := m.child (b := c) hu
    have := m.child (b := c / 2) ht
    grind
  bottom := by
    intro u c hs
    have := @m.bottom u c
    grind
  canonical := by
    intro u c hc
    have := @m.canonical u c
    have := @buddy_div c
    grind

/-- A live block and its free buddy become one live block. -/
def merge (m : BuddyMap n) (h : m.node (t + 1) b = .live) (hb : m.node (t + 1) (buddy b) = .free) :
    BuddyMap n where
  node u c :=
    if u = t ∧ c = b / 2 then .live else if u = t + 1 ∧ c / 2 = b / 2 then .absent else m.node u c
  root := by
    have := m.root
    grind
  inside := by
    intro u c hne
    have := @m.inside u c
    have := m.inside (t := t + 1) (b := b) (by simp [h])
    have := @Nat.pow_succ 2 t
    grind
  child := by
    intro u c hu
    have := m.child (b := c) hu
    have hlt := (m.inside (t := t + 1) (b := b) (by simp [h])).1
    have := m.child (b := b) hlt
    have := @eq_or_buddy b (c / 2)
    grind
  bottom := by
    intro u c hs
    have := @m.bottom u c
    grind
  canonical := by
    intro u c hc
    have := @m.canonical u c
    have hlt := (m.inside (t := t + 1) (b := b) (by simp [h])).1
    have := m.child (b := b) hlt
    grind

/-- A free block is handed out. -/
def take (m : BuddyMap n) (h : m.node t b = .free) : BuddyMap n :=
  m.setLeaf (Or.inr h) .live (Or.inl rfl) (by simp)

/-- A live block without a free buddy is given back. -/
def release (m : BuddyMap n) (h : m.node t b = .live)
    (hbuddy : t = 0 ∨ m.node t (buddy b) ≠ .free) : BuddyMap n :=
  m.setLeaf (Or.inl h) .free (Or.inr rfl) (fun _ => hbuddy)

end Operations

section Effects

theorem take_node (h : m.node t b = .free) :
    (m.take h).node u c = if u = t ∧ c = b then .live else m.node u c := rfl

theorem release_node (h : m.node t b = .live) (hbuddy : t = 0 ∨ m.node t (buddy b) ≠ .free) :
    (m.release h hbuddy).node u c = if u = t ∧ c = b then .free else m.node u c := rfl

theorem divide_node (h : m.node t b = .live) (ht : t + 1 < n) :
    (m.divide h ht).node u c =
      if u = t ∧ c = b then .split else if u = t + 1 ∧ c / 2 = b then .live else m.node u c := rfl

theorem merge_node (h : m.node (t + 1) b = .live) (hb : m.node (t + 1) (buddy b) = .free) :
    (m.merge h hb).node u c =
      if u = t ∧ c = b / 2 then .live
      else if u = t + 1 ∧ c / 2 = b / 2 then .absent else m.node u c := rfl

theorem take_live (h : m.node t b = .free) :
    (m.take h).node u c = .live ↔ m.node u c = .live ∨ (u = t ∧ c = b) := by
  rw [take_node]
  split <;> simp_all

theorem take_free (h : m.node t b = .free) :
    (m.take h).node u c = .free ↔ m.node u c = .free ∧ ¬ (u = t ∧ c = b) := by
  rw [take_node]
  split <;> simp_all

theorem take_inUse (h : m.node t b = .free) :
    (m.take h).InUse u c ↔ m.InUse u c ∨ (u = t ∧ c = b) := by
  unfold InUse
  rw [take_node]
  split <;> simp_all

theorem release_live (h : m.node t b = .live) (hbuddy : t = 0 ∨ m.node t (buddy b) ≠ .free) :
    (m.release h hbuddy).node u c = .live ↔ m.node u c = .live ∧ ¬ (u = t ∧ c = b) := by
  rw [release_node]
  split <;> simp_all

theorem release_free (h : m.node t b = .live) (hbuddy : t = 0 ∨ m.node t (buddy b) ≠ .free) :
    (m.release h hbuddy).node u c = .free ↔ m.node u c = .free ∨ (u = t ∧ c = b) := by
  rw [release_node]
  split <;> simp_all

theorem release_inUse (h : m.node t b = .live) (hbuddy : t = 0 ∨ m.node t (buddy b) ≠ .free) :
    (m.release h hbuddy).InUse u c ↔ m.InUse u c ∧ ¬ (u = t ∧ c = b) := by
  unfold InUse
  rw [release_node]
  split <;> simp_all

theorem half_absent (h : m.node t b ≠ .split) (hc : c / 2 = b) : m.node (t + 1) c = .absent := by
  by_contra hne
  have hsplit := (m.child (m.inside hne).1).mp hne
  rw [hc] at hsplit
  exact h hsplit

theorem divide_live (h : m.node t b = .live) (ht : t + 1 < n) :
    (m.divide h ht).node u c = .live ↔
      (m.node u c = .live ∧ ¬ (u = t ∧ c = b)) ∨ (u = t + 1 ∧ c / 2 = b) := by
  rw [divide_node]
  split
  · rename_i hsame
    simp [hsame]
  · split <;> simp_all

theorem divide_free (h : m.node t b = .live) (ht : t + 1 < n) :
    (m.divide h ht).node u c = .free ↔ m.node u c = .free := by
  rw [divide_node]
  split
  · simp_all
  · split
    · rename_i hhalf
      obtain ⟨rfl, hc⟩ := hhalf
      have hsplit : m.node t b ≠ .split := by simp [h]
      simp [half_absent hsplit hc]
    · rfl

theorem divide_inUse (h : m.node t b = .live) (ht : t + 1 < n) :
    (m.divide h ht).InUse u c ↔ m.InUse u c ∨ (u = t + 1 ∧ c / 2 = b) := by
  unfold InUse
  rw [divide_node]
  split
  · simp_all
  · split <;> simp_all

/-- The nodes that a merge touches: the parent was split, the halves were live and free. -/
theorem merge_cases (h : m.node (t + 1) b = .live) (hb : m.node (t + 1) (buddy b) = .free) (u c : ℕ) :
    (u = t ∧ c = b / 2 ∧ m.node u c = .split ∧ (m.merge h hb).node u c = .live) ∨
    (u = t + 1 ∧ c = b ∧ (m.merge h hb).node u c = .absent) ∨
    (u = t + 1 ∧ c = buddy b ∧ (m.merge h hb).node u c = .absent) ∨
    (¬ (u = t ∧ c = b / 2) ∧ ¬ (u = t + 1 ∧ c = b) ∧ ¬ (u = t + 1 ∧ c = buddy b) ∧
      (m.merge h hb).node u c = m.node u c) := by
  rw [merge_node]
  by_cases hparent : u = t ∧ c = b / 2
  · obtain ⟨rfl, rfl⟩ := hparent
    have hthere : m.node (u + 1) b ≠ .absent := by simp [h]
    simp [(m.child (m.inside hthere).1).mp hthere]
  · by_cases hhalf : u = t + 1 ∧ c / 2 = b / 2
    · obtain ⟨rfl, hc⟩ := hhalf
      rcases eq_or_buddy hc with rfl | rfl
      · simp
      · simp [buddy_div]
    · refine Or.inr (Or.inr (Or.inr ⟨hparent, ?_, ?_, ?_⟩))
      · rintro ⟨rfl, rfl⟩
        exact hhalf ⟨rfl, rfl⟩
      · rintro ⟨rfl, rfl⟩
        exact hhalf ⟨rfl, buddy_div⟩
      · rw [if_neg hparent, if_neg hhalf]

theorem merge_live (h : m.node (t + 1) b = .live) (hb : m.node (t + 1) (buddy b) = .free) :
    (m.merge h hb).node u c = .live ↔
      (m.node u c = .live ∧ ¬ (u = t + 1 ∧ c = b)) ∨ (u = t ∧ c = b / 2) := by
  rcases merge_cases h hb u c with ⟨rfl, rfl, hold, hnew⟩ | ⟨rfl, rfl, hnew⟩ | ⟨rfl, rfl, hnew⟩ |
    ⟨hparent, hself, hbuddy, hnew⟩
  · simp [hnew]
  · simp [hnew]
  · simp [hnew, hb]
  · simp [hnew, hparent, hself]

theorem merge_free (h : m.node (t + 1) b = .live) (hb : m.node (t + 1) (buddy b) = .free) :
    (m.merge h hb).node u c = .free ↔ m.node u c = .free ∧ ¬ (u = t + 1 ∧ c = buddy b) := by
  rcases merge_cases h hb u c with ⟨rfl, rfl, hold, hnew⟩ | ⟨rfl, rfl, hnew⟩ | ⟨rfl, rfl, hnew⟩ |
    ⟨hparent, hself, hbuddy, hnew⟩
  · simp [hnew, hold]
  · simp [hnew, h]
  · simp [hnew]
  · simp [hnew, hbuddy]

theorem merge_inUse (h : m.node (t + 1) b = .live) (hb : m.node (t + 1) (buddy b) = .free) :
    (m.merge h hb).InUse u c ↔ m.InUse u c ∧ ¬ (u = t + 1 ∧ c = b) := by
  unfold InUse
  rcases merge_cases h hb u c with ⟨rfl, rfl, hold, hnew⟩ | ⟨rfl, rfl, hnew⟩ | ⟨rfl, rfl, hnew⟩ |
    ⟨hparent, hself, hbuddy, hnew⟩
  · simp [hnew, hold]
  · simp [hnew]
  · simp [hnew, hb]
  · simp [hnew, hself]

end Effects

section Tree
variable {k : ℕ}

theorem split_above (h : m.node (t + k + 1) c ≠ .absent) : m.node t (c / 2 ^ (k + 1)) = .split := by
  induction k generalizing c with
  | zero => simpa using (m.child (m.inside h).1).mp h
  | succ k ih =>
    have hparent := (m.child (m.inside h).1).mp h
    have hsplit := ih (c := c / 2) (by rw [Nat.add_assoc, hparent]; simp)
    rwa [Nat.div_div_eq_div_mul, ← pow_succ'] at hsplit

theorem exists_leaf_below (h : m.node t b ≠ .absent) :
    ∃ k c, m.Leaf (t + k) c ∧ c / 2 ^ k = b := by
  obtain ⟨d, hd⟩ : ∃ d, d = n - t := ⟨_, rfl⟩
  induction d generalizing t b with
  | zero =>
    have := (m.inside h).1
    omega
  | succ d ih =>
    cases hnode : m.node t b with
    | absent => exact absurd hnode h
    | free => exact ⟨0, b, Or.inr hnode, by simp⟩
    | live => exact ⟨0, b, Or.inl hnode, by simp⟩
    | split =>
      have hhalf : 2 * b / 2 = b := by omega
      have hchild : m.node (t + 1) (2 * b) ≠ .absent := by
        rw [m.child (m.bottom hnode), hhalf]
        exact hnode
      obtain ⟨k, c, hleaf, hc⟩ := ih hchild (by omega)
      refine ⟨k + 1, c, by rwa [show t + (k + 1) = t + 1 + k by omega], ?_⟩
      rw [pow_succ, ← Nat.div_div_eq_div_mul, hc, hhalf]

theorem split_iff : m.node t b = .split ↔ ∃ k c, m.Leaf (t + k + 1) c ∧ c / 2 ^ (k + 1) = b := by
  constructor
  · intro hsplit
    have hhalf : 2 * b / 2 = b := by omega
    have hchild : m.node (t + 1) (2 * b) ≠ .absent := by
      rw [m.child (m.bottom hsplit), hhalf]
      exact hsplit
    obtain ⟨k, c, hleaf, hc⟩ := exists_leaf_below hchild
    refine ⟨k, c, by rwa [show t + k + 1 = t + 1 + k by omega], ?_⟩
    rw [pow_succ, ← Nat.div_div_eq_div_mul, hc, hhalf]
  · rintro ⟨k, c, hleaf, rfl⟩
    exact split_above hleaf.ne_absent

theorem inUse_iff : m.InUse t b ↔ ∃ k c, m.node (t + k) c = .live ∧ c / 2 ^ k = b := by
  constructor
  · intro huse
    obtain ⟨d, hd⟩ : ∃ d, d = n - t := ⟨_, rfl⟩
    induction d generalizing t b with
    | zero =>
      have := (m.inside huse.ne_absent).1
      omega
    | succ d ih =>
      rcases huse with hlive | hsplit
      · exact ⟨0, b, hlive, by simp⟩
      · have hlt := m.bottom hsplit
        have hhalf : ∀ c, c / 2 = b → m.node (t + 1) c ≠ .absent := by
          intro c hc
          rw [m.child hlt, hc]
          exact hsplit
        -- the halves are not both free, so one of them is in use
        obtain ⟨c, hc, huse⟩ : ∃ c, c / 2 = b ∧ m.InUse (t + 1) c := by
          by_cases hfree : m.node (t + 1) (2 * b) = .free
          · refine ⟨buddy (2 * b), by rw [buddy_div]; omega, ?_⟩
            have hne := hhalf (buddy (2 * b)) (by rw [buddy_div]; omega)
            have hcanon := m.canonical hfree
            unfold InUse
            cases hnode : m.node (t + 1) (buddy (2 * b)) <;> simp_all
          · refine ⟨2 * b, by omega, ?_⟩
            have hne := hhalf (2 * b) (by omega)
            unfold InUse
            cases hnode : m.node (t + 1) (2 * b) <;> simp_all
        obtain ⟨k, d, hlive, hd⟩ := ih huse (by omega)
        refine ⟨k + 1, d, by rwa [show t + (k + 1) = t + 1 + k by omega], ?_⟩
        rw [pow_succ, ← Nat.div_div_eq_div_mul, hd, hc]
  · rintro ⟨k, c, hlive, rfl⟩
    cases k with
    | zero => exact Or.inl (by simpa using hlive)
    | succ k => exact Or.inr (split_above (by rw [Nat.add_assoc, hlive]; simp))

end Tree

section Canonical
variable {m' : BuddyMap n}

theorem split_iff_inUse : m.node t b = .split ↔ m.InUse t b ∧ m.node t b ≠ .live := by
  unfold InUse
  cases m.node t b <;> simp

/-- The live blocks determine the whole map. -/
theorem node_eq_of_live (h : ∀ t b, m.node t b = .live ↔ m'.node t b = .live) (t b : ℕ) :
    m.node t b = m'.node t b := by
  have huse : ∀ t b, m.InUse t b ↔ m'.InUse t b := by
    intro t b
    simp only [inUse_iff, h]
  have hsplit : ∀ t b, m.node t b = .split ↔ m'.node t b = .split := by
    intro t b
    simp only [split_iff_inUse, huse, ne_eq, h]
  have hthere : m.node t b ≠ .absent ↔ m'.node t b ≠ .absent := by
    cases t with
    | zero =>
      cases b with
      | zero => exact iff_of_true m.root m'.root
      | succ b =>
        have hout : ∀ m : BuddyMap n, ¬ m.node 0 (b + 1) ≠ .absent := by
          intro m hne
          have := (m.inside hne).2
          simp at this
        exact iff_of_false (hout m) (hout m')
    | succ t =>
      by_cases hlt : t + 1 < n
      · rw [m.child hlt, m'.child hlt, hsplit]
      · have hout : ∀ m : BuddyMap n, ¬ m.node (t + 1) b ≠ .absent :=
          fun m hne => hlt (m.inside hne).1
        exact iff_of_false (hout m) (hout m')
  have hlive := h t b
  have hs := hsplit t b
  cases hm : m.node t b <;> cases hm' : m'.node t b <;> simp_all

theorem root_free (h : ∀ t b, m.node t b ≠ .live) : m.node 0 0 = .free := by
  have hroot := m.root
  cases hnode : m.node 0 0 with
  | free => rfl
  | absent => exact absurd hnode hroot
  | live => exact absurd hnode (h 0 0)
  | split =>
    obtain ⟨k, c, hlive, -⟩ := inUse_iff.mp (Or.inr hnode)
    exact absurd hlive (h _ _)

end Canonical

section Tiling
variable {S x : ℕ}

/-- The block of tier `t` that address `x` falls in, in a region of `2 ^ S` bytes. -/
def cell (S t x : ℕ) : ℕ := x / 2 ^ (S - t)

theorem cell_add (htu : t ≤ u) (hu : u ≤ S) : cell S u x / 2 ^ (u - t) = cell S t x := by
  rw [cell, cell, Nat.div_div_eq_div_mul, ← pow_add, show S - u + (u - t) = S - t by omega]

theorem leaf_unique (hS : n ≤ S + 1) (h : m.Leaf t (cell S t x)) (h' : m.Leaf u (cell S u x)) :
    t = u := by
  have hlt : ∀ t u, m.Leaf t (cell S t x) → m.Leaf u (cell S u x) → ¬ t < u := by
    intro t u h h' htu
    have hu := (m.inside h'.ne_absent).1
    obtain ⟨k, rfl⟩ : ∃ k, u = t + k + 1 := ⟨u - t - 1, by omega⟩
    have hsplit := split_above h'.ne_absent
    rw [show k + 1 = t + k + 1 - t by omega, cell_add (by omega) (by omega)] at hsplit
    rcases h with h | h <;> simp [h] at hsplit
  have htu := hlt t u h h'
  have hut := hlt u t h' h
  omega

theorem exists_leaf (hS : n ≤ S + 1) (hx : x < 2 ^ S) : ∃ t, m.Leaf t (cell S t x) := by
  have hdown : ∀ d t, d = n - t → m.node t (cell S t x) ≠ .absent → ∃ u, m.Leaf u (cell S u x) := by
    intro d
    induction d with
    | zero =>
      intro t hd hne
      have := (m.inside hne).1
      omega
    | succ d ih =>
      intro t hd hne
      cases hnode : m.node t (cell S t x) with
      | absent => exact absurd hnode hne
      | free => exact ⟨t, Or.inr hnode⟩
      | live => exact ⟨t, Or.inl hnode⟩
      | split =>
        have hlt := m.bottom hnode
        apply ih (t + 1) (by omega)
        have hhalf : cell S (t + 1) x / 2 = cell S t x := by
          simpa using cell_add (S := S) (x := x) (Nat.le_succ t) (by omega)
        rw [m.child hlt, hhalf]
        exact hnode
  apply hdown n 0 rfl
  have hzero : cell S 0 x = 0 := Nat.div_eq_of_lt (by simpa using hx)
  rw [hzero]
  exact m.root

end Tiling

section Measure
variable {S : ℕ} {m' : BuddyMap n}

/-- The live blocks, as pairs of tier and block. -/
def liveBlocks (m : BuddyMap n) : Finset (ℕ × ℕ) :=
  ((range n) ×ˢ range (2 ^ n)).filter (fun p => m.node p.1 p.2 = .live)

@[simp] theorem mem_liveBlocks : (t, b) ∈ m.liveBlocks ↔ m.node t b = .live := by
  simp only [liveBlocks, mem_filter, mem_product, mem_range, and_iff_right_iff_imp]
  intro hlive
  obtain ⟨ht, hb⟩ := m.inside (t := t) (b := b) (by simp [hlive])
  exact ⟨ht, hb.trans_le (Nat.pow_le_pow_right (by omega) (by omega))⟩

/-- The bytes handed out of a region of `2 ^ S` bytes. -/
def liveBytes (S : ℕ) (m : BuddyMap n) : ℕ := ∑ p ∈ m.liveBlocks, 2 ^ (S - p.1)

theorem liveBytes_add (hold : m.node t b ≠ .live)
    (hlive : ∀ u c, m'.node u c = .live ↔ m.node u c = .live ∨ (u = t ∧ c = b)) :
    m'.liveBytes S = m.liveBytes S + 2 ^ (S - t) := by
  have hblocks : m'.liveBlocks = insert (t, b) m.liveBlocks := by
    ext ⟨u, c⟩
    simp [hlive, or_comm]
  rw [liveBytes, hblocks, sum_insert (by simpa using hold), liveBytes, Nat.add_comm]

theorem liveBytes_remove (hold : m.node t b = .live)
    (hlive : ∀ u c, m'.node u c = .live ↔ m.node u c = .live ∧ ¬ (u = t ∧ c = b)) :
    m'.liveBytes S + 2 ^ (S - t) = m.liveBytes S := by
  have hnew : m'.node t b ≠ .live := by simp [hlive]
  refine (liveBytes_add hnew ?_).symm
  intro u c
  rw [hlive]
  by_cases hsame : u = t ∧ c = b
  · obtain ⟨rfl, rfl⟩ := hsame
    simp [hold]
  · simp [hsame]

/-- Live blocks do not overlap, so they fit in the region together. -/
theorem liveBytes_le (hS : n ≤ S + 1) : m.liveBytes S ≤ 2 ^ S := by
  have hcard : ∀ p ∈ m.liveBlocks,
      2 ^ (S - p.1) = (Ico (p.2 * 2 ^ (S - p.1)) ((p.2 + 1) * 2 ^ (S - p.1))).card := by
    intro p _
    rw [Nat.card_Ico, Nat.succ_mul, Nat.add_sub_cancel_left]
  have hcell : ∀ p : ℕ × ℕ, ∀ x, x ∈ Ico (p.2 * 2 ^ (S - p.1)) ((p.2 + 1) * 2 ^ (S - p.1)) →
      cell S p.1 x = p.2 := by
    intro p x hx
    obtain ⟨hlo, hhi⟩ := mem_Ico.mp hx
    exact Nat.div_eq_of_lt_le hlo hhi
  have hdisjoint : (m.liveBlocks : Set (ℕ × ℕ)).PairwiseDisjoint
      (fun p => Ico (p.2 * 2 ^ (S - p.1)) ((p.2 + 1) * 2 ^ (S - p.1))) := by
    rintro ⟨t, b⟩ hp ⟨u, c⟩ hq hne
    apply disjoint_left.mpr
    intro x hx hx'
    have hb : cell S t x = b := hcell (t, b) x hx
    have hc : cell S u x = c := hcell (u, c) x hx'
    have hlive : m.Leaf t (cell S t x) := Or.inl (hb.symm ▸ mem_liveBlocks.mp hp)
    have hlive' : m.Leaf u (cell S u x) := Or.inl (hc.symm ▸ mem_liveBlocks.mp hq)
    obtain rfl := leaf_unique hS hlive hlive'
    exact hne (by rw [← hb, ← hc])
  calc m.liveBytes S
      = ∑ p ∈ m.liveBlocks, (Ico (p.2 * 2 ^ (S - p.1)) ((p.2 + 1) * 2 ^ (S - p.1))).card :=
        sum_congr rfl hcard
    _ = (m.liveBlocks.biUnion
          (fun p => Ico (p.2 * 2 ^ (S - p.1)) ((p.2 + 1) * 2 ^ (S - p.1)))).card :=
        (card_biUnion hdisjoint).symm
    _ ≤ (range (2 ^ S)).card := by
        apply card_le_card
        intro x hx
        obtain ⟨⟨t, b⟩, hp, hx⟩ := mem_biUnion.mp hx
        have hlive := mem_liveBlocks.mp hp
        obtain ⟨ht, hb⟩ := m.inside (t := t) (b := b) (by simp [hlive])
        have hend : (b + 1) * 2 ^ (S - t) ≤ 2 ^ t * 2 ^ (S - t) := Nat.mul_le_mul_right _ hb
        rw [← pow_add, show t + (S - t) = S by omega] at hend
        exact mem_range.mpr ((mem_Ico.mp hx).2.trans_le hend)
    _ = 2 ^ S := card_range _

end Measure
end BuddyMap
end LibXpf.BuddySystem
