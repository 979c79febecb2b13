import Mathlib.Data.List.Basic
import Mathlib.Logic.Function.Basic

/-! # Stores of blocks

A store has the cells of a block for each handle in use, and a cell has a value once one was
written to it. Blocks share no cell, so a write to one is seen in no other one. A memory holds
a store when it has the value of every cell that has one.
-/
namespace LibXpf.BlockStore

variable {κ ν : Type*}

abbrev Store (κ ν : Type*) := κ → Option (List (Option ν))

/-- A block of `n` cells without a value. -/
def blank (n : ℕ) : List (Option ν) := List.replicate n none

/-- The cells of a block that is made longer or shorter. -/
def resize (cells : List (Option ν)) (n : ℕ) : List (Option ν) := cells.take n ++ blank (n - cells.length)

/-- How many cells the block of a handle has. -/
def extent (st : Store κ ν) (p : κ) : Option ℕ := (st p).map List.length

def Holds (read : κ → ℕ → ν) (st : Store κ ν) : Prop :=
  ∀ p cells, st p = some cells → ∀ i v, cells[i]? = some (some v) → read p i = v

section Updates
variable [DecidableEq κ]

def put (st : Store κ ν) (p : κ) (cells : List (Option ν)) : Store κ ν := Function.update st p (some cells)

def drop (st : Store κ ν) (p : κ) : Store κ ν := Function.update st p none

def write (st : Store κ ν) (p : κ) (i : ℕ) (v : ν) : Store κ ν :=
  match st p with
  | some cells => put st p (cells.set i (some v))
  | none => st

end Updates

variable {st : Store κ ν} {read read' : κ → ℕ → ν} {p q : κ} {cells : List (Option ν)} {n i : ℕ} {v : ν}

section Extents

theorem extent_eq_some : extent st p = some n ↔ ∃ cells, st p = some cells ∧ cells.length = n := by
  simp [extent]

theorem extent_eq_none : extent st p = none ↔ st p = none := by
  simp [extent]

@[simp] theorem blank_length : (blank n : List (Option ν)).length = n := List.length_replicate

@[simp] theorem resize_length : (resize cells n).length = n := by
  simp only [resize, List.length_append, List.length_take, blank_length]
  omega

variable [DecidableEq κ]

theorem extent_put : extent (put st p cells) q = if q = p then some cells.length else extent st q := by
  by_cases h : q = p
  · simp [extent, put, h]
  · simp [extent, put, h]

theorem extent_drop : extent (drop st p) q = if q = p then none else extent st q := by
  by_cases h : q = p
  · simp [extent, drop, h]
  · simp [extent, drop, h]

theorem extent_write : extent (write st p i v) q = extent st q := by
  cases hp : st p with
  | none => simp only [write, hp]
  | some cells =>
    simp only [write, hp, extent_put, List.length_set]
    split
    · next hq => simp [extent, hq, hp]
    · rfl

end Extents

section Values

theorem not_blank (h : (blank n : List (Option ν))[i]? = some (some v)) : False := by
  simp [blank, List.getElem?_replicate] at h

/-- A block keeps the values of the cells it keeps. -/
theorem resize_value (h : (resize cells n)[i]? = some (some v)) :
    i < min cells.length n ∧ cells[i]? = some (some v) := by
  rw [resize, List.getElem?_append] at h
  split at h
  · rename_i hi
    rw [List.length_take] at hi
    rw [List.getElem?_take_of_lt (by omega)] at h
    exact ⟨by omega, h⟩
  · exact absurd h not_blank

theorem set_value {w : ν} (h : (cells.set i (some w))[n]? = some (some v)) :
    n = i ∧ v = w ∨ n ≠ i ∧ cells[n]? = some (some v) := by
  rw [List.getElem?_set] at h
  by_cases hn : i = n
  · rw [if_pos hn] at h
    split at h
    · exact Or.inl ⟨hn.symm, (Option.some.inj (Option.some.inj h)).symm⟩
    · cases h
  · rw [if_neg hn] at h
    exact Or.inr ⟨fun heq => hn heq.symm, h⟩

end Values

section Memories

theorem holds_empty : Holds read (fun _ => none) := by
  rintro p cells ⟨⟩

/-- Reads of the cells in use are all that matters. -/
theorem Holds.frame (h : Holds read st) (hsame : ∀ p n, extent st p = some n → ∀ i < n, read' p i = read p i) :
    Holds read' st := by
  intro p cells hp i v hv
  have hi : i < cells.length := (List.getElem?_eq_some_iff.mp hv).1
  exact (hsame p _ (extent_eq_some.mpr ⟨cells, hp, rfl⟩) i hi).trans (h p cells hp i v hv)

variable [DecidableEq κ]

theorem Holds.drop (h : Holds read st) (p : κ) : Holds read (drop st p) := by
  intro q cells hq i v hv
  by_cases heq : q = p
  · simp [BlockStore.drop, heq] at hq
  · simp only [BlockStore.drop, Function.update_of_ne heq] at hq
    exact h q cells hq i v hv

theorem Holds.put (h : Holds read (BlockStore.drop st p))
    (hcells : ∀ i v, cells[i]? = some (some v) → read p i = v) : Holds read (put st p cells) := by
  intro q cells' hq i v hv
  by_cases heq : q = p
  · simp only [BlockStore.put, heq, Function.update_self] at hq
    cases hq
    rw [heq]
    exact hcells i v hv
  · simp only [BlockStore.put, Function.update_of_ne heq] at hq
    refine h q cells' ?_ i v hv
    rwa [BlockStore.drop, Function.update_of_ne heq]

theorem Holds.write (h : Holds read st) (hat : (extent st p).isSome → read' p i = v)
    (hsame : ∀ q n, extent st q = some n → ∀ j < n, ¬ (q = p ∧ j = i) → read' q j = read q j) :
    Holds read' (write st p i v) := by
  intro q cells hq j u hu
  -- the cell that is written, and all others
  have hother : ∀ cells₀, st q = some cells₀ → cells₀[j]? = some (some u) → ¬ (q = p ∧ j = i) → read' q j = u := by
    intro cells₀ hst hval hne
    have hj : j < cells₀.length := (List.getElem?_eq_some_iff.mp hval).1
    exact (hsame q _ (extent_eq_some.mpr ⟨cells₀, hst, rfl⟩) j hj hne).trans (h q cells₀ hst j u hval)
  cases hp : st p with
  | none =>
    simp only [BlockStore.write, hp] at hq
    refine hother cells hq hu ?_
    rintro ⟨rfl, -⟩
    rw [hp] at hq
    cases hq
  | some cells₀ =>
    simp only [BlockStore.write, hp] at hq
    by_cases heq : q = p
    · subst heq
      simp only [BlockStore.put, Function.update_self, Option.some.injEq] at hq
      subst hq
      rcases set_value hu with ⟨rfl, rfl⟩ | ⟨hne, hval⟩
      · exact hat (by simp [extent, hp])
      · exact hother cells₀ hp hval (fun hboth => hne hboth.2)
    · simp only [BlockStore.put, Function.update_of_ne heq] at hq
      exact hother cells hq hu (fun hboth => heq hboth.1)

end Memories
end LibXpf.BlockStore
