import Mathlib.Data.List.Basic

/-! # Consecutive pairs

The elements of a list are taken in pairs, and one that is left over at the end is dropped.
-/
namespace LibXpf.Pairs

variable {α β : Type*}

def pairs : List α → List (α × α)
  | [] => []
  | [_] => []
  | a :: b :: rest => (a, b) :: pairs rest

def unpair (p : α × α) : List α := [p.1, p.2]

theorem pairs_flatMap (f : β → α × α) (xs : List β) : pairs (xs.flatMap fun x => unpair (f x)) = xs.map f := by
  induction xs with
  | nil => rfl
  | cons x xs ih => exact congrArg (f x :: ·) ih

theorem flatMap_pairs {xs : List α} {n : ℕ} (h : xs.length = 2 * n) : (pairs xs).flatMap unpair = xs := by
  induction n generalizing xs with
  | zero =>
    rw [List.length_eq_zero_iff.mp h]
    rfl
  | succ n ih =>
    match xs with
    | a :: b :: rest =>
      have hrest : rest.length = 2 * n := by
        rw [List.length_cons, List.length_cons] at h
        omega
      exact congrArg (fun l => a :: b :: l) (ih hrest)

theorem length_pairs (xs : List α) : (pairs xs).length = xs.length / 2 := by
  induction xs using pairs.induct with
  | case1 => simp [pairs]
  | case2 a => simp [pairs]
  | case3 a b rest ih =>
    rw [pairs, List.length_cons, List.length_cons, List.length_cons, ih]
    omega

theorem mem_pairs {xs : List α} {p : α × α} (h : p ∈ pairs xs) : p.1 ∈ xs ∧ p.2 ∈ xs := by
  induction xs using pairs.induct with
  | case1 => cases h
  | case2 a => cases h
  | case3 a b rest ih =>
    rcases List.mem_cons.mp h with rfl | hrest
    · simp
    · simp [ih hrest]

end LibXpf.Pairs
