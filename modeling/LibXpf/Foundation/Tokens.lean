import Mathlib.Data.List.Induction
import Mathlib.Order.Nat

/-! # Tokens of a text

The tokens of a text are its longest parts without a separator, and empty parts do not
count. A text that is complete up to a separator has its tokens in front of those of the rest.
-/
namespace LibXpf.Tokens

variable {α : Type*} {p : α → Bool} {xs ys : List α} {a : α}

def tokens (p : α → Bool) (xs : List α) : List (List α) := (xs.splitOnP p).filter fun token => !token.isEmpty

/-- No part of the text is cut where it ends: it is empty, or its last element is a separator. -/
def Complete (p : α → Bool) (xs : List α) : Prop := ∀ a ∈ xs.getLast?, p a = true

theorem tokens_nil : tokens p [] = [] := rfl

theorem tokens_cons_append (xs ys : List α) (ha : p a = true) : tokens p (xs ++ a :: ys) = tokens p xs ++ tokens p ys := by
  rw [tokens, List.splitOnP_append_cons xs ys ha, List.filter_append]
  rfl

theorem tokens_append_singleton (xs : List α) (ha : p a = true) : tokens p (xs ++ [a]) = tokens p xs := by
  rw [tokens_cons_append xs [] ha, tokens_nil, List.append_nil]

theorem tokens_of_none (h : ∀ a ∈ xs, p a = false) : tokens p xs = if xs = [] then [] else [xs] := by
  rw [tokens, List.splitOnP_eq_singleton h]
  cases xs <;> rfl

theorem complete_append_singleton : Complete p (xs ++ [a]) ↔ p a = true := by
  simp only [Complete, List.getLast?_append, List.getLast?_singleton, Option.some_or, Option.mem_def, Option.some_inj,
    forall_eq']

theorem tokens_append (h : Complete p xs) (ys : List α) : tokens p (xs ++ ys) = tokens p xs ++ tokens p ys := by
  induction xs using List.reverseRecOn with
  | nil => rw [List.nil_append, tokens_nil, List.nil_append]
  | append_singleton xs a _ =>
    have ha : p a = true := complete_append_singleton.mp h
    rw [List.append_assoc, List.singleton_append, tokens_cons_append xs ys ha, tokens_append_singleton xs ha]

theorem length_tokens_le (p : α → Bool) (xs : List α) : (tokens p xs).length ≤ xs.length := by
  induction xs with
  | nil => exact le_rfl
  | cons a xs ih =>
    obtain ⟨piece, rest, hsplit⟩ := List.exists_cons_of_ne_nil (List.splitOnP_ne_nil p xs)
    rw [tokens, hsplit] at ih
    rw [tokens, List.splitOnP_cons_eq_if_modifyHead, hsplit, List.length_cons]
    split
    · exact ih.trans (Nat.le_succ _)
    · have hrest := (List.sublist_cons_self piece rest).filter fun token => !token.isEmpty
      exact Nat.succ_le_succ (hrest.length_le.trans ih)

end LibXpf.Tokens
