import Mathlib.Data.List.Count

/-! # Fields of a width

A field holds a prefix and digits. What is missing to its width is filled up with blanks on
one of its sides, or with zeros behind the prefix.
-/
namespace LibXpf.TextFields

/-- Where a field is filled up. -/
inductive Fill where
  | left
  | inner
  | right
  deriving DecidableEq

variable {α : Type*} (blank zero : α)

def field (fill : Fill) (width : ℕ) (pre digits : List α) : List α :=
  let missing := width - (pre ++ digits).length
  match fill with
  | .left => List.replicate missing blank ++ (pre ++ digits)
  | .inner => pre ++ (List.replicate missing zero ++ digits)
  | .right => pre ++ digits ++ List.replicate missing blank

variable {blank zero} {fill : Fill} {width : ℕ} {pre pre' digits digits' : List α}

theorem field_length : (field blank zero fill width pre digits).length = max width (pre ++ digits).length := by
  cases fill <;> simp only [field, List.length_append, List.length_replicate] <;> omega

theorem field_of_le (h : width ≤ (pre ++ digits).length) : field blank zero fill width pre digits = pre ++ digits := by
  have hmissing : width - (pre ++ digits).length = 0 := Nat.sub_eq_zero_of_le h
  cases fill <;> simp only [field, hmissing, List.replicate_zero, List.append_nil, List.nil_append]

/-- A field depends on what is missing to its width only. -/
theorem field_width {width' : ℕ} (h : width - (pre ++ digits).length = width' - (pre ++ digits).length) :
    field blank zero fill width pre digits = field blank zero fill width' pre digits := by
  cases fill <;> simp only [field, h]

/-- Only zeros behind the prefix show where it ends. -/
theorem field_congr (hfill : fill ≠ .inner) (h : pre ++ digits = pre' ++ digits') :
    field blank zero fill width pre digits = field blank zero fill width pre' digits' := by
  cases fill with
  | left => simp only [field, h]
  | inner => exact absurd rfl hfill
  | right => simp only [field, h]

/-- A zero at the end of the prefix may be counted to the digits. -/
theorem field_zero : field blank zero fill width [zero] digits = field blank zero fill width [] (zero :: digits) := by
  by_cases hfill : fill = .inner
  · have hcomm : ∀ n, zero :: (List.replicate n zero ++ digits) = List.replicate n zero ++ zero :: digits := by
      intro n
      rw [← List.cons_append, ← List.replicate_succ, List.replicate_succ', List.append_assoc, List.singleton_append]
    rw [hfill]
    exact hcomm _
  · exact field_congr hfill rfl

theorem mem_field {a : α} (hblank : a ≠ blank) (hzero : fill = .inner → a ≠ zero) :
    a ∈ field blank zero fill width pre digits ↔ a ∈ pre ∨ a ∈ digits := by
  cases fill with
  | left => simp [field, List.mem_replicate, hblank]
  | inner => simp [field, List.mem_replicate, hzero]
  | right => simp [field, List.mem_replicate, hblank]

theorem field_inner_replicate {n : ℕ} :
    field blank zero .inner width [] (List.replicate n zero) = List.replicate (max width n) zero := by
  have hcount : width - n + n = max width n := by omega
  simp only [field, List.nil_append, List.length_replicate, List.replicate_append_replicate, hcount]

theorem leftpad_of_le {n : ℕ} {a : α} (h : n ≤ digits.length) : digits.leftpad n a = digits := by
  rw [List.leftpad, Nat.sub_eq_zero_of_le h, List.replicate_zero, List.nil_append]

theorem mem_leftpad {n : ℕ} {a b : α} (h : b ≠ a) : b ∈ digits.leftpad n a ↔ b ∈ digits := by
  simp [List.leftpad, List.mem_replicate, h]

variable [DecidableEq α]

/-- Zeros count as characters, and blanks do not. -/
theorem countP_field (h : zero ≠ blank) :
    (field blank zero fill width pre digits).countP (· ≠ blank) =
      (pre ++ digits).countP (· ≠ blank) + if fill = .inner then width - (pre ++ digits).length else 0 := by
  have hblanks : ∀ n, (List.replicate n blank).countP (· ≠ blank) = 0 := by simp [List.countP_replicate]
  have hzeros : ∀ n, (List.replicate n zero).countP (· ≠ blank) = n := by simp [List.countP_replicate, h]
  cases fill with
  | left => simp only [field, List.countP_append, hblanks, reduceCtorEq, if_false]; omega
  | inner => simp only [field, List.countP_append, hzeros, if_true]; omega
  | right => simp only [field, List.countP_append, hblanks, reduceCtorEq, if_false]

theorem countP_field_replicate {n : ℕ} (h : zero ≠ blank) :
    (field blank zero fill width [] (List.replicate n zero)).countP (· ≠ blank) =
      n + if fill = .inner then width - n else 0 := by
  have hzeros : (List.replicate n zero).countP (· ≠ blank) = n := by simp [List.countP_replicate, h]
  rw [countP_field h, List.nil_append, List.length_replicate, hzeros]

end LibXpf.TextFields
