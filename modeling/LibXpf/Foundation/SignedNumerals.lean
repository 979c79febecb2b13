import LibXpf.Foundation.PositionalDigits

/-! # Numbers that are read from a text

A number is read from blanks, a sign that may be missing, and digits. The reader takes as
many digits as there are, and reads back what is written as a sign and a numeral.
-/
namespace LibXpf.SignedNumerals
open PositionalDigits

/-- The characters of numbers. -/
structure Alphabet (α : Type*) where
  blank : α → Bool
  plus : α
  minus : α
  digit : α → Option ℕ

variable {α : Type*}

/-- The digits at the front of a text. -/
def leadingDigits (digit : α → Option ℕ) : List α → List ℕ
  | [] => []
  | c :: rest =>
    match digit c with
    | some d => d :: leadingDigits digit rest
    | none => []

def unsigned (b : ℕ) (digit : α → Option ℕ) (s : List α) : Option ℕ :=
  match leadingDigits digit s with
  | [] => none
  | d :: ds => some (Nat.ofDigits b (d :: ds).reverse)

section Naturals
variable {b n : ℕ} {digit : α → Option ℕ} {write : ℕ → α}

theorem leadingDigits_map (ds : List ℕ) (h : ∀ d ∈ ds, digit (write d) = some d) :
    leadingDigits digit (ds.map write) = ds := by
  induction ds with
  | nil => rfl
  | cons d ds ih =>
    rw [List.forall_mem_cons] at h
    rw [List.map_cons, leadingDigits, h.1]
    exact congrArg (d :: ·) (ih h.2)

/-- A numeral is read back, where the digits are written as they are read. -/
theorem unsigned_numeral (hb : 1 < b) (h : ∀ d < b, digit (write d) = some d) :
    unsigned b digit ((numeral b n).map write) = some n := by
  have hnumeral := (isNumeral_iff hb).mpr (rfl : numeral b n = numeral b n)
  obtain ⟨d, ds, hds⟩ := List.exists_cons_of_ne_nil hnumeral.ne_nil
  have hvalue := hnumeral.value
  rw [unsigned, leadingDigits_map (numeral b n) fun d hd => h d (hnumeral.lt d hd), hds]
  rw [hds] at hvalue
  exact congrArg some hvalue

end Naturals

variable [DecidableEq α]

def signed (A : Alphabet α) (b : ℕ) : List α → Option ℤ
  | [] => none
  | c :: rest =>
    if c = A.minus then (unsigned b A.digit rest).map fun n => -n
    else if c = A.plus then (unsigned b A.digit rest).map fun n => n
    else (unsigned b A.digit (c :: rest)).map fun n => n

/-- The number at the front of a text, if there is one. -/
def scan (A : Alphabet α) (b : ℕ) (s : List α) : Option ℤ := signed A b (s.dropWhile A.blank)

variable {A : Alphabet α} {b : ℕ} {write : ℕ → α}

/-- An integer is read back from its sign and its numeral. -/
theorem scan_integer (hb : 1 < b) (h : ∀ d < b, A.digit (write d) = some d)
    (hwrite : ∀ d < b, A.blank (write d) = false ∧ write d ≠ A.minus ∧ write d ≠ A.plus) (hminus : A.blank A.minus = false)
    (z : ℤ) : scan A b ((if z < 0 then [A.minus] else []) ++ (numeral b z.natAbs).map write) = some z := by
  have hread : unsigned b A.digit ((numeral b z.natAbs).map write) = some z.natAbs := unsigned_numeral hb h
  by_cases hz : z < 0
  · rw [if_pos hz, List.singleton_append, scan, List.dropWhile_cons_of_neg (by simp [hminus]), signed, if_pos rfl, hread]
    exact congrArg some (show -(z.natAbs : ℤ) = z by omega)
  · obtain ⟨d, ds, hds⟩ := List.exists_cons_of_ne_nil (numeral_ne_nil (b := b) (n := z.natAbs))
    have hlt : d < b := numeral_lt hb (hds ▸ List.mem_cons_self)
    obtain ⟨hblank, hneg, hpos⟩ := hwrite d hlt
    rw [hds, List.map_cons] at hread
    rw [if_neg hz, List.nil_append, hds, List.map_cons, scan, List.dropWhile_cons_of_neg (by simp [hblank]), signed,
      if_neg hneg, if_neg hpos, hread]
    exact congrArg some (show (z.natAbs : ℤ) = z by omega)

end LibXpf.SignedNumerals
