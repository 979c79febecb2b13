import LibXpf.Xpfstring.IsoLayout

/-! # Directives that conform

A directive prints the text of the standard exactly when none of the differences between
the two layouts shows.
-/
namespace LibXpf.Xpfstring
open StepLoops PositionalDigits TextFields

section Differences
variable {keeps : Bool} {d : Directive} {v : Int32} {a : UInt8}

theorem mem_text (hblank : a ≠ ascii ' ') (hzero : a ≠ ascii '0') :
    a ∈ d.text keeps v ↔ a ∈ (d.printed keeps v).1 ∨ a ∈ (d.printed keeps v).2 := by
  rw [text_field]
  exact mem_field hblank fun _ => hzero

theorem mem_iso (hblank : a ≠ ascii ' ') (hzero : a ≠ ascii '0') :
    a ∈ d.iso v ↔ a ∈ d.isoPrefix v ∨ a ∈ d.isoDigits v := mem_field hblank fun _ => hzero

theorem printed_of_ne (h : v ≠ 0) :
    d.printed keeps v =
      (d.printedPrefix v, (d.conversion.written v).leftpad (d.percision.value.getD 0).toNat (ascii '0')) := by
  rw [Directive.printed, if_neg fun hcase => h hcase.2, if_neg fun hcase => h hcase.2.2.1]

theorem signed_ne_octal (h : d.conversion.signed = true) : ¬ (d.conversion = .o ∧ FlagChar.hash ∈ d.flags) := by
  rintro ⟨hoct, -⟩
  rw [hoct] at h
  exact absurd h (by decide)

/-- The digit `2` of the least value is not written. -/
theorem overflow_differs (h : d.text keeps v = d.iso v) : ¬ d.conversion.Overflows v := by
  rintro ⟨hsigned, rfl⟩
  have hne : Int32.minValue ≠ 0 := by decide
  have hnumeral : ascii '2' ∈ numeralText 10 2147483648 := by
    rw [numeralText, numeral_pos (by decide)]
    norm_num [digitText]
    decide
  have hiso : ascii '2' ∈ d.isoDigits Int32.minValue := by
    have hmagnitude : d.conversion.magnitude Int32.minValue = 2147483648 := by
      rw [Conversion.magnitude, if_pos hsigned]
      decide
    have hdecimal : d.conversion.numeral 2147483648 = numeralText 10 2147483648 := by
      cases hconversion : d.conversion <;> rw [hconversion] at hsigned <;> first | rfl | cases hsigned
    rw [isoDigits_eq (signed_ne_octal hsigned), Directive.isoNumeral, if_neg fun hcase => hne hcase.2, mem_leftpad (by decide),
      hmagnitude, hdecimal]
    exact hnumeral
  have hmem : ascii '2' ∈ d.text keeps Int32.minValue := h ▸ (mem_iso (by decide) (by decide)).mpr (.inr hiso)
  have hover : d.conversion.Overflows Int32.minValue := ⟨hsigned, rfl⟩
  have hprefix : d.printedPrefix Int32.minValue = chars "-" := by
    rw [Directive.printedPrefix, if_pos hsigned]
    exact if_pos (by decide)
  rw [mem_text (by decide) (by decide), printed_of_ne hne, mem_leftpad (by decide), Conversion.written, if_pos hover,
    hprefix] at hmem
  rcases hmem with hmem | hmem
  · exact absurd (show ascii '2' ∈ chars "-" from hmem) (by decide)
  · exact absurd hmem (by decide)

/-- The plus sign is missing if a blank is the last flag for the sign. -/
theorem sign_differs (h : d.text keeps v = d.iso v) (hsigned : d.conversion.signed) (hv : ¬ v < 0)
    (hplus : FlagChar.plus ∈ d.flags) : lastSign d.flags ≠ some .space := by
  intro hlast
  have hiso : d.isoPrefix v = chars "+" := by
    rw [Directive.isoPrefix, if_pos hsigned, Directive.isoSign, if_neg hv, if_pos hplus]
  have hsign : d.printedSign v = chars " " := by
    rw [Directive.printedSign, if_neg hv, if_neg (by rw [hlast]; decide), if_pos hlast]
  have hwritten : ascii '+' ∉ d.conversion.written v := by
    rw [written_eq (overflow_differs h)]
    exact fun hmem => absurd (mem_numeral hmem) (by decide)
  have hmem : ascii '+' ∈ d.text keeps v :=
    h ▸ (mem_iso (by decide) (by decide)).mpr (.inl (hiso ▸ List.mem_cons_self))
  have hbare : ¬ (d.width.value = none ∧ d.percision.value = none ∧ v = 0 ∧ ¬ d.conversion.signed = true) := fun hcase =>
    hcase.2.2.2 hsigned
  rw [mem_text (by decide) (by decide), Directive.printed, Directive.printedPrefix, if_pos hsigned, if_pos hsigned, hsign,
    if_neg hbare] at hmem
  split at hmem
  · cases keeps <;> exact absurd hmem (by decide)
  · rcases hmem with hmem | hmem
    · exact absurd (show ascii '+' ∈ chars " " from hmem) (by decide)
    · exact hwritten ((mem_leftpad (by decide)).mp hmem)

/-- The prefix of a hexadecimal zero is printed with a width or a percision. -/
theorem base_differs (h : d.text keeps v = d.iso v) (hhex : d.conversion.hex) (hhash : FlagChar.hash ∈ d.flags) (hv : v = 0) :
    d.width.value = none ∧ d.percision.value = none ∨ d.percision.value = some 0 := by
  by_contra hno
  rw [not_or] at hno
  have hblank : d.conversion.char ≠ ascii ' ' := by cases d.conversion <;> decide
  have hzero : d.conversion.char ≠ ascii '0' := by cases d.conversion <;> decide
  have hunsigned : ¬ d.conversion.signed = true := by
    cases hconversion : d.conversion <;> rw [hconversion] at hhex <;> first | decide | cases hhex
  have hoct : ¬ (d.conversion = .o ∧ FlagChar.hash ∈ d.flags) := by
    rintro ⟨hoct, -⟩
    rw [hoct] at hhex
    exact absurd hhex (by decide)
  have hprinted : (d.printed keeps v).1 = [ascii '0', d.conversion.char] := by
    rw [Directive.printed, if_neg fun hcase => hno.2 hcase.1, Directive.printedPrefix, if_neg hunsigned, if_pos hhash,
      if_pos hhex]
    exact if_neg fun hcase => hno.1 ⟨hcase.1, hcase.2.1⟩
  have hmem : d.conversion.char ∈ d.iso v := by
    rw [← h, mem_text hblank hzero, hprinted]
    exact .inl (List.mem_cons_of_mem _ List.mem_cons_self)
  have hprefix : d.isoPrefix v = [] := by
    rw [Directive.isoPrefix, if_neg hunsigned, if_neg fun hcase => hcase.2.2 hv]
  rw [mem_iso hblank hzero, hprefix, isoDigits_eq hoct, Directive.isoNumeral, magnitude_eq_zero.mpr hv, numeral_zeroText] at hmem
  rcases hmem with hmem | hmem
  · exact List.not_mem_nil hmem
  · split at hmem
    · exact List.not_mem_nil hmem
    · rw [mem_leftpad hzero] at hmem
      exact hzero (List.mem_singleton.mp hmem)

/-- A zero that is kept for the percision zero is printed. -/
theorem zero_differs (hoct : ¬ d.OctalZero v) (h : d.text keeps v = d.iso v) (hkeeps : keeps)
    (hp : d.percision.value = some 0) : v ≠ 0 := by
  intro hv
  have hprecision : d.precision = some 0 := precision_of_nonneg hp le_rfl
  have hmem : ascii '0' ∈ d.iso v := by
    have hprinted : (d.printed keeps v).1 = chars "0" := by
      rw [Directive.printed, if_pos ⟨hp, hv⟩]
      exact if_pos hkeeps
    have hfill : d.printedFill ≠ .inner := printedFill_ne_inner (by rw [hp]; rintro ⟨⟩)
    rw [← h, text_field, hprinted]
    exact (mem_field (by decide) fun hinner => absurd hinner hfill).mpr (.inl List.mem_cons_self)
  have hfill : d.isoFill ≠ .inner := isoFill_ne_inner (by rw [hprecision]; rintro ⟨⟩)
  have hnumeral : d.isoNumeral v = [] := if_pos ⟨hprecision, hv⟩
  have hdigits : d.isoDigits v = [] := by
    rw [Directive.isoDigits, if_neg fun hcase => hoct ⟨hcase.1, hcase.2.1, hv⟩, hnumeral]
  have hprefix : ascii '0' ∉ d.isoPrefix v := by
    have hnone : ¬ (d.conversion.hex = true ∧ FlagChar.hash ∈ d.flags ∧ v ≠ 0) := fun hcase => hcase.2.2 hv
    rw [Directive.isoPrefix, if_neg hnone, Directive.isoSign]
    split_ifs <;> decide
  rcases (mem_field (by decide) fun hinner => absurd hinner hfill).mp hmem with hmem | hmem
  · exact hprefix hmem
  · rw [hdigits] at hmem
    exact List.not_mem_nil hmem

/-- The alternative octal form adds a zero to a number that is filled up with zeros already. -/
theorem octal_differs (hoct : ¬ d.OctalZero v) (h : d.text keeps v = d.iso v) (hconversion : d.conversion = .o)
    (hhash : FlagChar.hash ∈ d.flags) {p : ℤ} (hp : d.percision.value = some p) :
    p ≤ (numeralText 8 v.toUInt32.toNat).length := by
  by_contra hlong
  rw [← octal_written hconversion] at hlong
  have hv : v ≠ 0 := fun hv => hoct ⟨hconversion, hhash, hv⟩
  have hunsigned : ¬ d.conversion.signed = true := by rw [hconversion]; decide
  have hhex : ¬ d.conversion.hex = true := by rw [hconversion]; decide
  have hprefix : d.printedPrefix v = [ascii '0'] := by
    rw [Directive.printedPrefix, if_neg hunsigned, if_pos hhash, if_neg hhex, if_pos hconversion]
    rfl
  have hnumeral : d.isoNumeral v = (d.conversion.written v).leftpad p.toNat (ascii '0') := by
    rw [isoNumeral_eq (overflow_differs h) fun hcase => hv hcase.2, hp, Option.getD_some]
  have hhead : ((d.conversion.written v).leftpad p.toNat (ascii '0')).head? = some (ascii '0') := by
    obtain ⟨n, hn⟩ : ∃ n, p.toNat - (d.conversion.written v).length = n + 1 :=
      ⟨p.toNat - (d.conversion.written v).length - 1, by omega⟩
    rw [List.leftpad, hn]
    rfl
  have hdigits : d.isoDigits v = (d.conversion.written v).leftpad p.toNat (ascii '0') := by
    rw [Directive.isoDigits, hnumeral, if_neg fun hcase => hcase.2.2 hhead]
  have hisoPrefix : d.isoPrefix v = [] := by
    rw [Directive.isoPrefix, if_neg hunsigned, if_neg fun hcase => hhex hcase.1]
  have hfill : d.isoFill ≠ .inner :=
    isoFill_ne_inner (by rw [precision_of_nonneg hp (by omega)]; rintro ⟨⟩)
  have hcount := congrArg (List.countP (· ≠ ascii ' ')) h
  rw [text_field, Directive.iso, countP_field (by decide), countP_field (by decide), printed_of_ne hv, hp, Option.getD_some,
    if_neg hfill, if_neg (printedFill_ne_inner (by rw [hp]; rintro ⟨⟩)), hprefix, hdigits, hisoPrefix, List.nil_append,
    List.singleton_append, List.countP_cons, if_pos (by decide)] at hcount
  exact absurd hcount (Nat.succ_ne_self _)

end Differences

section OctalZeros
variable {keeps : Bool} {d : Directive} {v : Int32}

theorem leftpad_zero (n : ℕ) : (chars "0").leftpad n (ascii '0') = List.replicate (max 1 n) (ascii '0') := by
  have hcount : max 1 n = n - 1 + 1 := by omega
  rw [hcount, List.replicate_succ']
  rfl

/-- The digits of a zero in the alternative octal form. -/
theorem octalZero_iso (h : d.OctalZero v) :
    d.iso v =
      field (ascii ' ') (ascii '0') d.isoFill (d.width.value.getD 0).natAbs []
        (List.replicate (max 1 (d.precision.getD 1)) (ascii '0')) := by
  have hunsigned : ¬ d.conversion.signed = true := by rw [h.1]; decide
  have hhex : ¬ d.conversion.hex = true := by rw [h.1]; decide
  have hprefix : d.isoPrefix v = [] := by
    rw [Directive.isoPrefix, if_neg hunsigned, if_neg fun hcase => hhex hcase.1]
  have hdigits : d.isoDigits v = List.replicate (max 1 (d.precision.getD 1)) (ascii '0') := by
    by_cases hprecision : d.precision = some 0
    · have hnumeral : d.isoNumeral v = [] := if_pos ⟨hprecision, h.2.2⟩
      rw [Directive.isoDigits, hnumeral, hprecision, if_pos ⟨h.1, h.2.1, by rintro ⟨⟩⟩]
      rfl
    · have hnumeral : d.isoNumeral v = List.replicate (max 1 (d.precision.getD 1)) (ascii '0') := by
        rw [Directive.isoNumeral, if_neg fun hcase => hprecision hcase.1, magnitude_eq_zero.mpr h.2.2, numeral_zeroText,
          leftpad_zero]
      have hhead : (List.replicate (max 1 (d.precision.getD 1)) (ascii '0')).head? = some (ascii '0') := by
        have hcount : max 1 (d.precision.getD 1) = d.precision.getD 1 - 1 + 1 := by omega
        rw [hcount]
        rfl
      rw [Directive.isoDigits, hnumeral, if_neg fun hcase => hcase.2.2 hhead]
  rw [Directive.iso, hprefix, hdigits]

theorem octalZero_printed (h : d.OctalZero v) :
    d.printed keeps v =
      if d.percision.value = some 0 then (if keeps then chars "0" else [], [])
      else
        (if d.width.value = none ∧ d.percision.value = none then [] else [ascii '0'],
          List.replicate (max 1 (d.percision.value.getD 0).toNat) (ascii '0')) := by
  have hunsigned : ¬ d.conversion.signed = true := by rw [h.1]; decide
  have hhex : ¬ d.conversion.hex = true := by rw [h.1]; decide
  have hprefix : d.printedPrefix v = [ascii '0'] := by
    rw [Directive.printedPrefix, if_neg hunsigned, if_pos h.2.1, if_neg hhex, if_pos h.1]
    rfl
  rw [Directive.printed, hprefix, h.2.2, written_zero, leftpad_zero, if_neg hunsigned]
  simp only [and_true, hunsigned, Bool.false_eq_true, not_false_eq_true]

/-- Two zeros are printed for the one of the standard. -/
theorem octalZero_width (h : d.OctalZero v) {w : ℤ} (hw : d.width.value = some w) (hp : d.percision.value = none) :
    d.text keeps v = d.iso v ↔ FlagChar.zero ∈ d.flags ∧ FlagChar.minus ∉ d.flags ∧ 2 ≤ w := by
  have hprinted : d.printed keeps v = ([ascii '0'], [ascii '0']) := by
    rw [octalZero_printed h, hw, hp, if_neg (by rintro ⟨⟩), if_neg fun hcase => absurd hcase.1 (by rintro ⟨⟩)]
    rfl
  have htext : d.text keeps v = field (ascii ' ') (ascii '0') d.printedFill w.toNat [] (List.replicate 2 (ascii '0')) := by
    rw [text_field_of_lt (by rw [hprinted]; decide), hprinted, hw]
    exact field_zero
  rw [htext, octalZero_iso h, precision_of_none hp, hw, Option.getD_some]
  constructor
  · intro heq
    have hcount := congrArg (List.countP (· ≠ ascii ' ')) heq
    rw [countP_field_replicate (by decide), countP_field_replicate (by decide), Option.getD_none] at hcount
    by_cases hfill : d.isoFill = .inner
    · obtain ⟨hzero, hminus, hnonneg, -⟩ := isoFill_eq_inner.mp hfill
      rw [hw, Option.getD_some] at hnonneg
      rw [if_pos hfill] at hcount
      exact ⟨hzero, hminus, by omega⟩
    · rw [if_neg hfill] at hcount
      omega
  · rintro ⟨hzero, hminus, hle⟩
    have hiso : d.isoFill = .inner :=
      isoFill_eq_inner.mpr ⟨hzero, hminus, by rw [hw, Option.getD_some]; omega, precision_of_none hp⟩
    have hprinted : d.printedFill = .inner := by
      rw [Directive.printedFill, if_neg hminus, if_pos ⟨hzero, hp⟩]
    rw [hprinted, hiso, field_inner_replicate, field_inner_replicate, Option.getD_none]
    congr 1
    omega

/-- A negative percision hides the flag for zeros. -/
theorem octalZero_omitted (h : d.OctalZero v) {p : ℤ} (hp : d.percision.value = some p) (hneg : p < 0) :
    d.text keeps v = d.iso v ↔ FlagChar.zero ∈ d.flags ∧ FlagChar.minus ∉ d.flags ∧ d.width.value = some 2 := by
  have hnat : p.toNat = 0 := Int.toNat_of_nonpos hneg.le
  have hne : ¬ some p = some 0 := fun hcase => hneg.ne (Option.some.inj hcase)
  have hprinted : d.printed keeps v = ([ascii '0'], [ascii '0']) := by
    rw [octalZero_printed h, hp, if_neg hne, if_neg fun hcase => absurd hcase.2 (by rintro ⟨⟩), Option.getD_some, hnat]
    rfl
  have htext : d.text keeps v =
      field (ascii ' ') (ascii '0') d.printedFill (d.width.value.getD 0).toNat [] (List.replicate 2 (ascii '0')) := by
    rw [text_field_of_lt (by rw [hprinted]; decide), hprinted]
    exact field_zero
  have hfill : d.printedFill ≠ .inner := printedFill_ne_inner (by rw [hp]; rintro ⟨⟩)
  rw [htext, octalZero_iso h, precision_of_neg hp hneg, Option.getD_none]
  constructor
  · intro heq
    have hcount := congrArg (List.countP (· ≠ ascii ' ')) heq
    rw [countP_field_replicate (by decide), countP_field_replicate (by decide), if_neg hfill] at hcount
    by_cases hiso : d.isoFill = .inner
    · obtain ⟨hzero, hminus, hnonneg, -⟩ := isoFill_eq_inner.mp hiso
      rw [if_pos hiso] at hcount
      refine ⟨hzero, hminus, ?_⟩
      cases hw : d.width.value with
      | none =>
        rw [hw] at hcount
        exact absurd hcount (by decide)
      | some w =>
        rw [hw, Option.getD_some] at hcount hnonneg
        congr 1
        omega
    · rw [if_neg hiso] at hcount
      omega
  · rintro ⟨hzero, hminus, hw⟩
    have hiso : d.isoFill = .inner :=
      isoFill_eq_inner.mpr ⟨hzero, hminus, by rw [hw]; decide, precision_of_neg hp hneg⟩
    rw [hiso, hw, field_inner_replicate]
    exact field_of_le le_rfl

/-- A zero that is kept for the percision zero is the digit of the alternative form. -/
theorem octalZero_kept (h : d.OctalZero v) (hp : d.percision.value = some 0) :
    d.text keeps v = d.iso v ↔ keeps ∧ -1 ≤ d.width.value.getD 0 := by
  have hprecision : d.precision = some 0 := precision_of_nonneg hp le_rfl
  have hfill : d.printedFill ≠ .inner := printedFill_ne_inner (by rw [hp]; rintro ⟨⟩)
  have hiso : d.isoFill ≠ .inner := isoFill_ne_inner (by rw [hprecision]; rintro ⟨⟩)
  have hdigits : List.replicate (max 1 ((some 0 : Option ℕ).getD 1)) (ascii '0') = [ascii '0'] := rfl
  have hsize : ((d.printed keeps v).1 ++ (d.printed keeps v).2).length < 2 ^ 31 := by
    rw [octalZero_printed h, if_pos hp]
    cases keeps <;> decide
  rw [text_field_of_lt hsize, octalZero_iso h, octalZero_printed h, if_pos hp, hprecision, hdigits]
  cases keeps with
  | false =>
    refine iff_of_false (fun heq => ?_) fun hcase => absurd hcase.1 (by decide)
    have hmem : ascii '0' ∈ field (ascii ' ') (ascii '0') d.isoFill (d.width.value.getD 0).natAbs [] [ascii '0'] :=
      (mem_field (by decide) fun hinner => absurd hinner hiso).mpr (.inr List.mem_cons_self)
    rw [← heq, mem_field (by decide) fun hinner => absurd hinner hfill] at hmem
    exact absurd hmem (by decide)
  | true =>
    have hpre : field (ascii ' ') (ascii '0') d.printedFill (d.width.value.getD 0).toNat (chars "0") [] =
        field (ascii ' ') (ascii '0') d.printedFill (d.width.value.getD 0).toNat [] [ascii '0'] := field_congr hfill rfl
    simp only [if_true, hpre, true_and]
    by_cases hneg : d.width.value.getD 0 < 0
    · have hnat : (d.width.value.getD 0).toNat = 0 := Int.toNat_of_nonpos hneg.le
      rw [hnat, field_of_le (Nat.zero_le _)]
      constructor
      · intro heq
        have hlen := congrArg List.length heq
        rw [field_length] at hlen
        simp only [List.nil_append, List.length_singleton] at hlen
        omega
      · intro hle
        exact (field_of_le (by simp only [List.nil_append, List.length_singleton]; omega)).symm
    · have hnat : (d.width.value.getD 0).natAbs = (d.width.value.getD 0).toNat := by omega
      have hzeros : ¬ d.ZerosOmitted := fun hcase => absurd hcase.1 (by rw [hp]; decide)
      rw [hnat, fill_eq (not_lt.mp hneg) hzeros]
      exact iff_of_true rfl (by omega)

/-- A greater percision fills up the zero, and the prefix comes in addition. -/
theorem octalZero_percision (h : d.OctalZero v) {p : ℤ} (hp : d.percision.value = some p) (hpos : 0 < p) :
    d.text keeps v ≠ d.iso v := by
  have hne : ¬ some p = some 0 := fun hcase => hpos.ne' (Option.some.inj hcase)
  have hprecision : d.precision = some p.toNat := precision_of_nonneg hp hpos.le
  have hfill : d.printedFill ≠ .inner := printedFill_ne_inner (by rw [hp]; rintro ⟨⟩)
  have hiso : d.isoFill ≠ .inner := isoFill_ne_inner (by rw [hprecision]; rintro ⟨⟩)
  have hprinted : d.printed keeps v = ([ascii '0'], List.replicate (max 1 p.toNat) (ascii '0')) := by
    rw [octalZero_printed h, hp, if_neg hne, if_neg fun hcase => absurd hcase.2 (by rintro ⟨⟩), Option.getD_some]
  intro heq
  have hcount := congrArg (List.countP (· ≠ ascii ' ')) heq
  rw [text_field, octalZero_iso h, hprinted, hprecision, field_zero, ← List.replicate_succ,
    countP_field_replicate (by decide), countP_field_replicate (by decide), if_neg hfill, if_neg hiso, Option.getD_some]
    at hcount
  omega

theorem octalZeroConforms_some {p : ℤ} (hp : d.percision.value = some p) :
    d.OctalZeroConforms keeps ↔
      if p < 0 then FlagChar.zero ∈ d.flags ∧ FlagChar.minus ∉ d.flags ∧ d.width.value = some 2
      else p = 0 ∧ keeps ∧ -1 ≤ d.width.value.getD 0 := by
  rw [Directive.OctalZeroConforms, hp]
  cases d.width.value <;> rfl

theorem octalZero_iff (h : d.OctalZero v) : d.text keeps v = d.iso v ↔ d.OctalZeroConforms keeps := by
  cases hp : d.percision.value with
  | none =>
    rw [Directive.OctalZeroConforms, hp]
    cases hw : d.width.value with
    | none =>
      have hprinted : d.printed keeps v = ([], [ascii '0']) := by
        rw [octalZero_printed h, hw, hp, if_neg (by rintro ⟨⟩), if_pos ⟨rfl, rfl⟩]
        rfl
      rw [text_field_of_lt (printed_short keeps v hp), octalZero_iso h, hprinted, precision_of_none hp, hw]
      exact iff_of_true ((field_of_le (Nat.zero_le _)).trans (field_of_le (Nat.zero_le _)).symm) trivial
    | some w => exact octalZero_width h hw hp
  | some p =>
    rw [octalZeroConforms_some hp]
    rcases lt_trichotomy p 0 with hneg | rfl | hpos
    · rw [if_pos hneg]
      exact octalZero_omitted h hp hneg
    · rw [if_neg (lt_irrefl 0), octalZero_kept h hp]
      exact ⟨fun hcase => ⟨rfl, hcase⟩, And.right⟩
    · rw [if_neg hpos.not_gt]
      exact iff_of_false (octalZero_percision h hp hpos) fun hcase => hpos.ne' hcase.1

end OctalZeros

section Standards
variable {keeps : Bool} {d : Directive} {v : Int32}

/-- A directive prints the text of the standard if and only if it conforms. -/
theorem text_iso_iff (keeps : Bool) (d : Directive) (v : Int32) : d.text keeps v = d.iso v ↔ d.Conforms keeps v := by
  rw [Directive.Conforms]
  by_cases hoct : d.conversion = .o ∧ FlagChar.hash ∈ d.flags ∧ v = 0
  · rw [if_pos hoct]
    exact octalZero_iff hoct
  rw [if_neg hoct]
  constructor
  · intro h
    have hparts : d.SameParts keeps v :=
      ⟨overflow_differs h, sign_differs h, base_differs h, zero_differs hoct h, fun hconversion hhash p hp =>
        octal_differs hoct h hconversion hhash hp⟩
    exact ⟨hparts, (text_eq_iso_iff hparts hoct).mp h⟩
  · rintro ⟨hparts, hfill⟩
    exact (text_eq_iso_iff hparts hoct).mpr hfill

/-- The directive without its width. -/
def Directive.unpadded (d : Directive) : Directive := { d with width := .absent }

theorem unpadded_iso (d : Directive) (v : Int32) : d.unpadded.iso v = d.isoPrefix v ++ d.isoDigits v :=
  field_of_le (Nat.zero_le _)

/-- A width that is not greater than the length does not matter to the standard. -/
theorem iso_unpadded (h : (d.width.value.getD 0).natAbs ≤ (d.unpadded.iso v).length) : d.iso v = d.unpadded.iso v := by
  rw [unpadded_iso] at h ⊢
  exact field_of_le h

/-- Without a width, a length that an `int` does not hold is filled up unless it is the first one. -/
theorem unpadded_length_le (h : d.unpadded.text keeps v = d.unpadded.iso v) : (d.unpadded.iso v).length ≤ 2 ^ 31 := by
  by_cases hoct : d.unpadded.conversion = .o ∧ FlagChar.hash ∈ d.unpadded.flags ∧ v = 0
  · have hprecision := precision_lt d.unpadded
    rw [octalZero_iso hoct, field_length, List.nil_append, List.length_replicate]
    exact max_le (Nat.zero_le _) (by omega)
  · have hconforms := (text_iso_iff keeps d.unpadded v).mp h
    rw [Directive.Conforms, if_neg hoct] at hconforms
    have hlt := unpadded_length_lt d v
    rw [unpadded_iso]
    by_contra hlong
    have hcounted : (0 : ℤ) ≤ (d.isoPrefix v ++ d.isoDigits v).length - (2 ^ 32 : ℤ) ∨
        (d.isoPrefix v ++ d.isoDigits v).length - (2 ^ 31 : ℤ) ≤ 0 := hconforms.2.counted (not_le.mp hlong).le
    omega

/-- The directive without its width conforms as well, for a length up to the first one that an `int` does not hold. -/
theorem conforms_unpadded (hconforms : d.Conforms keeps v) (hlen : (d.unpadded.iso v).length ≤ 2 ^ 31)
    (h : (d.width.value.getD 0).natAbs ≤ (d.unpadded.iso v).length) : d.unpadded.Conforms keeps v := by
  rw [Directive.Conforms] at hconforms ⊢
  by_cases hoct : d.conversion = .o ∧ FlagChar.hash ∈ d.flags ∧ v = 0
  · have hunpadded : d.unpadded.conversion = .o ∧ FlagChar.hash ∈ d.unpadded.flags ∧ v = 0 := hoct
    rw [if_pos hoct] at hconforms
    rw [if_pos hunpadded]
    cases hp : d.percision.value with
    | none =>
      rw [Directive.OctalZeroConforms, show d.unpadded.percision.value = none from hp]
      trivial
    | some p =>
      rw [octalZeroConforms_some hp] at hconforms
      rw [octalZeroConforms_some (show d.unpadded.percision.value = some p from hp)]
      by_cases hneg : p < 0
      · rw [if_pos hneg] at hconforms
        rw [octalZero_iso hunpadded, precision_of_neg (show d.unpadded.percision.value = some p from hp) hneg, hconforms.2.2,
          field_length] at h
        exact absurd (show 2 ≤ max 0 1 from h) (by decide)
      · rw [if_neg hneg] at hconforms ⊢
        exact ⟨hconforms.1, hconforms.2.1, show (-1 : ℤ) ≤ 0 by decide⟩
  · have hunpadded : ¬ (d.unpadded.conversion = .o ∧ FlagChar.hash ∈ d.unpadded.flags ∧ v = 0) := hoct
    rw [if_neg hoct] at hconforms
    rw [if_neg hunpadded]
    obtain ⟨hparts, -⟩ := hconforms
    have hcounted : ((d.isoPrefix v ++ d.isoDigits v).length : ℤ) - 2 ^ 31 ≤ 0 := by
      rw [unpadded_iso] at hlen
      omega
    exact ⟨⟨hparts.overflow, hparts.sign, fun hhex hhash hv => (hparts.base hhex hhash hv).imp_left fun hbare => ⟨rfl, hbare.2⟩,
      hparts.zero, hparts.octal⟩, ⟨fun hneg => absurd hneg (lt_irrefl 0), fun _ _ _ => Int.natCast_nonneg _,
      fun _ => .inr hcounted⟩⟩

/-- What a directive appends in a call, and the condition for it to be the text of the standard, and the same
text as without the width where the width is not greater than the length. -/
theorem printf_iso_iff (t : CharType) (d : Directive) (v : Int32) :
    (∀ (pre post : List t.ValueType) (width percision : Int32) (flag : Flags) (rest : List (VaArg t)) (str : List t.ValueType),
        Visits (Machine.step (pre ++ d.units.map t.ofChar ++ post))
          ⟨pre.length, .ST_TEXT, width, percision, flag, d.args t v ++ rest, str⟩
          ⟨pre.length + d.units.length, .ST_TEXT, d.width.param, d.percision.param, d.flag, rest,
            str ++ (d.text t.keeps v).map t.ofChar⟩) ∧
      printf (d.units.map t.ofChar ++ [0]) (d.args t v) =
        .ok ((d.text t.keeps v).map t.ofChar, LibXpf.u32 (d.text t.keeps v).length) ∧
      (d.text t.keeps v = d.iso v ∧
          ((d.width.value.getD 0).natAbs ≤ (d.unpadded.iso v).length → d.text t.keeps v = d.unpadded.text t.keeps v) ↔
        d.Conforms t.keeps v ∧ (d.unpadded.iso v).length ≤ 2 ^ 31) := by
  refine ⟨fun pre post width percision flag rest str => ?_, printf_directive t d v, ?_⟩
  · have hstands : Stands (pre ++ d.units.map t.ofChar ++ post) pre.length d.units := by
      rw [Stands, List.append_assoc, List.drop_left]
      exact List.prefix_append _ _
    exact directive_appends d v hstands width percision flag rest str
  · constructor
    · rintro ⟨htext, hunpadded⟩
      refine ⟨(text_iso_iff t.keeps d v).mp htext, ?_⟩
      by_contra hlong
      have hwidth : (d.width.value.getD 0).natAbs ≤ (d.unpadded.iso v).length := by
        have hlo := d.width.value_range.1
        have hhi := d.width.value_range.2
        omega
      have hiso : d.unpadded.text t.keeps v = d.unpadded.iso v := by rw [← hunpadded hwidth, htext, iso_unpadded hwidth]
      exact hlong (unpadded_length_le hiso)
    · rintro ⟨hconforms, hlen⟩
      have htext := (text_iso_iff t.keeps d v).mpr hconforms
      refine ⟨htext, fun hwidth => ?_⟩
      have hunpadded := (text_iso_iff t.keeps d.unpadded v).mpr (conforms_unpadded hconforms hlen hwidth)
      rw [htext, hunpadded, iso_unpadded hwidth]

/-- A hexadecimal zero is printed with its prefix if a width is given. -/
theorem printf_not_iso :
    ¬ ∀ (d : Directive) (v : Int32) (str : List CharType.c8.ValueType) (n : ℕ),
      printf (d.units.map CharType.c8.ofChar ++ [0]) (d.args .c8 v) = .ok (str, n) →
        str = (d.iso v).map CharType.c8.ofChar ∧
          ((d.width.value.getD 0).natAbs ≤ (d.unpadded.iso v).length →
            printf (d.unpadded.units.map CharType.c8.ofChar ++ [0]) (d.unpadded.args .c8 v) = .ok (str, n)) := by
  intro h
  have hcall := h ⟨[.hash], .star 1, .absent, .x⟩ 0 ((chars "0x0").map CharType.c8.ofChar) 3 (by decide)
  exact absurd hcall.1 (by decide)

end Standards
end LibXpf.Xpfstring
