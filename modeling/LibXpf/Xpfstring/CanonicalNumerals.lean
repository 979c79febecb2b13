import LibXpf.Foundation.PositionalDigits
import LibXpf.Xpfstring.Numerals
import Mathlib.Tactic.IntervalCases

/-! # The numerals that the strings hold

The constructors and the loops over the digits write canonical numerals, except for the
least value of a signed type, whose negation overflows.
-/
namespace LibXpf.Xpfstring
open PositionalDigits

section Texts

def digitText (ds : List ℕ) : List UInt8 := ds.map fun d => hextable.getD d 0

/-- The text of a number in a base. -/
def numeralText (b n : ℕ) : List UInt8 := digitText (numeral b n)

theorem digit_eq : ∀ d : ℕ, d < 10 → UInt8.ofInt (48 + (d : ℤ)) = hextable.getD d 0 := by decide

theorem digit_ne_zero : ∀ d < 16, hextable.getD d 0 ≠ 0 := by decide

theorem digit_zero_iff : ∀ d < 16, hextable.getD d 0 = ascii '0' ↔ d = 0 := by decide

theorem numeralText_nul {b n : ℕ} (hb : 1 < b) (hb' : b ≤ 16) : ∀ c ∈ numeralText b n, c ≠ 0 := by
  intro c hc
  obtain ⟨d, hd, rfl⟩ := List.mem_map.mp hc
  exact digit_ne_zero d ((numeral_lt hb hd).trans_le hb')

end Texts

section Decimals
variable {t : CharType}

/-- The loop writes the digits in front of an index. -/
theorem fillDigits_eq {n : ℕ} (front back : List UInt8) (hlen : (Nat.digits 10 n).length ≤ front.length) :
    fillDigits front.length n (front ++ back) =
      (front.length - (Nat.digits 10 n).length,
        front.take (front.length - (Nat.digits 10 n).length) ++ (digitText (Nat.digits 10 n).reverse ++ back)) := by
  induction front using List.reverseRecOn generalizing n back with
  | nil =>
    have hnil : Nat.digits 10 n = [] := List.eq_nil_of_length_eq_zero (Nat.le_zero.mp hlen)
    rw [hnil]
    rfl
  | append_singleton front x ih =>
    rw [List.length_append, List.length_singleton, fillDigits]
    by_cases hn : n = 0
    · rw [hn, if_pos Nat.cast_zero, Nat.digits_zero, List.length_nil, Nat.sub_zero,
        List.take_of_length_le (by rw [List.length_append, List.length_singleton])]
      rfl
    · have hdigits : Nat.digits 10 n = n % 10 :: Nat.digits 10 (n / 10) :=
        Nat.digits_def' (by decide) (Nat.pos_of_ne_zero hn)
      have hdiv : (n : ℤ).tdiv 10 = ((n / 10 : ℕ) : ℤ) := rfl
      have hmod : (n : ℤ).tmod 10 = ((n % 10 : ℕ) : ℤ) := rfl
      have hset : (front ++ [x] ++ back).set front.length (hextable.getD (n % 10) 0) =
          front ++ (hextable.getD (n % 10) 0 :: back) := by
        rw [List.append_assoc, List.set_append_right _ _ le_rfl, Nat.sub_self]
        rfl
      rw [hdigits, List.length_cons, List.length_append, List.length_singleton, Nat.add_le_add_iff_right] at hlen
      rw [if_neg (by exact_mod_cast hn), hdiv, hmod, digit_eq _ (Nat.mod_lt n (by decide)), hset, ih _ hlen, hdigits,
        List.length_cons, List.reverse_cons, Nat.add_sub_add_right, List.take_append_of_le_length (Nat.sub_le _ _)]
      simp only [digitText, List.map_append, List.map_cons, List.map_nil, List.append_assoc, List.singleton_append]

theorem textAt_append (front : List UInt8) (k : ℕ) {text : List UInt8} (htext : ∀ c ∈ text, c ≠ 0) :
    textAt (front ++ (text ++ List.replicate (k + 1) 0)) front.length = text := by
  rw [textAt, List.drop_left, List.takeWhile_append_of_pos (by simpa using htext), List.replicate_succ,
    List.takeWhile_cons_of_neg (by simp), List.append_nil]

theorem ofDecimal_eq {size n : ℕ} {negative : Bool} (hsize : n < 10 ^ (size - 2)) (hroom : 2 < size)
    (hsign : negative = true → n ≠ 0) :
    ofDecimal t size negative n = .ok ((signText negative ++ numeralText 10 n).map t.ofChar) := by
  rw [ofDecimal]
  by_cases hn : n = 0
  · have hplus : negative = false := Bool.eq_false_iff.mpr fun h => hsign h hn
    have hbuf : (List.replicate size (0 : UInt8)).set (size - 2) (ascii '0') =
        List.replicate (size - 2) 0 ++ (chars "0" ++ List.replicate 1 0) := by
      have hsplit : List.replicate size (0 : UInt8) = List.replicate (size - 2) 0 ++ List.replicate 2 0 := by
        rw [List.replicate_append_replicate, Nat.sub_add_cancel hroom.le]
      rw [hsplit, List.set_append_right _ _ List.length_replicate.le, List.length_replicate, Nat.sub_self]
      rfl
    have hzero : ∀ c ∈ chars "0", c ≠ 0 := by
      intro c hc
      rw [List.mem_singleton.mp hc]
      decide
    have htext := textAt_append (List.replicate (size - 2) 0) 0 hzero
    rw [List.length_replicate] at htext
    rw [hn, if_pos Nat.cast_zero, hplus, hbuf, htext, assign_nil]
    rfl
  · have hlen : (Nat.digits 10 n).length ≤ size - 2 := (Nat.digits_length_le_iff (by decide) n).mpr hsize
    have hnul : ∀ c ∈ numeralText 10 n, c ≠ 0 := numeralText_nul (by decide) (by decide)
    have hsplit : List.replicate size (0 : UInt8) = List.replicate (size - 1) 0 ++ List.replicate 1 0 := by
      rw [List.replicate_append_replicate, Nat.sub_add_cancel (by omega)]
    have hfill := fillDigits_eq (n := n) (List.replicate (size - 1) 0) (List.replicate 1 0)
      (by rw [List.length_replicate]; omega)
    obtain ⟨j, hj⟩ : ∃ j, size - 1 - (Nat.digits 10 n).length = j + 1 := ⟨size - 2 - (Nat.digits 10 n).length, by omega⟩
    rw [List.length_replicate, hj, List.take_replicate, Nat.min_eq_left (by omega), ← numeral_pos hn] at hfill
    rw [if_neg (by exact_mod_cast hn), hsplit, hfill]
    simp only [Nat.add_sub_cancel, assign_nil]
    cases negative with
    | false =>
      have htext := textAt_append (List.replicate (j + 1) 0) 0 hnul
      rw [List.length_replicate] at htext
      exact congrArg (fun text => Except.ok (text.map t.ofChar)) htext
    | true =>
      have hset : (List.replicate (j + 1) (0 : UInt8) ++ (digitText (numeral 10 n) ++ List.replicate 1 0)).set j (ascii '-') =
          List.replicate j 0 ++ (chars "-" ++ numeralText 10 n ++ List.replicate 1 0) := by
        rw [List.replicate_succ', List.append_assoc, List.set_append_right _ _ List.length_replicate.le,
          List.length_replicate, Nat.sub_self]
        rfl
      have hminus : ∀ c ∈ chars "-" ++ numeralText 10 n, c ≠ 0 := by
        intro c hc
        rcases List.mem_append.mp hc with hc | hc
        · rw [List.mem_singleton.mp hc]
          decide
        · exact hnul c hc
      have htext := textAt_append (List.replicate j 0) 0 hminus
      rw [List.length_replicate] at htext
      rw [if_pos rfl, if_neg (Nat.succ_ne_zero j), hset, htext]
      rfl

theorem ofU32_eq (t : CharType) (v : UInt32) : ofU32 t v = .ok ((numeralText 10 v.toNat).map t.ofChar) := by
  have hlt := v.toNat_lt
  exact ofDecimal_eq (by omega) (by decide) (fun h => absurd h Bool.false_ne_true)

theorem ofU64_eq (t : CharType) (v : UInt64) : ofU64 t v = .ok ((numeralText 10 v.toNat).map t.ofChar) := by
  have hlt := v.toNat_lt
  exact ofDecimal_eq (by omega) (by decide) (fun h => absurd h Bool.false_ne_true)

/-- The text of an integer. -/
def integerText (z : ℤ) : List UInt8 := signText (z < 0) ++ numeralText 10 z.natAbs

/-- The signed constructors, where the negation does not overflow. -/
theorem ofDecimal_signed {size : ℕ} {z : ℤ} (hsize : z.natAbs < 10 ^ (size - 2)) (hroom : 2 < size) :
    (if z < 0 then ofDecimal t size true (-z) else ofDecimal t size false z) = .ok ((integerText z).map t.ofChar) := by
  rw [integerText]
  by_cases hz : z < 0
  · have habs : -z = (z.natAbs : ℤ) := by omega
    rw [if_pos hz, habs, decide_eq_true hz]
    exact ofDecimal_eq hsize hroom (fun _ => by omega)
  · have habs : ofDecimal t size false z = ofDecimal t size false z.natAbs := by
      congr 1
      omega
    rw [if_neg hz, habs, decide_eq_false hz]
    exact ofDecimal_eq hsize hroom (fun h => absurd h Bool.false_ne_true)

theorem ofS32_eq (t : CharType) {v : Int32} (h : v ≠ Int32.minValue) :
    ofS32 t v = .ok ((integerText v.toInt).map t.ofChar) := by
  have hle := v.le_toInt
  have hlt := v.toInt_lt
  have hne : v.toInt ≠ -2 ^ 31 := fun heq => h (Int32.toInt_inj.mp (heq.trans Int32.toInt_minValue.symm))
  have hneg : (0 - v).toInt = -v.toInt := by
    rw [Int32.toInt_sub, Int32.toInt_zero, zero_sub]
    exact Int.bmod_eq_of_le (by omega) (by omega)
  have hsize : v.toInt.natAbs < 10 ^ (16 - 2) := by omega
  rw [ofS32, hneg, ← ofDecimal_signed hsize (by decide)]
  simp only [Int32.lt_iff_toInt_lt, Int32.toInt_zero]

theorem ofS64_eq (t : CharType) {v : Int64} (h : v ≠ Int64.minValue) :
    ofS64 t v = .ok ((integerText v.toInt).map t.ofChar) := by
  have hle := v.le_toInt
  have hlt := v.toInt_lt
  have hne : v.toInt ≠ -2 ^ 63 := fun heq => h (Int64.toInt_inj.mp (heq.trans Int64.toInt_minValue.symm))
  have hneg : (0 - v).toInt = -v.toInt := by
    rw [Int64.toInt_sub, Int64.toInt_zero, zero_sub]
    exact Int.bmod_eq_of_le (by omega) (by omega)
  have hsize : v.toInt.natAbs < 10 ^ (32 - 2) := by omega
  rw [ofS64, hneg, ← ofDecimal_signed hsize (by decide)]
  simp only [Int64.lt_iff_toInt_lt, Int64.toInt_zero]

/-- The negation of the least value overflows, and the remainders that become digits are negative. -/
theorem ofS32_minValue (t : CharType) : ofS32 t Int32.minValue = .ok ((chars "-./,),(-*,(").map t.ofChar) := by
  have hfill : fillDigits 15 (-2147483648) (List.replicate 16 0) =
      (5, List.replicate 5 0 ++ (chars "./,),(-*,(" ++ [0])) := by decide
  have hval : (0 - Int32.minValue).toInt = -2147483648 := by decide
  rw [ofS32, if_pos (by decide), hval, ofDecimal, if_neg (by decide), hfill]
  simp only [assign_nil]
  rfl

theorem ofS64_minValue (t : CharType) :
    ofS64 t Int64.minValue = .ok ((chars "-'..--).0-*(+,))+(0(").map t.ofChar) := by
  have hfill : fillDigits 31 (-9223372036854775808) (List.replicate 32 0) =
      (12, List.replicate 12 0 ++ (chars "'..--).0-*(+,))+(0(" ++ [0])) := by decide
  have hval : (0 - Int64.minValue).toInt = -9223372036854775808 := by decide
  rw [ofS64, if_pos (by decide), hval, ofDecimal, if_neg (by decide), hfill]
  simp only [assign_nil]
  rfl

end Decimals

section Radix
variable {t : CharType}

theorem foldl_appendDigit (ds : List UInt8) (str : List t.ValueType) :
    (ds.map t.ofChar).foldl (appendDigit t) (false, str) = (false, str ++ ds.map t.ofChar) := by
  induction ds generalizing str with
  | nil => rw [List.map_nil, List.foldl_nil, List.append_nil]
  | cons d ds ih =>
    rw [List.map_cons, List.foldl_cons, appendDigit, if_neg (fun h => absurd h.1 Bool.false_ne_true), ih,
      List.append_assoc, List.singleton_append]

/-- The loops over the digits drop the zeros at the front. -/
theorem foldl_appendDigit_zeros (ds : List UInt8) :
    ((ds.map t.ofChar).foldl (appendDigit t) (true, [])).2 = (ds.dropWhile (· = ascii '0')).map t.ofChar := by
  induction ds with
  | nil => rfl
  | cons d ds ih =>
    rw [List.map_cons, List.foldl_cons, appendDigit, List.dropWhile_cons]
    by_cases hd : d = ascii '0'
    · rw [if_pos ⟨rfl, by rw [hd]⟩, if_pos (decide_eq_true hd), ih]
    · rw [if_neg (fun h => hd (t.ofChar_injective h.2)), if_neg (by simpa using hd), List.nil_append,
        foldl_appendDigit, List.map_cons, List.singleton_append]

theorem dropWhile_digitText {ds : List ℕ} (h : ∀ d ∈ ds, d < 16) :
    (digitText ds).dropWhile (· = ascii '0') = digitText (ds.dropWhile (· = 0)) := by
  induction ds with
  | nil => rfl
  | cons d ds ih =>
    rw [List.forall_mem_cons] at h
    have hzero := digit_zero_iff d h.1
    rw [digitText, List.map_cons, List.dropWhile_cons, List.dropWhile_cons]
    by_cases hd : d = 0
    · rw [if_pos (decide_eq_true (hzero.mpr hd)), if_pos (decide_eq_true hd)]
      exact ih h.2
    · rw [if_neg (by simpa using hzero.not.mpr hd), if_neg (by simpa using hd)]
      rfl

/-- The digits that shifts and masks give are the digits of the numeral. -/
theorem ofRadix_eq (t : CharType) (bits count : ℕ) {v : ℕ} (hbits : 0 < bits) (hle : 2 ^ bits ≤ 16)
    (hv : v < (2 ^ bits) ^ count) : ofRadix t (bits * count) bits count v = (numeralText (2 ^ bits) v).map t.ofChar := by
  have hbase : 1 < 2 ^ bits := Nat.one_lt_two_pow hbits.ne'
  have hdigits : (List.range count).map (fun i =>
      t.ofChar (hextable.getD ((v >>> (bits * count - bits * (i + 1))) &&& (2 ^ bits - 1)) 0)) =
        (digitText (fixedDigits (2 ^ bits) count v)).map t.ofChar := by
    simp only [digitText, fixedDigits, List.map_map]
    refine List.map_congr_left fun i _ => ?_
    simp only [Function.comp_apply]
    rw [Nat.and_two_pow_sub_one_eq_mod, Nat.shiftRight_eq_div_pow, ← Nat.mul_sub, pow_mul]
  have hlt : ∀ d ∈ fixedDigits (2 ^ bits) count v, d < 16 := by
    intro d hd
    obtain ⟨i, -, rfl⟩ := List.mem_map.mp hd
    exact (Nat.mod_lt _ (by omega)).trans_le hle
  rw [ofRadix, hdigits, foldl_appendDigit_zeros, dropWhile_digitText hlt]
  by_cases h : v = 0
  · have hnone : (fixedDigits (2 ^ bits) count 0).dropWhile (· = 0) = [] := by
      rw [fixedDigits_eq hbase (by positivity), Nat.digits_zero, List.reverse_nil, List.append_nil,
        List.dropWhile_replicate, if_pos (by decide)]
    have hempty : (digitText []).map t.ofChar = [] := rfl
    rw [h, hnone, if_pos hempty, numeralText, numeral_zero]
    rfl
  · have hne : ¬ (numeralText (2 ^ bits) v).map t.ofChar = [] := by
      rw [List.map_eq_nil_iff, numeralText, digitText, List.map_eq_nil_iff]
      exact numeral_ne_nil
    rw [dropWhile_fixedDigits hbase h hv, ← numeralText, if_neg hne]

/-- The hexadecimal text for a specifier, with small letters or with capital ones. -/
def hexNumeral (c : UInt8) (n : ℕ) : List UInt8 :=
  if c = ascii 'X' then (numeralText 16 n).map fun d => if ascii 'a' ≤ d ∧ d ≤ ascii 'z' then d - 32 else d
  else numeralText 16 n

theorem make_upper_map (t : CharType) (s : List UInt8) :
    t.make_upper (s.map t.ofChar) = (s.map fun d => if ascii 'a' ≤ d ∧ d ≤ ascii 'z' then d - 32 else d).map t.ofChar := by
  rw [CharType.make_upper, List.map_map, List.map_map]
  refine List.map_congr_left fun d _ => ?_
  simp only [Function.comp_apply, CharType.upper, t.narrow_ofChar]
  split <;> rfl

theorem hexText_eq (t : CharType) (c : UInt8) (count : ℕ) {v : ℕ} (hv : v < 16 ^ count) :
    hexText t (4 * count) count c v = (hexNumeral c v).map t.ofChar := by
  have hradix : ofRadix t (4 * count) 4 count v = (numeralText 16 v).map t.ofChar :=
    ofRadix_eq t 4 count (by decide) (by decide) hv
  rw [hexText, hexNumeral, hradix, make_upper_map]
  split <;> rfl

/-- The text of a number for a specifier, except for the least values of the signed types. -/
def Number.text (c : UInt8) : Number → List UInt8
  | .s32 v => if v = Int32.minValue then chars "-./,),(-*,(" else integerText v.toInt
  | .s64 v => if v = Int64.minValue then chars "-'..--).0-*(+,))+(0(" else integerText v.toInt
  | .u32 v => if isHex c then hexNumeral c v.toNat else if isOct c then numeralText 8 v.toNat else numeralText 10 v.toNat
  | .u64 v => if isHex c then hexNumeral c v.toNat else if isOct c then numeralText 8 v.toNat else numeralText 10 v.toNat
  | .f64 v => v.sprintf

/-- Whether the text of a number fits into the buffer of its constructor. -/
def Number.Fits : Number → Prop
  | .f64 v => v.sprintf.length < 128
  | _ => True

theorem Number.valstr_eq (t : CharType) (c : UInt8) {number : Number} (h : number.Fits) :
    number.valstr t c = .ok ((number.text c).map t.ofChar) := by
  cases number with
  | s32 v =>
    rw [Number.valstr, Number.text]
    split
    next hmin => rw [hmin, ofS32_minValue]
    next hmin => exact ofS32_eq t hmin
  | s64 v =>
    rw [Number.valstr, Number.text]
    split
    next hmin => rw [hmin, ofS64_minValue]
    next hmin => exact ofS64_eq t hmin
  | u32 v =>
    have hlt := v.toNat_lt
    have hhex : hexText t 32 8 c v.toNat = (hexNumeral c v.toNat).map t.ofChar := hexText_eq t c 8 (by omega)
    have hoct : ofRadix t 33 3 11 v.toNat = (numeralText 8 v.toNat).map t.ofChar :=
      ofRadix_eq t 3 11 (by decide) (by decide) (by omega)
    rw [Number.valstr, Number.text, hhex, hoct, ofU32_eq]
    split
    · rfl
    · split <;> rfl
  | u64 v =>
    have hlt := v.toNat_lt
    have hhex : hexText t 64 16 c v.toNat = (hexNumeral c v.toNat).map t.ofChar := hexText_eq t c 16 (by omega)
    have hoct : ofRadix t 66 3 22 v.toNat = (numeralText 8 v.toNat).map t.ofChar :=
      ofRadix_eq t 3 22 (by decide) (by decide) (by omega)
    rw [Number.valstr, Number.text, hhex, hoct, ofU64_eq]
    split
    · rfl
    · split <;> rfl
  | f64 v =>
    rw [Number.valstr, ofF64, assign_nil]
    exact if_pos h

/-- A number that does not fit is the same error for every type of characters. -/
theorem Number.valstr_error (t : CharType) (c : UInt8) {number : Number} (h : ¬ number.Fits) :
    number.valstr t c = .error .bufferBounds := by
  cases number with
  | f64 v =>
    rw [Number.valstr, ofF64]
    exact if_neg h
  | s32 v => exact absurd trivial h
  | u32 v => exact absurd trivial h
  | s64 v => exact absurd trivial h
  | u64 v => exact absurd trivial h

end Radix

section Zeros
variable {b n : ℕ}

/-- A numeral other than the one of zero starts with another digit. -/
theorem numeralText_head (hb : 1 < b) (hb' : b ≤ 16) (h : n ≠ 0) :
    ∃ d rest, numeralText b n = hextable.getD d 0 :: rest ∧ d < 16 ∧ d ≠ 0 := by
  obtain ⟨d, rest, hnum, hd⟩ := numeral_head (b := b) h
  have hlt : d < b := numeral_lt hb (hnum ▸ List.mem_cons_self)
  exact ⟨d, digitText rest, by rw [numeralText, hnum]; rfl, hlt.trans_le hb', hd⟩

/-- The text starts with the character `0`. -/
def zeroHead (s : List UInt8) : Prop := s.head? = some (ascii '0')

theorem zeroHead_numeralText (hb : 1 < b) (hb' : b ≤ 16) : zeroHead (numeralText b n) ↔ n = 0 := by
  by_cases h : n = 0
  · rw [h, numeralText, numeral_zero]
    exact iff_of_true rfl rfl
  · obtain ⟨d, rest, htext, hlt, hd⟩ := numeralText_head hb hb' h
    rw [zeroHead, htext, List.head?_cons, Option.some.injEq, digit_zero_iff d hlt]
    exact iff_of_false hd h

theorem zeroHead_hexNumeral (c : UInt8) : zeroHead (hexNumeral c n) ↔ n = 0 := by
  have hupper : ∀ d < 16, (if ascii 'a' ≤ hextable.getD d 0 ∧ hextable.getD d 0 ≤ ascii 'z' then hextable.getD d 0 - 32
      else hextable.getD d 0) = ascii '0' ↔ d = 0 := by decide
  rw [hexNumeral]
  split
  · by_cases h : n = 0
    · rw [h, numeralText, numeral_zero]
      exact iff_of_true rfl rfl
    · obtain ⟨d, rest, htext, hlt, hd⟩ := numeralText_head (b := 16) (by decide) le_rfl h
      rw [zeroHead, htext, List.map_cons, List.head?_cons, Option.some.injEq, hupper d hlt]
      exact iff_of_false hd h
  · exact zeroHead_numeralText (by decide) le_rfl

theorem zeroHead_integerText (z : ℤ) : zeroHead (integerText z) ↔ z = 0 := by
  rw [integerText]
  by_cases hz : z < 0
  · rw [decide_eq_true hz]
    refine iff_of_false (fun h => ?_) hz.ne
    have hminus : ascii '-' = ascii '0' := Option.some.inj h
    exact absurd hminus (by decide)
  · rw [decide_eq_false hz]
    exact (zeroHead_numeralText (by decide) (by decide)).trans Int.natAbs_eq_zero

/-- The number is a zero of one of the integer types. -/
def Number.Zero : Number → Prop
  | .s32 v => v = 0
  | .u32 v => v = 0
  | .s64 v => v = 0
  | .u64 v => v = 0
  | .f64 _ => False

theorem Number.zeroHead_text (c : UInt8) {number : Number} (hint : ∀ v, number ≠ .f64 v) :
    zeroHead (number.text c) ↔ number.Zero := by
  cases number with
  | s32 v =>
    rw [Number.text, Number.Zero]
    split
    next hmin =>
      rw [hmin]
      exact iff_of_false (by rw [zeroHead]; decide) (by decide)
    next hmin =>
      rw [zeroHead_integerText, ← Int32.toInt_zero, Int32.toInt_inj]
  | s64 v =>
    rw [Number.text, Number.Zero]
    split
    next hmin =>
      rw [hmin]
      exact iff_of_false (by rw [zeroHead]; decide) (by decide)
    next hmin =>
      rw [zeroHead_integerText, ← Int64.toInt_zero, Int64.toInt_inj]
  | u32 v =>
    have hzero : v.toNat = 0 ↔ v = 0 := by
      rw [← UInt32.toNat_inj]
      rfl
    rw [Number.text, Number.Zero, ← hzero]
    split
    · exact zeroHead_hexNumeral c
    · split <;> exact zeroHead_numeralText (by decide) (by decide)
  | u64 v =>
    have hzero : v.toNat = 0 ↔ v = 0 := by
      rw [← UInt64.toNat_inj]
      rfl
    rw [Number.text, Number.Zero, ← hzero]
    split
    · exact zeroHead_hexNumeral c
    · split <;> exact zeroHead_numeralText (by decide) (by decide)
  | f64 v => exact absurd rfl (hint v)

theorem Number.text_zero (c : UInt8) {number : Number} (h : number.Zero) : number.text c = chars "0" := by
  have hhex : hexNumeral c 0 = chars "0" := by
    rw [hexNumeral]
    split <;> decide
  cases number with
  | s32 v =>
    rw [show v = 0 from h, Number.text]
    decide
  | s64 v =>
    rw [show v = 0 from h, Number.text]
    decide
  | u32 v =>
    rw [show v = 0 from h, Number.text]
    split
    · exact hhex
    · split <;> decide
  | u64 v =>
    rw [show v = 0 from h, Number.text]
    split
    · exact hhex
    · split <;> decide
  | f64 v => exact absurd h id

end Zeros
end LibXpf.Xpfstring
