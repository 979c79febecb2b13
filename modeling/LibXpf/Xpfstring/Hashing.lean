import LibXpf.Xpfstring.Numerals

/-! # The hash of a string

`hash` takes its first value from the first character and moves on, and then takes in as
many characters as the range has. So it takes in the character behind the range, too, which
is the null only if the range goes up to the end.
-/
namespace LibXpf.Xpfstring

section Hash
variable (t : CharType)

/-- A character as a `u32`. A `char` extends its sign, and the other types are unsigned or of 32 bits. -/
def CharType.toU32 (ch : t.ValueType) : UInt32 :=
  UInt32.ofBitVec (if t = .c8 then ch.signExtend 32 else ch.setWidth 32)

def hashStep (hashVal : UInt32) (ch : t.ValueType) : UInt32 := hashVal * (38 : UInt32) + (hashVal >>> (24 : UInt32)) + t.toU32 ch

/-- The loop, which reads one character in each of its rounds. -/
def hashLoop (c_str : List t.ValueType) : (count curCh : ℕ) → (hashVal : UInt32) → Option UInt32
  | 0, _, hashVal => some hashVal
  | count + 1, curCh, hashVal => do
    let ch ← c_str[curCh]?
    hashLoop c_str count (curCh + 1) (hashStep t hashVal ch)

/-- The hash, or `none` if it reads outside of the string or divides by zero. -/
def hash (str : List t.ValueType) (modulus : UInt32) (len offset : Int32) : Option UInt32 :=
  let ulen := if len < 0 then LibXpf.u32 str.length else len.toInt.toNat
  let uoff := if offset < 0 then 0 else offset.toInt.toNat
  if LibXpf.u32 (uoff + ulen) > str.length then some 0
  else do
    let c_str := str ++ [0]
    let ch ← c_str[uoff]?
    let hashVal ← hashLoop t c_str ulen (uoff + 1) (t.toU32 ch)
    if modulus = 0 then none else some (hashVal % modulus)

end Hash

section Ranges
variable {t : CharType} {str : List t.ValueType} {modulus : UInt32} {len offset : Int32}

/-- The part of a string, where the position is not behind the end. -/
def range (str : List t.ValueType) (offset len : ℕ) : List t.ValueType := (str.drop offset).take len

/-- What the characters of a range make of the hash, before the last one is added. -/
def rangeHash (t : CharType) (chs : List t.ValueType) : UInt32 :=
  let hashVal := chs.foldl (hashStep t) 0
  hashVal * (38 : UInt32) + (hashVal >>> (24 : UInt32))

theorem hashLoop_eq {c_str : List t.ValueType} {count curCh : ℕ} (h : curCh + count ≤ c_str.length) (hashVal : UInt32) :
    hashLoop t c_str count curCh hashVal = some (((c_str.drop curCh).take count).foldl (hashStep t) hashVal) := by
  induction count generalizing curCh hashVal with
  | zero => rw [hashLoop, List.take_zero, List.foldl_nil]
  | succ count ih =>
    have hlt : curCh < c_str.length := by omega
    rw [hashLoop, List.getElem?_eq_getElem hlt, List.drop_eq_getElem_cons hlt, List.take_succ_cons, List.foldl_cons]
    exact ih (by omega) _

theorem toU32_first (ch : t.ValueType) : t.toU32 ch = hashStep t 0 ch := by
  rw [hashStep, UInt32.zero_mul, UInt32.zero_shiftRight, UInt32.add_zero, UInt32.zero_add]

/-- The first character and the loop take in a range and the character behind it. -/
theorem hash_reads {c_str : List t.ValueType} {ulen uoff : ℕ} (h : uoff + ulen < c_str.length) :
    ∃ ch, c_str[uoff]? = some ch ∧ hashLoop t c_str ulen (uoff + 1) (t.toU32 ch) =
      some (rangeHash t (range c_str uoff ulen) + t.toU32 c_str[uoff + ulen]) := by
  have hlt : uoff < c_str.length := by omega
  refine ⟨c_str[uoff], List.getElem?_eq_getElem hlt, ?_⟩
  have hlast : (c_str.drop uoff).take (ulen + 1) = range c_str uoff ulen ++ [c_str[uoff + ulen]] := by
    rw [List.take_add_one, List.getElem?_drop, List.getElem?_eq_getElem h]
    rfl
  have hall : (c_str[uoff] :: (c_str.drop (uoff + 1)).take ulen) = (c_str.drop uoff).take (ulen + 1) := by
    rw [List.drop_eq_getElem_cons hlt, List.take_succ_cons]
  rw [hashLoop_eq (by omega), toU32_first, ← List.foldl_cons, hall, hlast, List.foldl_append]
  rfl

/-- The hash of a range that is inside of the string, as the numbers of 32 bits have it. -/
theorem hash_eq {ulen uoff : ℕ} (hmodulus : modulus ≠ 0)
    (hulen : (if len < 0 then LibXpf.u32 str.length else len.toInt.toNat) = ulen)
    (huoff : (if offset < 0 then 0 else offset.toInt.toNat) = uoff) (hle : uoff + ulen ≤ str.length) (hlt : uoff + ulen < 2 ^ 32) :
    hash t str modulus len offset = some ((rangeHash t (range str uoff ulen) + t.toU32 (str.getD (uoff + ulen) 0)) % modulus) := by
  have hplace : uoff + ulen < (str ++ [0]).length := by
    rw [List.length_append, List.length_singleton]
    omega
  obtain ⟨ch, hget, hloop⟩ := hash_reads (t := t) hplace
  have hrange : range (str ++ [0]) uoff ulen = range str uoff ulen := by
    rw [range, List.drop_append_of_le_length (by omega), List.take_append_of_le_length (by rw [List.length_drop]; omega)]
    rfl
  have hnext : (str ++ [0])[uoff + ulen] = str.getD (uoff + ulen) 0 := by
    rw [List.getElem_append]
    split
    next h => exact (List.getD_eq_getElem str 0 h).symm
    next h =>
      rw [List.getD_eq_default str 0 (Nat.not_lt.mp h)]
      exact List.getElem_singleton _
  rw [hash, hulen, huoff, u32_of_lt hlt, if_neg (Nat.not_lt.mpr hle)]
  simp only [Option.bind_eq_bind, Option.bind_some, hget, hloop, if_neg hmodulus, hrange, hnext]

/-- The strings with the same range, which may also differ in their lengths. -/
def SameRange (fixed : Bool) (str str' : List t.ValueType) (offset len : ℕ) : Prop :=
  (fixed = true → str'.length = str.length) ∧ offset + len ≤ str'.length ∧ range str' offset len = range str offset len

/-- The hash of the range is the one of the part of the string, and of every string that has the same range. -/
structure HashesRange (t : CharType) (fixed : Bool) (str : List t.ValueType) (modulus : UInt32) (len offset : Int32) : Prop where
  substr : hash t str modulus len offset = hash t (range str offset.toInt.toNat len.toInt.toNat) modulus (-1) 0
  keeps : ∀ str', SameRange fixed str str' offset.toInt.toNat len.toInt.toNat →
    hash t str' modulus len offset = hash t str modulus len offset

/-- Adding one and two to a number makes no difference for the modulus one only. -/
theorem modulus_one {n : UInt32} (hone : (n + 1) % modulus = n % modulus) (htwo : (n + 2) % modulus = n % modulus) :
    modulus = 1 := by
  have hone' := congrArg UInt32.toNat hone
  have htwo' := congrArg UInt32.toNat htwo
  have hlt := n.toNat_lt
  rw [UInt32.toNat_mod, UInt32.toNat_mod, UInt32.toNat_add] at hone' htwo'
  have hdvd : 1 % modulus.toNat = 0 := by
    by_cases hwrap : n.toNat + 1 < 2 ^ 32
    · rw [show (n.toNat + UInt32.toNat 1) % 2 ^ 32 = n.toNat + 1 from Nat.mod_eq_of_lt hwrap] at hone'
      have hsub := Nat.sub_mod_eq_zero_of_mod_eq hone'
      rwa [Nat.add_sub_cancel_left] at hsub
    · have hmax : n.toNat = 2 ^ 32 - 1 := by omega
      rw [hmax] at hone' htwo'
      exact htwo'.trans (hone'.symm.trans (Nat.zero_mod _))
  rw [← UInt32.toNat_inj]
  exact Nat.dvd_one.mp (Nat.dvd_of_mod_eq_zero hdvd)

theorem toU32_units (t : CharType) : t.toU32 0 = 0 ∧ t.toU32 1 = 1 ∧ t.toU32 2 = 2 := by
  rcases t with _ | _ | _ | (_ | _) <;> decide

/-- What the parameters of a range say about its place. -/
structure Inside (str : List t.ValueType) (modulus : UInt32) (len offset : Int32) : Prop where
  modulus_pos : 0 < modulus
  len_nonneg : 0 ≤ len
  offset_nonneg : 0 ≤ offset
  bound : offset.toInt.toNat + len.toInt.toNat ≤ str.length

theorem Inside.modulus_ne (h : Inside str modulus len offset) : modulus ≠ 0 := by
  rintro rfl
  exact absurd h.modulus_pos (by decide)

theorem Inside.hash_range (h : Inside str modulus len offset) :
    hash t str modulus len offset =
      some ((rangeHash t (range str offset.toInt.toNat len.toInt.toNat) +
        t.toU32 (str.getD (offset.toInt.toNat + len.toInt.toNat) 0)) % modulus) := by
  have hlen := len.toInt_lt
  have hoffset := offset.toInt_lt
  have hplus : ∀ v : Int32, 0 ≤ v → ¬ v < 0 := fun v hv => Int32.not_lt.mpr hv
  exact hash_eq h.modulus_ne (if_neg (hplus len h.len_nonneg)) (if_neg (hplus offset h.offset_nonneg)) h.bound (by omega)

/-- The part of the string ends with a null. -/
theorem Inside.hash_substr (h : Inside str modulus len offset) :
    hash t (range str offset.toInt.toNat len.toInt.toNat) modulus (-1) 0 =
      some (rangeHash t (range str offset.toInt.toNat len.toInt.toNat) % modulus) := by
  have hlen := len.toInt_lt
  have hbound := h.bound
  let part := range str offset.toInt.toNat len.toInt.toNat
  have hsize : part.length = len.toInt.toNat := by
    rw [show part = (str.drop offset.toInt.toNat).take len.toInt.toNat from rfl, List.length_take, List.length_drop]
    omega
  have hulen : (if (-1 : Int32) < 0 then LibXpf.u32 part.length else (-1 : Int32).toInt.toNat) = part.length :=
    u32_of_lt (by omega)
  have huoff : (if (0 : Int32) < 0 then 0 else (0 : Int32).toInt.toNat) = 0 := rfl
  have hwhole : range part 0 part.length = part := by rw [range, List.drop_zero, List.take_length]
  have hnull : part.getD (0 + part.length) 0 = 0 := List.getD_eq_default _ _ (Nat.le_add_left _ _)
  rw [hash_eq h.modulus_ne hulen huoff (Nat.zero_add _).le (by omega), hwhole, hnull, (toU32_units t).1,
    UInt32.add_zero]

theorem sameRange_next {fixed : Bool} {o n : ℕ} (hle : o + n ≤ str.length) (hfixed : fixed = true → o + n < str.length)
    (ch : t.ValueType) : ∃ str', SameRange fixed str str' o n ∧ str'.getD (o + n) 0 = ch := by
  have hlen : (str.take (o + n)).length = o + n := by rw [List.length_take, Nat.min_eq_left hle]
  refine ⟨str.take (o + n) ++ ch :: str.drop (o + n + 1), ⟨?_, ?_, ?_⟩, ?_⟩
  · intro h
    have := hfixed h
    rw [List.length_append, hlen, List.length_cons, List.length_drop]
    omega
  · rw [List.length_append, hlen]
    exact Nat.le_add_right _ _
  · rw [range, List.drop_append_of_le_length (by omega), List.take_append_of_le_length (by rw [List.length_drop]; omega),
      List.drop_take, List.take_take, Nat.add_sub_cancel_left, Nat.min_self]
    rfl
  · rw [List.getD_eq_getElem?_getD, List.getElem?_append_right hlen.le, hlen, Nat.sub_self]
    rfl

theorem Inside.modulus_eq {fixed : Bool} (h : Inside str modulus len offset)
    (hfixed : fixed = true → offset.toInt.toNat + len.toInt.toNat < str.length)
    (hhash : HashesRange t fixed str modulus len offset) : modulus = 1 := by
  have hnext : ∀ ch, (rangeHash t (range str offset.toInt.toNat len.toInt.toNat) + t.toU32 ch) % modulus =
      rangeHash t (range str offset.toInt.toNat len.toInt.toNat) % modulus := by
    intro ch
    obtain ⟨str', hsame, hch⟩ := sameRange_next h.bound hfixed ch
    have h' : Inside str' modulus len offset := ⟨h.modulus_pos, h.len_nonneg, h.offset_nonneg, hsame.2.1⟩
    have hkeep := hhash.keeps str' hsame
    rw [hhash.substr, h.hash_substr, h'.hash_range, hch, hsame.2.2] at hkeep
    exact Option.some.inj hkeep
  obtain ⟨-, hone, htwo⟩ := toU32_units t
  exact modulus_one (hone ▸ hnext 1) (htwo ▸ hnext 2)

theorem Inside.hashesRange {fixed : Bool} (h : Inside str modulus len offset)
    (hnext : ∀ str', SameRange fixed str str' offset.toInt.toNat len.toInt.toNat →
      (rangeHash t (range str offset.toInt.toNat len.toInt.toNat) +
        t.toU32 (str'.getD (offset.toInt.toNat + len.toInt.toNat) 0)) % modulus =
      rangeHash t (range str offset.toInt.toNat len.toInt.toNat) % modulus) :
    HashesRange t fixed str modulus len offset := by
  have hself := hnext str ⟨fun _ => rfl, h.bound, rfl⟩
  refine ⟨?_, fun str' hsame => ?_⟩
  · rw [h.hash_range, h.hash_substr, hself]
  · have h' : Inside str' modulus len offset := ⟨h.modulus_pos, h.len_nonneg, h.offset_nonneg, hsame.2.1⟩
    rw [h.hash_range, h'.hash_range, hsame.2.2, hself, hnext str' hsame]

/-- The hash is one of the range exactly if the range goes up to the end, or for the modulus one. Where the string may
grow or shrink behind the range, only the modulus one is left. -/
theorem hashesRange_iff (t : CharType) (str : List t.ValueType) (modulus : UInt32) (len offset : Int32)
    (h : Inside str modulus len offset) :
    (HashesRange t true str modulus len offset ↔
        offset.toInt.toNat + len.toInt.toNat = str.length ∨ modulus = 1) ∧
      (HashesRange t false str modulus len offset ↔ modulus = 1) := by
  have hone : ∀ fixed, modulus = 1 → HashesRange t fixed str modulus len offset := by
    rintro fixed rfl
    exact h.hashesRange fun str' _ => by rw [UInt32.mod_one, UInt32.mod_one]
  refine ⟨⟨fun hhash => ?_, ?_⟩, h.modulus_eq (fun hfixed => absurd hfixed Bool.false_ne_true), hone false⟩
  · have hbound := h.bound
    refine (Nat.lt_or_eq_of_le hbound).elim (fun hlt => .inr (h.modulus_eq (fun _ => hlt) hhash)) .inl
  · rintro (hend | rfl)
    · refine h.hashesRange fun str' hsame => ?_
      have hnull : str'.getD (offset.toInt.toNat + len.toInt.toNat) 0 = 0 :=
        List.getD_eq_default _ _ (by rw [hsame.1 rfl, hend])
      rw [hnull, (toU32_units t).1, UInt32.add_zero]
    · exact hone true rfl

theorem hashesRange_iff_suffix : HashesRange .c8 true ((chars "abc").map CharType.c8.ofChar) 10993 2 1 :=
  (hashesRange_iff .c8 _ 10993 2 1 ⟨by decide, by decide, by decide, by decide⟩).1.mpr (.inl (by decide))

/-- The hash of the range "a" of the string "ab" takes in the second character. -/
theorem not_hashesRange : ¬ HashesRange .c8 true ((chars "ab").map CharType.c8.ofChar) 10993 1 0 := by
  intro h
  exact absurd h.substr (by decide)

end Ranges
end LibXpf.Xpfstring
