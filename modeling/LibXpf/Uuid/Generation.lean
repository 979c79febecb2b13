import LibXpf.Foundation.Fibers
import LibXpf.Uuid.TextForm

/-! # Generating UUIDs

Eight values of `rand()` fill two octets each. They are taken to have fifteen bits, so
that the highest bit of the pair is zero, and six bits of a ninth value are put there.
-/
namespace LibXpf.Uuid
open Fibers

section Generating

def octetAt (u : Uuid) (i : ℕ) : ℕ := (u.mOctet[i]?.getD 0).toNat

/-- `mOctet[i] = value`, of which the octet keeps the low eight bits. -/
def setOctet (u : Uuid) (i : ℕ) (value : ℕ) : Uuid := ⟨u.mOctet.setIfInBounds i (UInt8.ofNat value)⟩

/-- The value of `rand()` as a `u16`. -/
def u16 (value : ℕ) : ℕ := value % 2 ^ 16

/-- The body of the loop of `generate`. -/
def fillPair (rand : Fin 9 → ℕ) (u : Uuid) (i : Fin 8) : Uuid :=
  let r := u16 (rand i.castSucc)
  (u.setOctet (i * 2) (r >>> 8)).setOctet (i * 2 + 1) (r &&& 0xFF)

/-- `generate`, given the values that the nine calls of `rand()` return. -/
def generate (rand : Fin 9 → ℕ) : Uuid :=
  let u := (List.finRange 8).foldl (fillPair rand) null
  let r := u16 (rand 8)
  let u := u.setOctet 0 (u.octetAt 0 ||| (r &&& 0x1) <<< 7)
  let u := u.setOctet 2 (u.octetAt 2 ||| (r &&& 0x2) <<< 6)
  let u := u.setOctet 4 (u.octetAt 4 ||| (r &&& 0x4) <<< 5)
  let u := u.setOctet 6 (u.octetAt 6 &&& 0x0F ||| 0x40)
  let u := u.setOctet 8 (u.octetAt 8 &&& 0x3F ||| 0x80)
  let u := u.setOctet 10 (u.octetAt 10 ||| (r &&& 0x8) <<< 4)
  let u := u.setOctet 12 (u.octetAt 12 ||| (r &&& 0x10) <<< 3)
  u.setOctet 14 (u.octetAt 14 ||| (r &&& 0x20) <<< 2)

end Generating

section Pairs
variable {u v : Uuid} {i j : Fin 8} {rand : Fin 9 → ℕ}

/-- The two octets that are filled with one value. -/
def pair (u : Uuid) (i : Fin 8) : ℕ := 256 * u.octetAt (i * 2) + u.octetAt (i * 2 + 1)

theorem octetAt_lt (u : Uuid) (i : ℕ) : u.octetAt i < 256 := (u.mOctet[i]?.getD 0).toNat_lt

theorem octetAt_setOctet {k : ℕ} (hk : k < 16) (u : Uuid) (n value : ℕ) :
    (u.setOctet k value).octetAt n = if k = n then value % 256 else u.octetAt n := by
  simp only [octetAt, setOctet, Vector.getElem?_setIfInBounds, hk, if_true]
  split
  · exact UInt8.toNat_ofNat'
  · rfl

theorem pair_lt (u : Uuid) (i : Fin 8) : u.pair i < 2 ^ 16 := by
  have hhigh := u.octetAt_lt (i * 2)
  have hlow := u.octetAt_lt (i * 2 + 1)
  unfold pair
  omega

theorem octetAt_high (u : Uuid) (i : Fin 8) : u.octetAt (i * 2) = u.pair i / 256 := by
  have hlow := u.octetAt_lt (i * 2 + 1)
  unfold pair
  omega

theorem octetAt_low (u : Uuid) (i : Fin 8) : u.octetAt (i * 2 + 1) = u.pair i % 256 := by
  have hlow := u.octetAt_lt (i * 2 + 1)
  unfold pair
  omega

theorem pair_inj (h : ∀ i, u.pair i = v.pair i) : u = v := by
  apply uuid_ext
  intro k
  have hoctet : ∀ w : Uuid, w.octetAt k = w.mOctet[k].toNat := fun w => by simp [octetAt]
  apply UInt8.toNat_inj.mp
  rw [← hoctet, ← hoctet]
  have hcase : k.val = k.val / 2 * 2 ∨ k.val = k.val / 2 * 2 + 1 := by omega
  let i : Fin 8 := ⟨k / 2, by omega⟩
  rcases hcase with hk | hk
  · have hhigh : ∀ w : Uuid, w.octetAt k = w.pair i / 256 := fun w => by rw [hk]; exact w.octetAt_high i
    rw [hhigh, hhigh, h]
  · have hlow : ∀ w : Uuid, w.octetAt k = w.pair i % 256 := fun w => by rw [hk]; exact w.octetAt_low i
    rw [hlow, hlow, h]

theorem pair_setHigh (u : Uuid) (i j : Fin 8) (value : ℕ) :
    (u.setOctet (i * 2) value).pair j =
      if i = j then 256 * (value % 256) + u.pair j % 256 else u.pair j := by
  have hhigh : i.val * 2 = j.val * 2 ↔ i = j := by omega
  have hlow : i.val * 2 ≠ j.val * 2 + 1 := by omega
  simp only [pair, octetAt_setOctet (show i.val * 2 < 16 by omega), hhigh, if_neg hlow]
  split
  · have := u.octetAt_lt (j * 2 + 1)
    omega
  · rfl

theorem pair_fillPair (u : Uuid) (i j : Fin 8) :
    (fillPair rand u i).pair j = if i = j then u16 (rand j.castSucc) else u.pair j := by
  have hhigh : i.val * 2 = j.val * 2 ↔ i = j := by omega
  have hlow : i.val * 2 + 1 = j.val * 2 + 1 ↔ i = j := by omega
  have hne : i.val * 2 + 1 ≠ j.val * 2 := by omega
  have hne' : i.val * 2 ≠ j.val * 2 + 1 := by omega
  simp only [pair, fillPair, octetAt_setOctet (show i.val * 2 < 16 by omega),
    octetAt_setOctet (show i.val * 2 + 1 < 16 by omega), hhigh, hlow, if_neg hne, if_neg hne']
  split
  next heq =>
    subst heq
    have hland : u16 (rand i.castSucc) &&& 0xFF = u16 (rand i.castSucc) % 256 :=
      Nat.and_two_pow_sub_one_eq_mod _ 8
    have hlt : u16 (rand i.castSucc) < 2 ^ 16 := Nat.mod_lt _ (Nat.two_pow_pos 16)
    rw [hland, Nat.shiftRight_eq_div_pow]
    omega
  next => rfl

/-- The loop fills each pair it comes to with its value. -/
theorem pair_fill (is : List (Fin 8)) (u : Uuid) (j : Fin 8) :
    (is.foldl (fillPair rand) u).pair j = if j ∈ is then u16 (rand j.castSucc) else u.pair j := by
  induction is generalizing u with
  | nil => simp
  | cons i is ih =>
    rw [List.foldl_cons, ih, pair_fillPair]
    by_cases hmem : j ∈ is
    · simp [hmem]
    · by_cases heq : i = j
      · simp [heq]
      · simp [hmem, heq, Ne.symm heq]

/-- What becomes of the high octet `h` of a pair, with `r` the ninth value. -/
def finished (r : ℕ) (h : ℕ) (i : Fin 8) : ℕ :=
  match i with
  | 0 => h ||| (r &&& 0x1) <<< 7
  | 1 => h ||| (r &&& 0x2) <<< 6
  | 2 => h ||| (r &&& 0x4) <<< 5
  | 3 => h &&& 0x0F ||| 0x40
  | 4 => h &&& 0x3F ||| 0x80
  | 5 => h ||| (r &&& 0x8) <<< 4
  | 6 => h ||| (r &&& 0x10) <<< 3
  | 7 => h ||| (r &&& 0x20) <<< 2

def finishPair (r : ℕ) (u : Uuid) (i : Fin 8) : Uuid :=
  u.setOctet (i * 2) (finished r (u.octetAt (i * 2)) i)

theorem pair_finish (r : ℕ) {is : List (Fin 8)} (hnodup : is.Nodup) (u : Uuid) (j : Fin 8) :
    (is.foldl (finishPair r) u).pair j =
      if j ∈ is then 256 * (finished r (u.pair j / 256) j % 256) + u.pair j % 256 else u.pair j := by
  induction is generalizing u with
  | nil => simp
  | cons i is ih =>
    obtain ⟨hnot, hnodup⟩ := List.nodup_cons.mp hnodup
    rw [List.foldl_cons, ih hnodup, finishPair, pair_setHigh, octetAt_high]
    by_cases heq : i = j
    · subst heq
      simp [hnot]
    · simp [heq, Ne.symm heq]

/-- After the loop `generate` goes through the high octets. -/
theorem generate_eq (rand : Fin 9 → ℕ) :
    generate rand = (List.finRange 8).foldl (finishPair (u16 (rand 8)))
      ((List.finRange 8).foldl (fillPair rand) null) := rfl

theorem pair_generate (rand : Fin 9 → ℕ) (i : Fin 8) :
    (generate rand).pair i =
      256 * (finished (u16 (rand 8)) (u16 (rand i.castSucc) / 256) i % 256) + u16 (rand i.castSucc) % 256 := by
  rw [generate_eq, pair_finish _ (List.nodup_finRange 8), if_pos (List.mem_finRange i), pair_fill,
    if_pos (List.mem_finRange i)]

end Pairs

section Version
variable {u : Uuid}

/-- The marks of version 4 and of variant 1. -/
def IsVersion4 (u : Uuid) : Prop := u.octetAt 6 &&& 0xF0 = 0x40 ∧ u.octetAt 8 &&& 0xC0 = 0x80

instance (u : Uuid) : Decidable (IsVersion4 u) := inferInstanceAs (Decidable (_ ∧ _))

theorem version_mark : ∀ h < 256, (h &&& 0xF0 = 0x40 ↔ h / 16 = 4) ∧ (h &&& 0x0F ||| 0x40) = h % 16 + 64 := by
  decide +kernel

theorem variant_mark : ∀ h < 256, (h &&& 0xC0 = 0x80 ↔ h / 64 = 2) ∧ (h &&& 0x3F ||| 0x80) = h % 64 + 128 := by
  decide +kernel

theorem isVersion4_iff : IsVersion4 u ↔ u.pair 3 / 2 ^ 12 = 4 ∧ u.pair 4 / 2 ^ 14 = 2 := by
  have h6 : u.octetAt 6 = u.pair 3 / 256 := u.octetAt_high 3
  have h8 : u.octetAt 8 = u.pair 4 / 256 := u.octetAt_high 4
  rw [IsVersion4, (version_mark _ (u.octetAt_lt 6)).1, (variant_mark _ (u.octetAt_lt 8)).1, h6, h8]
  omega

theorem u16_lt (value : ℕ) : u16 value < 2 ^ 16 := Nat.mod_lt _ (Nat.two_pow_pos 16)

theorem pair_version (rand : Fin 9 → ℕ) : (generate rand).pair 3 = 2 ^ 14 + u16 (rand 3) % 2 ^ 12 := by
  have hlt := u16_lt (rand 3)
  have hmark := (version_mark (u16 (rand 3) / 256) (by omega)).2
  rw [pair_generate]
  change 256 * ((u16 (rand 3) / 256 &&& 0x0F ||| 0x40) % 256) + u16 (rand 3) % 256 = _
  rw [hmark]
  omega

theorem pair_variant (rand : Fin 9 → ℕ) : (generate rand).pair 4 = 2 ^ 15 + u16 (rand 4) % 2 ^ 14 := by
  have hlt := u16_lt (rand 4)
  have hmark := (variant_mark (u16 (rand 4) / 256) (by omega)).2
  rw [pair_generate]
  change 256 * ((u16 (rand 4) / 256 &&& 0x3F ||| 0x80) % 256) + u16 (rand 4) % 256 = _
  rw [hmark]
  omega

/-- Whatever `rand()` returns, the marks are there. -/
theorem isVersion4_generate (rand : Fin 9 → ℕ) : IsVersion4 (generate rand) := by
  rw [isVersion4_iff, pair_version, pair_variant]
  omega

end Version

section FifteenBits
variable {u : Uuid} {rand : Fin 9 → ℕ}

/-- The bit that goes into the hole of a pair, as a number. -/
def padding (r j : ℕ) : ℕ := r / 2 ^ j % 2

theorem or_padding {h r j : ℕ} (hh : h < 128) (hj : j ≤ 7) :
    h ||| (r &&& 2 ^ j) <<< (7 - j) = h + 128 * padding r j := by
  have hbit : (r &&& 2 ^ j) <<< (7 - j) = 128 * (r.testBit j).toNat := by
    rw [Nat.and_two_pow, Nat.shiftLeft_eq, Nat.mul_assoc, ← pow_add, Nat.add_sub_cancel' hj, Nat.mul_comm]
    norm_num
  have hset : ∀ h < 128, h ||| 128 = h + 128 := by decide +kernel
  rw [hbit, padding, ← Nat.toNat_testBit]
  cases r.testBit j
  · simp
  · exact hset h hh

/-- The pairs with a hole, and the bits of the ninth value that go there. -/
theorem pair_padded (hrand : ∀ i, rand i < 2 ^ 15) {i : Fin 8} {j : ℕ} (hj : j ≤ 7)
    (hfinished : ∀ r h, finished r h i = h ||| (r &&& 2 ^ j) <<< (7 - j)) (p : ℕ) (hp : p < 2 ^ 16) :
    (generate rand).pair i = p ↔ rand i.castSucc % 2 ^ 15 = p % 2 ^ 15 ∧ padding (rand 8) j = p / 2 ^ 15 := by
  have hlt := hrand i.castSucc
  have hvalue : u16 (rand i.castSucc) = rand i.castSucc := Nat.mod_eq_of_lt (by omega)
  have hlast : u16 (rand 8) = rand 8 := Nat.mod_eq_of_lt (by have := hrand 8; omega)
  have hbit : padding (rand 8) j < 2 := Nat.mod_lt _ (by omega)
  rw [pair_generate, hvalue, hlast, hfinished, or_padding (by omega) hj]
  omega

/-- Six bits and their number. -/
theorem padding_iff {r b₀ b₁ b₂ b₃ b₄ b₅ : ℕ} (h₀ : b₀ < 2) (h₁ : b₁ < 2) (h₂ : b₂ < 2) (h₃ : b₃ < 2)
    (h₄ : b₄ < 2) (h₅ : b₅ < 2) :
    r % 2 ^ 6 = b₀ + 2 * b₁ + 4 * b₂ + 8 * b₃ + 16 * b₄ + 32 * b₅ ↔
      padding r 0 = b₀ ∧ padding r 1 = b₁ ∧ padding r 2 = b₂ ∧ padding r 3 = b₃ ∧ padding r 4 = b₄ ∧
        padding r 5 = b₅ := by
  unfold padding
  omega

/-- How many bits of each value are used. -/
def usedBits : Fin 9 → ℕ
  | 3 => 12
  | 4 => 14
  | 8 => 6
  | _ => 15

/-- The bit of the ninth value that goes into the hole of a pair. -/
def hole : Fin 8 → Option ℕ
  | 0 => some 0
  | 1 => some 1
  | 2 => some 2
  | 3 => none
  | 4 => none
  | 5 => some 3
  | 6 => some 4
  | 7 => some 5

theorem pair_eq_iff (hrand : ∀ i, rand i < 2 ^ 15) (hu : IsVersion4 u) (i : Fin 8) :
    (generate rand).pair i = u.pair i ↔
      rand i.castSucc % 2 ^ usedBits i.castSucc = u.pair i % 2 ^ usedBits i.castSucc ∧
        ∀ j ∈ hole i, padding (rand 8) j = u.pair i / 2 ^ 15 := by
  obtain ⟨hversion, hvariant⟩ := isVersion4_iff.mp hu
  have hvalue : ∀ i, u16 (rand i) = rand i := fun i => Nat.mod_eq_of_lt ((hrand i).trans (by decide))
  have hpadded : ∀ {i : Fin 8} {j : ℕ}, j ≤ 7 → (∀ r h, finished r h i = h ||| (r &&& 2 ^ j) <<< (7 - j)) →
      ((generate rand).pair i = u.pair i ↔
        rand i.castSucc % 2 ^ 15 = u.pair i % 2 ^ 15 ∧ ∀ j' ∈ some j, padding (rand 8) j' = u.pair i / 2 ^ 15) := by
    intro i j hj hfinished
    rw [pair_padded hrand hj hfinished _ (u.pair_lt i)]
    simp
  match i with
  | 0 => exact hpadded (by decide) fun _ _ => rfl
  | 1 => exact hpadded (by decide) fun _ _ => rfl
  | 2 => exact hpadded (by decide) fun _ _ => rfl
  | 3 =>
    have hbits : usedBits (Fin.castSucc 3) = 12 := rfl
    have hrand3 : rand (Fin.castSucc 3) = rand 3 := rfl
    rw [pair_version, hvalue, hbits, hrand3]
    simp only [hole, Option.not_mem_none, false_imp_iff, implies_true, and_true]
    omega
  | 4 =>
    have hbits : usedBits (Fin.castSucc 4) = 14 := rfl
    have hrand4 : rand (Fin.castSucc 4) = rand 4 := rfl
    rw [pair_variant, hvalue, hbits, hrand4]
    simp only [hole, Option.not_mem_none, false_imp_iff, implies_true, and_true]
    omega
  | 5 => exact hpadded (by decide) fun _ _ => rfl
  | 6 => exact hpadded (by decide) fun _ _ => rfl
  | 7 => exact hpadded (by decide) fun _ _ => rfl

/-- What the used bits of each value are, by the result. -/
def usedValue (u : Uuid) (i : Fin 9) : ℕ :=
  if h : i.val < 8 then u.pair ⟨i, h⟩ % 2 ^ usedBits i
  else u.pair 0 / 2 ^ 15 + 2 * (u.pair 1 / 2 ^ 15) + 4 * (u.pair 2 / 2 ^ 15) + 8 * (u.pair 5 / 2 ^ 15) +
    16 * (u.pair 6 / 2 ^ 15) + 32 * (u.pair 7 / 2 ^ 15)

theorem generate_eq_iff (hrand : ∀ i, rand i < 2 ^ 15) (hu : IsVersion4 u) :
    generate rand = u ↔ ∀ i, rand i % 2 ^ usedBits i = usedValue u i := by
  have hbit : ∀ i, u.pair i / 2 ^ 15 < 2 := by
    intro i
    have := u.pair_lt i
    omega
  have hpairs : generate rand = u ↔ ∀ i, (generate rand).pair i = u.pair i :=
    ⟨by rintro rfl i; rfl, pair_inj⟩
  have hholes : (∀ i : Fin 8, ∀ j ∈ hole i, padding (rand 8) j = u.pair i / 2 ^ 15) ↔
      rand 8 % 2 ^ usedBits 8 = usedValue u 8 := by
    refine Iff.trans ?_ (padding_iff (hbit 0) (hbit 1) (hbit 2) (hbit 5) (hbit 6) (hbit 7)).symm
    simp [Fin.forall_fin_succ, hole]
  rw [hpairs, forall_congr' (pair_eq_iff hrand hu), forall_and, Fin.forall_fin_succ' (n := 8)]
  refine and_congr (forall_congr' fun i => ?_) hholes
  have hlt : i.castSucc.val < 8 := i.isLt
  rw [usedValue, dif_pos hlt]
  rfl

theorem usedValue_lt (u : Uuid) (i : Fin 9) : usedValue u i < 2 ^ usedBits i := by
  unfold usedValue
  split
  · exact Nat.mod_lt _ (Nat.two_pow_pos _)
  · have hlast : usedBits i = 6 := by
      obtain rfl : i = 8 := by omega
      rfl
    have hpair := fun i => u.pair_lt i
    have h₀ := hpair 0
    have h₁ := hpair 1
    have h₂ := hpair 2
    have h₅ := hpair 5
    have h₆ := hpair 6
    have h₇ := hpair 7
    rw [hlast]
    omega

end FifteenBits

section Bias
variable {k : ℕ}

/-- `generate` as a function of nine values of `k` bits. -/
def generated (k : ℕ) (rand : Fin 9 → Fin (2 ^ k)) : Uuid := generate fun i => rand i

/-- Fifteen bits are shared out with thirteen bits left. -/
theorem card_fiber_generated {u : Uuid} (hu : IsVersion4 u) : (fiber (generated 15) u).card = 2 ^ 13 := by
  have hfiber : fiber (generated 15) u =
      Finset.univ.filter fun rand : Fin 9 → Fin (2 ^ 15) => ∀ i, (rand i : ℕ) % 2 ^ usedBits i = usedValue u i := by
    ext rand
    rw [mem_fiber, Finset.mem_filter, and_iff_right (Finset.mem_univ rand)]
    exact generate_eq_iff (fun i => (rand i).isLt) hu
  have hbits : ∀ i, usedBits i ≤ 15 := by decide
  have hcard : ∀ i, (fiber (fun x : Fin (2 ^ 15) => (x : ℕ) % 2 ^ usedBits i) (usedValue u i)).card =
      2 ^ (15 - usedBits i) := by
    intro i
    refine card_fiber_mod ?_ (usedValue_lt u i)
    rw [← pow_add, Nat.sub_add_cancel (hbits i)]
  calc (fiber (generated 15) u).card
      = ∏ i, (fiber (fun x : Fin (2 ^ 15) => (x : ℕ) % 2 ^ usedBits i) (usedValue u i)).card := by
        rw [hfiber]
        exact card_forall_eq (fun i (x : Fin (2 ^ 15)) => (x : ℕ) % 2 ^ usedBits i) (usedValue u)
    _ = ∏ i, 2 ^ (15 - usedBits i) := Finset.prod_congr rfl fun i _ => hcard i
    _ = 2 ^ ∑ i, (15 - usedBits i) := Finset.prod_pow_eq_pow_sum ..
    _ = 2 ^ 13 := by rw [show ∑ i, (15 - usedBits i) = 13 by decide]

/-- There are as many UUIDs of version 4 as the twelve fixed bits leave. -/
theorem ncard_isVersion4 : {u : Uuid | IsVersion4 u}.ncard = 2 ^ 122 := by
  have hcount := ncard_mul_card (f := generated 15) (s := {u | IsVersion4 u})
    (fun rand => isVersion4_generate _) (Nat.two_pow_pos 13) fun u hu => card_fiber_generated hu
  have hall : Fintype.card (Fin 9 → Fin (2 ^ 15)) = 2 ^ 122 * 2 ^ 13 := by
    rw [Fintype.card_pi_const, Fintype.card_fin, ← pow_mul, ← pow_add]
  exact Nat.eq_of_mul_eq_mul_right (Nat.two_pow_pos 13) (hcount.trans hall)

/-- The result of zeros, and that with the first bit set. -/
def zeros : Uuid := ⟨#v[0, 0, 0, 0, 0, 0, 0x40, 0, 0x80, 0, 0, 0, 0, 0, 0, 0]⟩

def firstBit : Uuid := ⟨#v[0x80, 0, 0, 0, 0, 0, 0x40, 0, 0x80, 0, 0, 0, 0, 0, 0, 0]⟩

/-- Zeros come of a first value without bits and of no padding. -/
theorem of_generated_zeros {rand : Fin 9 → Fin (2 ^ k)} (h : generated k rand = zeros) :
    (rand 0 : ℕ) % 2 ^ 16 = 0 ∧ u16 (rand 8) &&& 0x1 = 0 := by
  have hpair : (generated k rand).pair 0 = 0 := by
    rw [h]
    rfl
  have hvalue := u16_lt (rand 0)
  have hbit : (u16 (rand 8) &&& 0x1) < 2 := Nat.and_lt_two_pow _ (n := 1) (by decide)
  have hpad : (u16 (rand 8) &&& 0x1) <<< 7 = 128 * (u16 (rand 8) &&& 0x1) := by
    rw [Nat.shiftLeft_eq, Nat.mul_comm]
  have hor : (u16 (rand 0) / 256 ||| (u16 (rand 8) &&& 0x1) <<< 7) < 2 ^ 8 :=
    Nat.or_lt_two_pow (by omega) (by omega)
  rw [generated, pair_generate] at hpair
  change 256 * ((u16 (rand 0) / 256 ||| (u16 (rand 8) &&& 0x1) <<< 7) % 256) + u16 (rand 0) % 256 = 0 at hpair
  obtain ⟨hhigh, hlast⟩ := Nat.or_eq_zero_iff.mp (show u16 (rand 0) / 256 ||| (u16 (rand 8) &&& 0x1) <<< 7 = 0 by omega)
  exact ⟨show u16 (rand 0) = 0 by omega, by omega⟩

/-- The sixteenth bit of the first value. -/
def sixteenth (hk : 16 ≤ k) : Fin (2 ^ k) := ⟨2 ^ 15, Nat.pow_lt_pow_right (by omega) (by omega)⟩

/-- Below a multiple of `2 ^ 16` there is room for the sixteenth bit. -/
theorem val_add_sixteenth (hk : 16 ≤ k) {x : Fin (2 ^ k)} (hx : (x : ℕ) % 2 ^ 16 = 0) :
    ((x + sixteenth hk : Fin (2 ^ k)) : ℕ) = x + 2 ^ 15 := by
  have hsplit : 2 ^ k = 2 ^ 16 * 2 ^ (k - 16) := by rw [← pow_add, Nat.add_sub_cancel' hk]
  have hlt := x.isLt
  rw [Fin.val_add]
  change ((x : ℕ) + 2 ^ 15) % 2 ^ k = x + 2 ^ 15
  exact Nat.mod_eq_of_lt (by omega)

theorem generated_sixteenth (hk : 16 ≤ k) {rand : Fin 9 → Fin (2 ^ k)} (h : generated k rand = zeros) :
    generated k (Function.update rand 0 (rand 0 + sixteenth hk)) = firstBit := by
  obtain ⟨hzero, hpad⟩ := of_generated_zeros h
  have hval := val_add_sixteenth hk hzero
  apply pair_inj
  intro i
  rw [generated, pair_generate]
  by_cases hi : i = 0
  · subst hi
    have hfirst : u16 (rand 0 + sixteenth hk : Fin (2 ^ k)) = 2 ^ 15 := by
      rw [hval, u16]
      omega
    change 256 * ((u16 (rand 0 + sixteenth hk : Fin (2 ^ k)) / 256 ||| (u16 (rand 8) &&& 0x1) <<< 7) % 256) +
      u16 (rand 0 + sixteenth hk : Fin (2 ^ k)) % 256 = _
    rw [hfirst, hpad]
    rfl
  · have hother : i.castSucc ≠ 0 := by
      intro heq
      exact hi (Fin.ext (show i.val = 0 from congrArg Fin.val heq))
    have hlast : (8 : Fin 9) ≠ 0 := by decide
    have hsame : zeros.pair i = firstBit.pair i := by
      revert i
      decide
    simp only [Function.update_of_ne hother, Function.update_of_ne hlast]
    rw [← hsame, ← h, generated, pair_generate]

/-- Where a value can have a sixteenth bit, the first bit is set by it as well as by the padding. -/
theorem not_equallyOften_generated (hk : 16 ≤ k) : ¬ EquallyOften (generated k) {u | IsVersion4 u} := by
  have hone : 1 < 2 ^ k := Nat.one_lt_two_pow (by omega)
  have hbelow : ∀ i : Fin 9, (if i = 8 then 1 else 0) < 2 ^ k := by
    intro i
    split <;> omega
  refine not_equallyOften (b := zeros) (c := firstBit) ?_ ?_
    (fun rand => Function.update rand 0 (rand 0 + sixteenth hk)) (fun rand h => generated_sixteenth hk h) ?_
    (fun i => ⟨if i = 8 then 1 else 0, hbelow i⟩) ?_ ?_
  · exact (show IsVersion4 zeros by decide)
  · exact (show IsVersion4 firstBit by decide)
  · intro rand rand' heq
    funext i
    have hi := congrFun heq i
    by_cases h0 : i = 0
    · subst h0
      simpa using hi
    · simpa [h0] using hi
  · change generate (fun i => if i = 8 then 1 else 0) = firstBit
    decide +kernel
  · intro rand h heq
    have hval := val_add_sixteenth hk (of_generated_zeros h).1
    have hfirst := congrArg Fin.val (congrFun heq 0)
    simp only [Function.update_self, hval] at hfirst
    simp at hfirst

end Bias

/-- Every result is a UUID of version 4, and the code shares them out evenly for values of fifteen
bits, as it takes them to be, and for no wider ones. -/
theorem generate_unbiased_iff (k : ℕ) (hk : 15 ≤ k) :
    (∀ rand : Fin 9 → Fin (2 ^ k), IsVersion4 (generated k rand)) ∧
    {u : Uuid | IsVersion4 u}.ncard = 2 ^ 122 ∧
    (EquallyOften (generated k) {u | IsVersion4 u} ↔ k = 15) := by
  refine ⟨fun rand => isVersion4_generate _, ncard_isVersion4, ?_, ?_⟩
  · intro heven
    by_contra hne
    exact not_equallyOften_generated (show 16 ≤ k by omega) heven
  · rintro rfl
    exact ⟨2 ^ 13, fun u hu => card_fiber_generated hu⟩

theorem generate_unbiased_fifteen : EquallyOften (generated 15) {u | IsVersion4 u} :=
  (generate_unbiased_iff 15 le_rfl).2.2.mpr rfl

/-- `RAND_MAX` of 31 bits, as on many platforms. -/
theorem not_generate_unbiased :
    ¬ ∀ k ≥ 15, (∀ rand : Fin 9 → Fin (2 ^ k), IsVersion4 (generated k rand)) ∧
      EquallyOften (generated k) {u | IsVersion4 u} := by
  intro h
  exact not_equallyOften_generated (k := 31) (by decide) (h 31 (by decide)).2

end LibXpf.Uuid
