import LibXpf.Foundation.UnitCodes
import LibXpf.Utf.Conversion
import Mathlib.Tactic.Linarith

/-! # Sequences of bytes

Without its position and its count the reader of bytes is a partial function on
the bytes ahead. It undoes what the writer writes, and a sequence that it accepts
is what the writer writes unless the writer has a shorter form.
-/
namespace LibXpf.Utf
open UnitCodes

section Arithmetic

theorem extend_toNat {cp : UInt32} (c : UInt8) (h : cp.toNat < 2 ^ 26) :
    (Utf8Reader.extend cp c).toNat = cp.toNat * 64 + c.toNat % 64 := by
  have hland : (c &&& 0x3F).toNat = c.toNat % 64 := by
    rw [UInt8.toNat_and]
    exact Nat.and_two_pow_sub_one_eq_mod c.toNat 6
  have hshift : (cp <<< 6).toNat = cp.toNat <<< 6 := by
    rw [UInt32.toNat_shiftLeft]
    refine Nat.mod_eq_of_lt ?_
    have hsix : cp.toNat <<< (UInt32.toNat 6 % 32) = cp.toNat * 2 ^ 6 := Nat.shiftLeft_eq _ _
    omega
  have hlt : c.toNat % 64 < 2 ^ 6 := Nat.mod_lt _ (by norm_num)
  rw [Utf8Reader.extend, UInt32.toNat_or, hshift, UInt8.toNat_toUInt32, hland,
    ← Nat.shiftLeft_add_eq_or_of_lt hlt, Nat.shiftLeft_eq]

/-- A subsequent byte of the writer. -/
def trailing (cp : UInt32) : UInt8 := 0x80 ||| (cp &&& 0x3F).toUInt8

theorem trailing_toNat (cp : UInt32) : (trailing cp).toNat = 128 + cp.toNat % 64 := by
  have hland : (cp &&& 0x3F).toUInt8.toNat = cp.toNat % 64 := by
    rw [UInt32.toNat_toUInt8, UInt32.toNat_and]
    have hmod : cp.toNat &&& UInt32.toNat 0x3F = cp.toNat % 64 := Nat.and_two_pow_sub_one_eq_mod cp.toNat 6
    rw [hmod]
    exact Nat.mod_eq_of_lt (by omega)
  have hor : ∀ b : UInt8, b.toNat < 64 → (0x80 ||| b).toNat = 128 + b.toNat :=
    forall_byte (by decide +kernel)
  rw [trailing, hor _ (by omega), hland]

theorem trailing_iff (c : UInt8) : c &&& 0xC0 = 0x80 ↔ 128 ≤ c.toNat ∧ c.toNat < 192 := by
  revert c
  exact forall_byte (by decide +kernel)

theorem shift_toNat (cp : UInt32) : (cp >>> 6).toNat = cp.toNat / 64 := by
  rw [UInt32.toNat_shiftRight]
  exact Nat.shiftRight_eq_div_pow cp.toNat 6

theorem extend_trailing (cp : UInt32) : Utf8Reader.extend (cp >>> 6) (trailing cp) = cp := by
  have hcp := cp.toNat_lt
  refine UInt32.toNat_inj.mp ?_
  rw [extend_toNat _ (by rw [shift_toNat]; omega), shift_toNat, trailing_toNat]
  omega

theorem shift_extend {cp : UInt32} {c : UInt8} (h : cp.toNat < 2 ^ 26) :
    Utf8Reader.extend cp c >>> 6 = cp := by
  refine UInt32.toNat_inj.mp ?_
  rw [shift_toNat, extend_toNat c h]
  omega

theorem trailing_extend {cp : UInt32} {c : UInt8} (h : cp.toNat < 2 ^ 26) (hc : c &&& 0xC0 = 0x80) :
    trailing (Utf8Reader.extend cp c) = c := by
  have hrange := (trailing_iff c).mp hc
  refine UInt8.toNat_inj.mp ?_
  rw [trailing_toNat, extend_toNat c h]
  omega

end Arithmetic

section Sequences

namespace Utf8Reader

/-- The loop over the subsequent bytes, on the bytes ahead. -/
def collect : ℕ → UInt32 → List UInt8 → Option (UInt32 × List UInt8)
  | 0, codepoint, l => some (codepoint, l)
  | sbcnt + 1, codepoint, c :: l =>
    if c &&& 0xC0 = 0x80 then collect sbcnt (extend codepoint c) l else none
  | _ + 1, _, [] => none

def next : Next UInt8 UInt32
  | [] => none
  | c :: l =>
    if c = 0 then none
    else
      match first c with
      | none => none
      | some (sbcnt, codepoint) => collect sbcnt codepoint l

end Utf8Reader

open Utf8Reader in
theorem collect_split {n : ℕ} {x cp : UInt32} {l rest : List UInt8} (h : collect n x l = some (cp, rest)) :
    ∃ pre, l = pre ++ rest ∧ pre.length = n ∧ 0 ∉ pre := by
  induction n generalizing x l with
  | zero =>
    simp only [collect, Option.some.injEq, Prod.mk.injEq] at h
    exact ⟨[], h.2, rfl, List.not_mem_nil⟩
  | succ n ih =>
    cases l with
    | nil => simp [collect] at h
    | cons c l =>
      rw [collect] at h
      split at h
      case isFalse => simp at h
      case isTrue hc =>
        obtain ⟨pre, rfl, hlen, hzero⟩ := ih h
        refine ⟨c :: pre, rfl, by rw [List.length_cons, hlen], ?_⟩
        rw [List.mem_cons, not_or]
        refine ⟨?_, hzero⟩
        rintro rfl
        revert hc
        decide

theorem collect_shrinks {n : ℕ} {x cp : UInt32} {l rest : List UInt8}
    (h : Utf8Reader.collect n x l = some (cp, rest)) : rest.length + n = l.length := by
  obtain ⟨pre, rfl, hlen, -⟩ := collect_split h
  rw [List.length_append, hlen, Nat.add_comm]

open Utf8Reader in
theorem collect_snoc (n : ℕ) (x : UInt32) (l : List UInt8) :
    collect n x (l ++ [0]) = (collect n x l).map fun p => (p.1, p.2 ++ [0]) := by
  induction n generalizing x l with
  | zero => rfl
  | succ n ih =>
    cases l with
    | nil => rw [List.nil_append, collect, if_neg (by decide), collect, Option.map_none]
    | cons c l =>
      rw [List.cons_append, collect, collect]
      split
      · exact ih _ l
      · rfl

theorem Utf8Reader.next_snoc (l : List UInt8) :
    Utf8Reader.next (l ++ [0]) = (Utf8Reader.next l).map fun p => (p.1, p.2 ++ [0]) := by
  cases l with
  | nil => rfl
  | cons c l =>
    rw [List.cons_append, Utf8Reader.next, Utf8Reader.next]
    split
    · rfl
    split
    · rfl
    · exact collect_snoc _ _ l

theorem Utf8Reader.next_shrinks : Shrinks Utf8Reader.next := by
  intro l cp rest h
  cases l with
  | nil => simp [Utf8Reader.next] at h
  | cons c l =>
    rw [Utf8Reader.next] at h
    split at h
    · simp at h
    · split at h
      · simp at h
      · have hlen := collect_shrinks h
        rw [List.length_cons]
        omega

open Utf8Writer in
theorem subsequent_length (n : ℕ) (cp : UInt32) (bytes : List UInt8) :
    (subsequent n cp bytes).2.length = n + bytes.length := by
  induction n generalizing cp bytes with
  | zero => rw [subsequent, Nat.zero_add]
  | succ n ih =>
    rw [subsequent, ih, List.length_cons]
    omega

@[simp] theorem Utf8Writer.units_length (cp : UInt32) :
    (Utf8Writer.units cp).length = Utf8Writer.sbcnt cp + 1 := by
  rw [Utf8Writer.units, List.length_cons, subsequent_length, List.length_nil, Nat.add_zero]

open Utf8Writer in
/-- What is left of `cp` after `n` subsequent bytes. -/
theorem subsequent_left (n : ℕ) (cp : UInt32) (bytes : List UInt8) :
    (subsequent n cp bytes).1.toNat = cp.toNat / 64 ^ n := by
  induction n generalizing cp bytes with
  | zero => rw [subsequent, pow_zero, Nat.div_one]
  | succ n ih =>
    rw [subsequent, ih, shift_toNat, Nat.div_div_eq_div_mul, pow_succ, Nat.mul_comm]

open Utf8Writer in
/-- The loop of the writer, from its other end. -/
theorem subsequent_succ (n : ℕ) (cp : UInt32) (bytes : List UInt8) :
    subsequent (n + 1) cp bytes =
      ((subsequent n cp bytes).1 >>> 6, trailing (subsequent n cp bytes).1 :: (subsequent n cp bytes).2) := by
  induction n generalizing cp bytes with
  | zero => rfl
  | succ n ih => rw [subsequent, ih, subsequent]

open Utf8Reader Utf8Writer in
/-- The loop of the reader undoes the loop of the writer. -/
theorem collect_subsequent (n : ℕ) (cp : UInt32) (bytes rest : List UInt8) (m : ℕ) :
    collect (n + m) (Utf8Writer.subsequent n cp bytes).1 ((Utf8Writer.subsequent n cp bytes).2 ++ rest) =
      collect m cp (bytes ++ rest) := by
  induction n generalizing cp bytes m with
  | zero => rw [Utf8Writer.subsequent, Nat.zero_add]
  | succ n ih =>
    have htrailing : trailing cp &&& 0xC0 = 0x80 := by
      rw [trailing_iff, trailing_toNat]
      omega
    have hswap : n + 1 + m = n + (m + 1) := by omega
    rw [Utf8Writer.subsequent, hswap, ih, List.cons_append, collect]
    change (if trailing cp &&& 0xC0 = 0x80 then _ else _) = _
    rw [if_pos htrailing]
    exact congrArg (fun x => collect m x (bytes ++ rest)) (extend_trailing cp)

open Utf8Reader in
/-- The loop of the writer redoes the bytes that the loop of the reader accepts. -/
theorem subsequent_collect {n : ℕ} {x cp : UInt32} {l rest : List UInt8}
    (hx : (x.toNat + 1) * 64 ^ n ≤ 2 ^ 32) (h : collect n x l = some (cp, rest)) :
    ∃ pre, l = pre ++ rest ∧ Utf8Writer.subsequent n cp [] = (x, pre) := by
  induction n generalizing x l with
  | zero =>
    simp only [collect, Option.some.injEq, Prod.mk.injEq] at h
    exact ⟨[], by rw [h.2, List.nil_append], by rw [Utf8Writer.subsequent, h.1]⟩
  | succ n ih =>
    cases l with
    | nil => simp [collect] at h
    | cons c l =>
      rw [collect] at h
      split at h
      case isFalse => simp at h
      case isTrue hc =>
        have hpow : 1 ≤ 64 ^ n := Nat.one_le_pow _ _ (by norm_num)
        have hwide : (x.toNat + 1) * 64 * 64 ^ n ≤ 2 ^ 32 := by
          rw [pow_succ] at hx
          linarith
        have hsmall : x.toNat < 2 ^ 26 := by nlinarith
        have hext := extend_toNat c hsmall
        have hbound : ((extend x c).toNat + 1) * 64 ^ n ≤ (x.toNat + 1) * 64 * 64 ^ n :=
          Nat.mul_le_mul_right _ (by omega)
        obtain ⟨pre, hpre, hsub⟩ := ih (hbound.trans hwide) h
        refine ⟨c :: pre, by rw [hpre, List.cons_append], ?_⟩
        rw [subsequent_succ, hsub]
        simp only
        rw [shift_extend hsmall, trailing_extend hsmall hc]

/-- The least code point of the forms with that many subsequent bytes. -/
def least : ℕ → ℕ
  | 0 => 0
  | 1 => 0x80
  | 2 => 0x800
  | 3 => 0x10000
  | 4 => 0x200000
  | 5 => 0x4000000
  | _ => 0x80000000

theorem sbcnt_eq {n : ℕ} {cp : UInt32} (hlo : least n ≤ cp.toNat) (hhi : cp.toNat < least (n + 1)) :
    Utf8Writer.sbcnt cp = n := by
  simp only [Utf8Writer.sbcnt, ge_iff_le, UInt32.le_iff_toNat_le, UInt32.reduceToNat]
  match n with
  | 0 | 1 | 2 | 3 | 4 | 5 => simp only [least] at hlo hhi; grind
  | n + 6 => simp only [least] at hlo hhi; omega

theorem sbcnt_lt {n : ℕ} {cp : UInt32} (hn : n ≤ 5) (hlo : cp.toNat < least n) :
    Utf8Writer.sbcnt cp < n := by
  simp only [Utf8Writer.sbcnt, ge_iff_le, UInt32.le_iff_toNat_le, UInt32.reduceToNat]
  match n with
  | 0 | 1 | 2 | 3 | 4 | 5 => simp only [least] at hlo; grind
  | n + 6 => omega

theorem first_some {c : UInt8} {n : ℕ} {x : UInt32} (h : Utf8Reader.first c = some (n, x)) :
    n ≤ 5 ∧ (x.toNat + 1) * 64 ^ n ≤ least (n + 1) ∧ Utf8Writer.first n x = c := by
  have hall : ∀ c : UInt8, ∀ p ∈ Utf8Reader.first c,
      p.1 ≤ 5 ∧ (p.2.toNat + 1) * 64 ^ p.1 ≤ least (p.1 + 1) ∧ Utf8Writer.first p.1 p.2 = c :=
    forall_byte (by decide +kernel)
  exact hall c (n, x) h

/-- The first two bytes of a form that is longer than its code point needs. -/
def overlongStart (c t : UInt8) : Prop :=
  c = 0xC0 ∨ c = 0xC1 ∨ (c = 0xE0 ∧ t < 0xA0) ∨ (c = 0xF0 ∧ t < 0x90) ∨ (c = 0xF8 ∧ t < 0x88) ∨
    (c = 0xFC ∧ t < 0x84)

instance (c t : UInt8) : Decidable (overlongStart c t) := inferInstanceAs (Decidable (_ ∨ _))

theorem overlongStart_iff {c t : UInt8} {n : ℕ} {x : UInt32}
    (hc : Utf8Reader.first c = some (n + 1, x)) (ht : t &&& 0xC0 = 0x80) :
    overlongStart c t ↔ (x.toNat * 64 + t.toNat % 64) * 64 ^ n < least (n + 1) := by
  have htwo : ∀ c : UInt8, ∀ p ∈ Utf8Reader.first c,
      ((c = 0xC0 ∨ c = 0xC1) ↔ p.1 = 1 ∧ p.2.toNat < 2) := forall_byte (by decide +kernel)
  have hlong : ∀ c : UInt8, ∀ p ∈ Utf8Reader.first c,
      ∀ lead ∈ [((0xE0 : UInt8), 2), (0xF0, 3), (0xF8, 4), (0xFC, 5)],
        (c = lead.1 ↔ p.1 = lead.2 ∧ p.2.toNat = 0) := forall_byte (by decide +kernel)
  have hsecond := hlong c (n + 1, x) hc
  simp only [List.forall_mem_cons, List.not_mem_nil, false_implies, implies_true, and_true] at hsecond
  obtain ⟨hthree, hfour, hfive, hsix⟩ := hsecond
  have hn := (first_some hc).1
  have htrail := (trailing_iff t).mp ht
  rw [overlongStart, ← or_assoc, htwo c _ hc, hthree, hfour, hfive, hsix]
  simp only [UInt8.lt_iff_toNat_lt, UInt8.reduceToNat]
  match n with
  | 0 | 1 | 2 | 3 | 4 => norm_num [least]; omega
  | n + 5 => omega

theorem not_overlongStart {c t : UInt8} (h : c.toNat < 192) : ¬ overlongStart c t := by
  have hne : ∀ d : UInt8, 192 ≤ d.toNat → c ≠ d := by
    rintro d hd rfl
    omega
  simp only [overlongStart, hne 0xC0 (by decide), hne 0xC1 (by decide), hne 0xE0 (by decide),
    hne 0xF0 (by decide), hne 0xF8 (by decide), hne 0xFC (by decide), false_and, or_false, not_false_eq_true]

/-- A sequence of the list is longer than its code point needs. -/
def Overlong : List UInt8 → Prop
  | c :: t :: l => overlongStart c t ∨ Overlong (t :: l)
  | _ => False

/-- The first sequence of the list is longer than its code point needs. -/
def StartsOverlong : List UInt8 → Prop
  | c :: t :: _ => overlongStart c t
  | _ => False

theorem overlong_cons {c : UInt8} {l : List UInt8} :
    Overlong (c :: l) ↔ StartsOverlong (c :: l) ∨ Overlong l := by
  cases l with
  | nil => simp only [Overlong, StartsOverlong, or_self]
  | cons t l => rw [Overlong, StartsOverlong]

theorem not_startsOverlong {c : UInt8} {l : List UInt8} (h : c.toNat < 192) : ¬ StartsOverlong (c :: l) := by
  cases l with
  | nil => exact id
  | cons t l => exact not_overlongStart h

open Utf8Reader in
theorem collect_cons {n : ℕ} {x cp : UInt32} {c : UInt8} {l rest : List UInt8}
    (h : collect (n + 1) x (c :: l) = some (cp, rest)) :
    c &&& 0xC0 = 0x80 ∧ collect n (extend x c) l = some (cp, rest) := by
  rw [collect] at h
  split at h
  case isTrue hc => exact ⟨hc, h⟩
  case isFalse => simp at h

open Utf8Reader in
/-- Subsequent bytes do not start a sequence. -/
theorem overlong_collect {n : ℕ} {x cp : UInt32} {l rest : List UInt8}
    (h : collect n x l = some (cp, rest)) : Overlong l ↔ Overlong rest := by
  induction n generalizing x l with
  | zero =>
    simp only [collect, Option.some.injEq, Prod.mk.injEq] at h
    rw [h.2]
  | succ n ih =>
    cases l with
    | nil => simp [collect] at h
    | cons c l =>
      rw [collect] at h
      split at h
      case isFalse => simp at h
      case isTrue hc =>
        have hc' := (trailing_iff c).mp hc
        rw [overlong_cons, ih h, or_iff_right (not_startsOverlong hc'.2)]

open Utf8Reader in
/-- The bits of the first byte are the highest ones of the code point. -/
theorem collect_div {n : ℕ} {x cp : UInt32} {l rest : List UInt8} (hx : (x.toNat + 1) * 64 ^ n ≤ 2 ^ 32)
    (h : collect n x l = some (cp, rest)) : cp.toNat / 64 ^ n = x.toNat := by
  obtain ⟨pre, -, hsub⟩ := subsequent_collect hx h
  rw [← subsequent_left n cp [], hsub]

theorem startsOverlong_iff {n : ℕ} {x cp : UInt32} {c : UInt8} {l rest : List UInt8}
    (hc : Utf8Reader.first c = some (n, x)) (h : Utf8Reader.collect n x l = some (cp, rest)) :
    StartsOverlong (c :: l) ↔ cp.toNat < least n := by
  obtain ⟨hn, hlimit, -⟩ := first_some hc
  cases n with
  | zero =>
    have hascii : ∀ c : UInt8, ∀ p ∈ Utf8Reader.first c, p.1 = 0 → c.toNat < 192 :=
      forall_byte (by decide +kernel)
    rw [least, iff_false_intro (Nat.not_lt_zero _), iff_false]
    exact not_startsOverlong (hascii c _ hc rfl)
  | succ n =>
    cases l with
    | nil => simp [Utf8Reader.collect] at h
    | cons t l =>
      obtain ⟨ht, hnext⟩ := collect_cons h
      obtain ⟨b, hb⟩ : ∃ b, least (n + 1) = b * 64 ^ n := by
        match n with
        | 0 => exact ⟨128, rfl⟩
        | 1 => exact ⟨32, rfl⟩
        | 2 => exact ⟨16, rfl⟩
        | 3 => exact ⟨8, rfl⟩
        | 4 => exact ⟨4, rfl⟩
        | n + 5 => omega
      have hpow : 0 < 64 ^ n := Nat.pow_pos (by norm_num)
      have htop : least (n + 1 + 1) ≤ 2 ^ 31 := by
        match n with
        | 0 | 1 | 2 | 3 | 4 => norm_num [least]
        | n + 5 => omega
      have hwide : (x.toNat + 1) * 64 * 64 ^ n ≤ 2 ^ 31 := by
        rw [pow_succ] at hlimit
        linarith
      have hsmall : x.toNat < 2 ^ 26 := by nlinarith
      have hext := extend_toNat t hsmall
      have hbound : ((Utf8Reader.extend x t).toNat + 1) * 64 ^ n ≤ (x.toNat + 1) * 64 * 64 ^ n :=
        Nat.mul_le_mul_right _ (by omega)
      have hdiv := collect_div (by omega) hnext
      rw [StartsOverlong, overlongStart_iff hc ht, ← hext, ← hdiv, hb, Nat.mul_lt_mul_right hpow,
        Nat.div_lt_iff_lt_mul hpow]

/-- A sequence that is accepted: the writer writes the same bytes, or fewer if it is too long. -/
structure Accepted (l rest : List UInt8) (cp : UInt32) : Prop where
  small : cp.toNat < 2 ^ 31
  overlong : Overlong l ↔ StartsOverlong l ∨ Overlong rest
  same : ¬ StartsOverlong l → l = Utf8Writer.units cp ++ rest
  fewer : StartsOverlong l → (Utf8Writer.units cp).length + rest.length < l.length

open Utf8Reader in
theorem accepted {l rest : List UInt8} {cp : UInt32} (h : next l = some (cp, rest)) : Accepted l rest cp := by
  cases l with
  | nil => simp [next] at h
  | cons c l =>
    rw [next] at h
    split at h
    · simp at h
    split at h
    · simp at h
    next n x hc =>
      obtain ⟨hn, hlimit, hfirst⟩ := first_some hc
      have htop : least (n + 1) ≤ 2 ^ 31 := by
        match n with
        | 0 | 1 | 2 | 3 | 4 | 5 => norm_num [least]
        | n + 6 => omega
      obtain ⟨pre, hpre, hsub⟩ := subsequent_collect (by omega) h
      have hhi : cp.toNat < least (n + 1) := by
        have hpow : 0 < 64 ^ n := Nat.pow_pos (by norm_num)
        have hdiv := collect_div (by omega) h
        refine lt_of_lt_of_le ?_ hlimit
        rw [← Nat.div_lt_iff_lt_mul hpow]
        omega
      have hstart := startsOverlong_iff hc h
      constructor
      · omega
      · rw [overlong_cons, overlong_collect h]
      · intro hfits
        have hsbcnt := sbcnt_eq (Nat.le_of_not_lt (mt hstart.mpr hfits)) hhi
        rw [Utf8Writer.units, hsbcnt, hsub, hfirst, hpre, List.cons_append]
      · intro hlong
        have hsbcnt := sbcnt_lt hn (hstart.mp hlong)
        have hlen := collect_shrinks h
        rw [Utf8Writer.units_length, List.length_cons]
        omega

theorem sbcnt_bound {cp : UInt32} (h : cp.toNat < 2 ^ 31) :
    Utf8Writer.sbcnt cp < 6 ∧ cp.toNat < least (Utf8Writer.sbcnt cp + 1) := by
  simp only [Utf8Writer.sbcnt, ge_iff_le, UInt32.le_iff_toNat_le, UInt32.reduceToNat]
  split_ifs <;> exact ⟨by norm_num, by norm_num [least]; omega⟩

theorem least_dvd {n : ℕ} (hn : n < 6) : 64 ^ n ∣ least (n + 1) := by
  have hall : ∀ n < 6, 64 ^ n ∣ least (n + 1) := by decide +kernel
  exact hall n hn

theorem first_first {n : ℕ} {x : UInt32} (hn : n < 6) (hx : x.toNat < least (n + 1) / 64 ^ n) :
    Utf8Reader.first (Utf8Writer.first n x) = some (n, x) ∧ (Utf8Writer.first n x = 0 → n = 0 ∧ x = 0) := by
  have hall : ∀ n < 6, ∀ k < least (n + 1) / 64 ^ n,
      Utf8Reader.first (Utf8Writer.first n (UInt32.ofNat k)) = some (n, UInt32.ofNat k) ∧
        (Utf8Writer.first n (UInt32.ofNat k) = 0 → n = 0 ∧ UInt32.ofNat k = 0) := by decide +kernel
  have h := hall n hn x.toNat hx
  rwa [UInt32.ofNat_toNat] at h

theorem Utf8Reader.next_units {cp : UInt32} (hpos : cp ≠ 0) (hlt : cp.toNat < 2 ^ 31) (rest : List UInt8) :
    Utf8Reader.next (Utf8Writer.units cp ++ rest) = some (cp, rest) := by
  obtain ⟨hn, hhi⟩ := sbcnt_bound hlt
  have hleft := subsequent_left (Utf8Writer.sbcnt cp) cp []
  have hpow : 0 < 64 ^ Utf8Writer.sbcnt cp := Nat.pow_pos (by norm_num)
  have hcollect := collect_subsequent (Utf8Writer.sbcnt cp) cp [] rest 0
  have hdvd := least_dvd hn
  obtain ⟨hfirst, hzero⟩ := first_first hn (by
    rw [hleft]
    exact Nat.div_lt_div_of_lt_of_dvd hdvd hhi)
  have hne : Utf8Writer.first (Utf8Writer.sbcnt cp) (Utf8Writer.subsequent (Utf8Writer.sbcnt cp) cp []).1 ≠ 0 := by
    intro h
    obtain ⟨hn0, hx0⟩ := hzero h
    rw [hn0] at hx0
    exact hpos hx0
  rw [Utf8Writer.units, List.cons_append, Utf8Reader.next, if_neg hne, hfirst]
  exact hcollect

/-- The first byte of the writer is the sum of a mark and the highest bits. -/
theorem first_toNat {n : ℕ} {x : UInt32} (hn : n < 6) (hx : x.toNat < least (n + 1) / 64 ^ n) :
    (Utf8Writer.first n x).toNat = [0, 0xC0, 0xE0, 0xF0, 0xF8, 0xFC].getD n 0 + x.toNat := by
  have hall : ∀ n < 6, ∀ k < least (n + 1) / 64 ^ n,
      (Utf8Writer.first n (UInt32.ofNat k)).toNat =
        [0, 0xC0, 0xE0, 0xF0, 0xF8, 0xFC].getD n 0 + (UInt32.ofNat k).toNat := by decide +kernel
  have h := hall n hn x.toNat hx
  rwa [UInt32.ofNat_toNat] at h

open Utf8Writer in
theorem subsequent_map (n : ℕ) (cp : UInt32) :
    (subsequent n cp []).2.map UInt8.toNat =
      ((List.range n).map (fun i => 128 + cp.toNat / 64 ^ i % 64)).reverse := by
  induction n with
  | zero => rfl
  | succ n ih =>
    rw [subsequent_succ, List.map_cons, trailing_toNat, subsequent_left, ih, List.range_succ, List.map_append,
      List.reverse_append]
    rfl

theorem units_map {cp : UInt32} {n : ℕ} (hlt : cp.toNat < 2 ^ 31) (hn : Utf8Writer.sbcnt cp = n) :
    (Utf8Writer.units cp).map UInt8.toNat =
      ([0, 0xC0, 0xE0, 0xF0, 0xF8, 0xFC].getD n 0 + cp.toNat / 64 ^ n) ::
        ((List.range n).map (fun i => 128 + cp.toNat / 64 ^ i % 64)).reverse := by
  obtain ⟨hsix, hhi⟩ := sbcnt_bound hlt
  rw [hn] at hsix hhi
  have hleft := subsequent_left n cp []
  have hfirst := first_toNat hsix (x := (Utf8Writer.subsequent n cp []).1) (by
    rw [hleft]
    exact Nat.div_lt_div_of_lt_of_dvd (least_dvd hsix) hhi)
  rw [Utf8Writer.units, hn, List.map_cons, subsequent_map, hfirst, hleft]

theorem utf8_units (c : Char) : Utf8Writer.units c.val = String.utf8EncodeChar c := by
  have hrange : c.val.toNat < 0x110000 := by
    rcases c.valid with h | h
    · exact lt_trans h (by norm_num)
    · exact h.2
  have hlt : c.val.toNat < 2 ^ 31 := by omega
  have hval : c.toNat = c.val.toNat := rfl
  refine (List.map_injective_iff.mpr fun a b => UInt8.toNat_inj.mp) ?_
  unfold String.utf8EncodeChar
  simp only
  split
  next h =>
    rw [units_map hlt (n := 0) (sbcnt_eq (Nat.zero_le _) (by simp only [least]; omega))]
    simp
    omega
  split
  next h =>
    rw [units_map hlt (n := 1) (sbcnt_eq (by simp only [least]; omega) (by simp only [least]; omega))]
    simp [List.range_succ]
    omega
  split
  next h =>
    rw [units_map hlt (n := 2) (sbcnt_eq (by simp only [least]; omega) (by simp only [least]; omega))]
    simp [List.range_succ]
    omega
  next h =>
    rw [units_map hlt (n := 3) (sbcnt_eq (by simp only [least]; omega) (by simp only [least]; omega))]
    simp [List.range_succ]
    omega

end Sequences
end LibXpf.Utf
