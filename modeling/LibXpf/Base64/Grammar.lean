import LibXpf.Base64.TextForm
import LibXpf.Foundation.GuardedRuns
import Mathlib.Tactic.Tauto

/-! # The texts that the decoder accepts

The decoder undoes the text form. It reads a text group by group and stops at the
first padded one, and looks no further. So it takes every text of the grammar,
and a text outside of it if the fault lies behind a padding.
-/
namespace LibXpf.Base64
open Buffers GuardedRuns

section Decoding

/-- What the decoder makes of a text, group by group. -/
def decodeText : List UInt8 → Option (List UInt8)
  | [] => some []
  | c1 :: c2 :: c3 :: c4 :: rest =>
    if corrupted c1 c2 c3 c4 then none
    else if c3 = ascii '=' ∨ c4 = ascii '=' then some (decodeGroup c1 c2 c3 c4)
    else (decodeText rest).map (decodeGroup c1 c2 c3 c4 ++ ·)
  | _ => none

theorem decodeGroup_length_le (c1 c2 c3 c4 : UInt8) : (decodeGroup c1 c2 c3 c4).length ≤ 3 := by
  simp only [decodeGroup]
  split
  · simp
  · split <;> simp

theorem four_dvd_rest {c1 c2 c3 c4 : UInt8} {rest : List UInt8}
    (h : 4 ∣ (c1 :: c2 :: c3 :: c4 :: rest).length) : 4 ∣ rest.length := by
  simp only [List.length_cons] at h
  omega

@[elab_as_elim]
theorem groups_induction {motive : (t : List UInt8) → 4 ∣ t.length → Prop} (nil : motive [] ⟨0, rfl⟩)
    (group : ∀ c1 c2 c3 c4 rest h, motive rest (four_dvd_rest h) → motive (c1 :: c2 :: c3 :: c4 :: rest) h) :
    ∀ t h, motive t h
  | [], _ => nil
  | [_], h => absurd h (by simp)
  | [_, _], h => absurd h (by simp)
  | [_, _, _], h => absurd h (by simp)
  | c1 :: c2 :: c3 :: c4 :: rest, h =>
    group c1 c2 c3 c4 rest h (groups_induction nil group rest (four_dvd_rest h))

/-- The length of the data of some groups, if only the last two characters are padding. -/
def predicted (t : List UInt8) : ℕ :=
  t.length / 4 * 3 - (if t[t.length - 1]? = some (ascii '=') then 1 else 0) -
    (if t[t.length - 2]? = some (ascii '=') then 1 else 0)

theorem predicted_le (t : List UInt8) : predicted t ≤ t.length / 4 * 3 :=
  (Nat.sub_le _ _).trans (Nat.sub_le _ _)

/-- A last group has a byte for each character but the first that is not padding. -/
theorem predicted_last (c1 c2 c3 c4 : UInt8) :
    predicted [c1, c2, c3, c4] = 3 - (if c4 = ascii '=' then 1 else 0) - (if c3 = ascii '=' then 1 else 0) := by
  simp [predicted]

theorem predicted_group {c1 c2 c3 c4 : UInt8} {rest : List UInt8} (hfour : 4 ∣ rest.length) (hrest : rest ≠ []) :
    predicted (c1 :: c2 :: c3 :: c4 :: rest) = 3 + predicted rest := by
  have hpos := List.length_pos_iff.mpr hrest
  obtain ⟨k, hk⟩ : ∃ k, rest.length = k + 4 := ⟨rest.length - 4, by omega⟩
  have hlast : (c1 :: c2 :: c3 :: c4 :: rest)[k + 4 + 4 - 1]? = rest[k + 4 - 1]? := by
    rw [show k + 4 + 4 - 1 = k + 4 - 1 + 1 + 1 + 1 + 1 by omega]
    simp only [List.getElem?_cons_succ]
  have hprevious : (c1 :: c2 :: c3 :: c4 :: rest)[k + 4 + 4 - 2]? = rest[k + 4 - 2]? := by
    rw [show k + 4 + 4 - 2 = k + 4 - 2 + 1 + 1 + 1 + 1 by omega]
    simp only [List.getElem?_cons_succ]
  have hlength : (c1 :: c2 :: c3 :: c4 :: rest).length = k + 4 + 4 := by
    simp only [List.length_cons, hk]
  have hthree : (k + 4 + 4) / 4 * 3 = (k + 4) / 4 * 3 + 3 := by omega
  have hwhole : 3 ≤ (k + 4) / 4 * 3 := by omega
  rw [predicted, predicted, hlength, hk, hlast, hprevious, hthree]
  split <;> split <;> omega

theorem decodeGroup_le_predicted (c1 c2 c3 c4 : UInt8) {rest : List UInt8} (hfour : 4 ∣ rest.length) :
    (decodeGroup c1 c2 c3 c4).length ≤ predicted (c1 :: c2 :: c3 :: c4 :: rest) := by
  cases rest with
  | nil =>
    rw [predicted_last]
    simp only [decodeGroup]
    split
    · split <;> simp
    · split <;> simp
  | cons c rest =>
    have hthree := decodeGroup_length_le c1 c2 c3 c4
    rw [predicted_group hfour (List.cons_ne_nil c rest)]
    omega

/-- A group without padding has three bytes also at the end. -/
theorem predicted_split (c1 c2 : UInt8) {c3 c4 : UInt8} {rest : List UInt8} (hfour : 4 ∣ rest.length)
    (hplain : ¬ (c3 = ascii '=' ∨ c4 = ascii '=')) :
    predicted (c1 :: c2 :: c3 :: c4 :: rest) = 3 + predicted rest := by
  cases rest with
  | nil =>
    obtain ⟨h3, h4⟩ := not_or.mp hplain
    rw [predicted_last, if_neg h3, if_neg h4]
    rfl
  | cons c rest => exact predicted_group hfour (List.cons_ne_nil c rest)

variable {before ahead done room : List UInt8} {c1 c2 c3 c4 : UInt8} {inputlen : ℤ} {fuel : ℕ}

/-- One round of the decoder's loop. -/
theorem decodeLoop_round (hin : before.length < inputlen)
    (hroom : corrupted c1 c2 c3 c4 = false → (decodeGroup c1 c2 c3 c4).length ≤ room.length) :
    decodeLoop (before ++ c1 :: c2 :: c3 :: c4 :: ahead) inputlen (fuel + 1) before.length done.length
        (done ++ room) =
      if corrupted c1 c2 c3 c4 then .ok (-1, done ++ room)
      else
        let output := (done ++ decodeGroup c1 c2 c3 c4) ++ room.drop (decodeGroup c1 c2 c3 c4).length
        if c3 = ascii '=' ∨ c4 = ascii '=' then .ok ((done ++ decodeGroup c1 c2 c3 c4).length, output)
        else
          decodeLoop ((before ++ [c1, c2, c3, c4]) ++ ahead) inputlen fuel (before ++ [c1, c2, c3, c4]).length
            (done ++ decodeGroup c1 c2 c3 c4).length output := by
  rw [decodeLoop, if_pos hin, read_here rfl, read_ahead (k := 1) rfl rfl, read_ahead (k := 2) rfl rfl,
    read_ahead (k := 3) rfl rfl]
  simp only [ok_bind]
  split
  · rfl
  · next hgood =>
    rw [writeAll_here rfl (hroom (by simpa using hgood))]
    simp only [ok_bind, List.length_append, Nat.cast_add, List.append_assoc, List.cons_append,
      List.nil_append, List.length_cons, List.length_nil]

/-- What the loop returns for a text ahead, and what it has written then. -/
structure Decoded (t written : List UInt8) : Prop where
  within : written.length ≤ predicted t
  whole : ∀ d, decodeText t = some d → written = d

/-- The loop returns what `decodeText` makes of the text ahead, and stays within the predicted length. -/
theorem decodeLoop_eq (t before done room : List UInt8) (fuel : ℕ) (hfour : 4 ∣ t.length)
    (hin : inputlen = before.length + t.length) (hroom : predicted t ≤ room.length) (hfuel : t.length < fuel) :
    ∃ written, decodeLoop (before ++ t) inputlen fuel before.length done.length (done ++ room) =
        .ok ((decodeText t).elim (-1) (fun d => ((done ++ d).length : ℤ)),
          done ++ written ++ room.drop written.length) ∧ Decoded t written := by
  induction t, hfour using groups_induction generalizing before done room fuel with
  | nil =>
    obtain ⟨fuel, rfl⟩ : ∃ k, fuel = k + 1 := ⟨fuel - 1, by omega⟩
    refine ⟨[], ?_, Nat.zero_le _, fun d hd => Option.some.inj hd⟩
    simp only [List.length_nil, Nat.cast_zero, add_zero] at hin
    rw [decodeLoop, if_neg (by omega)]
    simp only [decodeText, Option.elim_some, List.append_nil, List.length_nil, List.drop_zero]
  | group c1 c2 c3 c4 rest hall ih =>
    obtain ⟨fuel, rfl⟩ : ∃ k, fuel = k + 1 := ⟨fuel - 1, by omega⟩
    have hrest := four_dvd_rest hall
    have hgroup := decodeGroup_le_predicted c1 c2 c3 c4 hrest
    have hthree := decodeGroup_length_le c1 c2 c3 c4
    simp only [List.length_cons] at hin hfuel
    rw [decodeLoop_round (by omega) (fun _ => hgroup.trans hroom)]
    by_cases hbad : corrupted c1 c2 c3 c4 = true
    · have htext : decodeText (c1 :: c2 :: c3 :: c4 :: rest) = none := by rw [decodeText, if_pos hbad]
      refine ⟨[], ?_, Nat.zero_le _, fun d hd => by rw [htext] at hd; cases hd⟩
      rw [if_pos hbad, htext]
      simp
    rw [if_neg hbad]
    by_cases hpadded : c3 = ascii '=' ∨ c4 = ascii '='
    · have htext : decodeText (c1 :: c2 :: c3 :: c4 :: rest) = some (decodeGroup c1 c2 c3 c4) := by
        rw [decodeText, if_neg hbad, if_pos hpadded]
      refine ⟨decodeGroup c1 c2 c3 c4, ?_, hgroup, fun d hd => Option.some.inj (htext.symm.trans hd)⟩
      rw [htext]
      exact if_pos hpadded
    · have htext : decodeText (c1 :: c2 :: c3 :: c4 :: rest) =
          (decodeText rest).map (decodeGroup c1 c2 c3 c4 ++ ·) := by
        rw [decodeText, if_neg hbad, if_neg hpadded]
      have hbefore : (before ++ [c1, c2, c3, c4]).length = before.length + 4 := by
        rw [List.length_append]
        rfl
      have hpredicted := predicted_split c1 c2 hrest hpadded
      obtain ⟨written, hrun, hwithin, hwhole⟩ := ih (before ++ [c1, c2, c3, c4])
        (done ++ decodeGroup c1 c2 c3 c4) (room.drop (decodeGroup c1 c2 c3 c4).length) fuel
        (by rw [hbefore]; omega) (by rw [List.length_drop]; omega) (by omega)
      refine ⟨decodeGroup c1 c2 c3 c4 ++ written, ?_, ?_, ?_⟩
      · dsimp only
        rw [if_neg hpadded, hrun, htext]
        cases decodeText rest with
        | none => simp only [Option.map_none, Option.elim_none, List.append_assoc, List.length_append, List.drop_drop]
        | some d =>
          simp only [Option.map_some, Option.elim_some, List.append_assoc, List.length_append, List.drop_drop]
      · rw [List.length_append]
        omega
      · intro d hd
        rw [htext] at hd
        obtain ⟨d', hd', rfl⟩ := Option.map_eq_some_iff.mp hd
        rw [hwhole d' hd']

/-- The length of a call, read off the last two characters. -/
theorem decodedLength_eq (t : List UInt8) (hfour : 4 ∣ t.length) :
    decodedLength t t.length = .ok (predicted t : ℤ) := by
  have hdiv : (t.length : ℤ).tdiv 4 * 3 = (t.length / 4 * 3 : ℕ) := by
    rw [Int.tdiv_eq_ediv_of_nonneg (by omega)]
    omega
  have hlast : ((t.length : ℤ) - 1).toNat = t.length - 1 := by omega
  have hprevious : ((t.length : ℤ) - 2).toNat = t.length - 2 := by omega
  unfold decodedLength predicted
  rw [hdiv, hlast, hprevious]
  split
  · next hge =>
    rw [read_lt (show t.length - 1 < t.length by omega), read_lt (show t.length - 2 < t.length by omega),
      List.getElem?_eq_getElem (show t.length - 1 < t.length by omega),
      List.getElem?_eq_getElem (show t.length - 2 < t.length by omega)]
    simp only [ok_bind, Option.some.injEq]
    split <;> split <;> exact congrArg Except.ok (by omega)
  · next hlt =>
    have hnil : t = [] := List.length_eq_zero_iff.mp (by omega)
    rw [hnil]
    rfl

theorem legal_iff (t : List UInt8) : ((t.length : ℤ) < 0 ∨ (t.length : ℤ).tmod 4 ≠ 0) ↔ ¬ 4 ∣ t.length := by
  rw [Int.tmod_eq_emod_of_nonneg (by omega)]
  omega

/-- `decode` on a text of whole groups. -/
theorem decode_eq (t buf : List UInt8) (outlen : ℤ) (hfour : 4 ∣ t.length)
    (hbuf : predicted t ≤ buf.length) (houtlen : (predicted t : ℤ) ≤ outlen) :
    ∃ written, decode t t.length (some buf) (some outlen) =
        .ok ⟨(decodeText t).elim (-1) (fun d => (d.length : ℤ)), some (written ++ buf.drop written.length),
          some outlen⟩ ∧ Decoded t written := by
  obtain ⟨written, hloop, hdecoded⟩ : ∃ written, decodeLoop t t.length (t.length + 1) 0 0 buf =
      .ok ((decodeText t).elim (-1) (fun d => (d.length : ℤ)), written ++ buf.drop written.length) ∧
        Decoded t written :=
    decodeLoop_eq t [] [] buf (t.length + 1) hfour (by simp) hbuf (by omega)
  refine ⟨written, ?_, hdecoded⟩
  simp only [decode, if_neg (fun h => (legal_iff t).mp h hfour), decodedLength_eq t hfour, ok_bind, if_neg (show ¬ outlen < predicted t by omega),
    Int.toNat_natCast, hloop]

end Decoding

section Alphabet

theorem symbol_index {v : ℕ} (hv : v < 64) :
    idxofch (symbol v) = Int32.ofNat v ∧ symbol v ≠ ascii '=' ∧ Int32.ofNat v ≠ -1 := by
  revert v
  decide +kernel

theorem idxofch_symbol {v : ℕ} (hv : v < 64) : idxofch (symbol v) = Int32.ofNat v := (symbol_index hv).1

theorem symbol_ne_pad {v : ℕ} (hv : v < 64) : symbol v ≠ ascii '=' := (symbol_index hv).2.1

theorem ofNat_ne_neg {v : ℕ} (hv : v < 64) : Int32.ofNat v ≠ -1 := (symbol_index hv).2.2

/-- A character of the alphabet. -/
def InAlphabet (c : UInt8) : Prop := ∃ v < 64, symbol v = c

instance (c : UInt8) : Decidable (InAlphabet c) := inferInstanceAs (Decidable (∃ v < 64, symbol v = c))

theorem InAlphabet.ne_pad {c : UInt8} (h : InAlphabet c) : c ≠ ascii '=' := by
  obtain ⟨v, hv, rfl⟩ := h
  exact symbol_ne_pad hv

/-- The table maps the alphabet, and the padding besides. -/
theorem idxofch_ne_neg_iff (c : UInt8) : idxofch c ≠ -1 ↔ InAlphabet c ∨ c = ascii '=' := by
  constructor
  · have hindex : ∀ c : UInt8, idxofch c = -1 ∨ c = ascii '=' ∨
        (idxofch c).toNatClampNeg < 64 ∧ symbol (idxofch c).toNatClampNeg = c := by
      apply forall_byte
      decide +kernel
    intro h
    rcases hindex c with hneg | hpad | ⟨hlt, hsymbol⟩
    · exact absurd hneg h
    · exact .inr hpad
    · exact .inl ⟨_, hlt, hsymbol⟩
  · rintro (⟨v, hv, rfl⟩ | rfl)
    · rw [idxofch_symbol hv]
      exact ofNat_ne_neg hv
    · decide +kernel

theorem corrupted_eq_false_iff (c1 c2 c3 c4 : UInt8) :
    corrupted c1 c2 c3 c4 = false ↔ InAlphabet c1 ∧ InAlphabet c2 ∧
      (InAlphabet c3 ∨ c3 = ascii '=') ∧ (InAlphabet c4 ∨ c4 = ascii '=') := by
  have hdata : ∀ c : UInt8, InAlphabet c ↔ idxofch c ≠ -1 ∧ c ≠ ascii '=' := by
    intro c
    rw [idxofch_ne_neg_iff]
    exact ⟨fun h => ⟨.inl h, h.ne_pad⟩, fun h => h.1.resolve_right h.2⟩
  rw [← idxofch_ne_neg_iff c3, ← idxofch_ne_neg_iff c4, hdata c1, hdata c2]
  simp only [corrupted, Bool.or_eq_false_iff, decide_eq_false_iff_not, ne_eq]
  constructor
  · rintro ⟨⟨⟨⟨⟨h1, h2⟩, h3⟩, h4⟩, hpad1⟩, hpad2⟩
    exact ⟨⟨h1, hpad1⟩, ⟨h2, hpad2⟩, h3, h4⟩
  · rintro ⟨⟨h1, hpad1⟩, ⟨h2, hpad2⟩, h3, h4⟩
    exact ⟨⟨⟨⟨⟨h1, h2⟩, h3⟩, h4⟩, hpad1⟩, hpad2⟩

end Alphabet

section RoundTrip

/-- The decoder puts two parts of a byte together. -/
theorem parts_join :
    (∀ v < 64, ∀ w < 4, toChar ((Int32.ofNat v <<< 2) ||| Int32.ofNat w) = UInt8.ofNat (v * 4 + w)) ∧
    (∀ v < 16, ∀ w < 16, toChar ((Int32.ofNat v <<< 4) ||| Int32.ofNat w) = UInt8.ofNat (v * 16 + w)) ∧
    ∀ v < 4, ∀ w < 64, toChar ((Int32.ofNat v <<< 6) ||| Int32.ofNat w) = UInt8.ofNat (v * 64 + w) := by
  decide +kernel

theorem shifted_join {v w : ℕ} (hv : v < 64) (hw : w < 4) :
    toChar ((Int32.ofNat v <<< 2) ||| Int32.ofNat w) = UInt8.ofNat (v * 4 + w) := parts_join.1 v hv w hw

theorem halves_join {v w : ℕ} (hv : v < 16) (hw : w < 16) :
    toChar ((Int32.ofNat v <<< 4) ||| Int32.ofNat w) = UInt8.ofNat (v * 16 + w) := parts_join.2.1 v hv w hw

theorem ends_join {v w : ℕ} (hv : v < 4) (hw : w < 64) :
    toChar ((Int32.ofNat v <<< 6) ||| Int32.ofNat w) = UInt8.ofNat (v * 64 + w) := parts_join.2.2 v hv w hw

/-- The parts of a digit that the decoder masks out. -/
theorem digit_parts {v : ℕ} (hv : v < 64) :
    (Int32.ofNat v >>> 4) &&& 0x03 = Int32.ofNat (v / 16) ∧ Int32.ofNat v &&& 0x0f = Int32.ofNat (v % 16) ∧
      (Int32.ofNat v >>> 2) &&& 0x0f = Int32.ofNat (v / 4) ∧ Int32.ofNat v &&& 0x03 = Int32.ofNat (v % 4) := by
  revert v
  decide +kernel

theorem decodeGroup_symbols {v1 v2 v3 v4 : ℕ} (h1 : v1 < 64) (h2 : v2 < 64) (h3 : v3 < 64) (h4 : v4 < 64) :
    decodeGroup (symbol v1) (symbol v2) (symbol v3) (symbol v4) =
      [UInt8.ofNat (v1 * 4 + v2 / 16), UInt8.ofNat (v2 % 16 * 16 + v3 / 4), UInt8.ofNat (v3 % 4 * 64 + v4)] := by
  obtain ⟨htop, hlow, -, -⟩ := digit_parts h2
  obtain ⟨-, -, hhigh, hend⟩ := digit_parts h3
  simp only [decodeGroup, if_neg (symbol_ne_pad h3), if_neg (symbol_ne_pad h4), idxofch_symbol h1,
    idxofch_symbol h2, idxofch_symbol h3, idxofch_symbol h4, htop, hlow, hhigh, hend,
    shifted_join h1 (show v2 / 16 < 4 by omega), halves_join (show v2 % 16 < 16 by omega) (show v3 / 4 < 16 by omega),
    ends_join (show v3 % 4 < 4 by omega) h4]

theorem decodeGroup_pair {v1 v2 v3 : ℕ} (h1 : v1 < 64) (h2 : v2 < 64) (h3 : v3 < 64) :
    decodeGroup (symbol v1) (symbol v2) (symbol v3) (ascii '=') =
      [UInt8.ofNat (v1 * 4 + v2 / 16), UInt8.ofNat (v2 % 16 * 16 + v3 / 4)] := by
  obtain ⟨htop, hlow, -, -⟩ := digit_parts h2
  obtain ⟨-, -, hhigh, -⟩ := digit_parts h3
  simp only [decodeGroup, if_neg (symbol_ne_pad h3), if_true, idxofch_symbol h1, idxofch_symbol h2,
    idxofch_symbol h3, htop, hlow, hhigh, shifted_join h1 (show v2 / 16 < 4 by omega),
    halves_join (show v2 % 16 < 16 by omega) (show v3 / 4 < 16 by omega)]

theorem decodeGroup_single {v1 v2 : ℕ} (h1 : v1 < 64) (h2 : v2 < 64) :
    decodeGroup (symbol v1) (symbol v2) (ascii '=') (ascii '=') = [UInt8.ofNat (v1 * 4 + v2 / 16)] := by
  obtain ⟨htop, -, -, -⟩ := digit_parts h2
  simp only [decodeGroup, if_true, idxofch_symbol h1, idxofch_symbol h2, htop,
    shifted_join h1 (show v2 / 16 < 4 by omega)]

theorem inAlphabet_symbol {v : ℕ} (hv : v < 64) : InAlphabet (symbol v) := ⟨v, hv, rfl⟩

theorem decodeText_textForm (x : List UInt8) : decodeText (textForm x) = some x := by
  induction x using textForm.induct with
  | case1 => rfl
  | case2 a =>
    have ha := a.toNat_lt
    have hgood : corrupted (symbol (a.toNat / 4)) (symbol (a.toNat % 4 * 16)) (ascii '=') (ascii '=') = false :=
      (corrupted_eq_false_iff ..).mpr
        ⟨inAlphabet_symbol (by omega), inAlphabet_symbol (by omega), .inr rfl, .inr rfl⟩
    have hbyte : a.toNat / 4 * 4 + a.toNat % 4 * 16 / 16 = a.toNat := by omega
    rw [textForm_single, decodeText, hgood, if_neg Bool.false_ne_true, if_pos (.inl rfl),
      decodeGroup_single (by omega) (by omega), hbyte, UInt8.ofNat_toNat]
  | case3 a b =>
    have ha := a.toNat_lt
    have hb := b.toNat_lt
    have hgood : corrupted (symbol (a.toNat / 4)) (symbol (a.toNat % 4 * 16 + b.toNat / 16))
        (symbol (b.toNat % 16 * 4)) (ascii '=') = false :=
      (corrupted_eq_false_iff ..).mpr ⟨inAlphabet_symbol (by omega), inAlphabet_symbol (by omega),
        .inl (inAlphabet_symbol (by omega)), .inr rfl⟩
    have hfirst : a.toNat / 4 * 4 + (a.toNat % 4 * 16 + b.toNat / 16) / 16 = a.toNat := by omega
    have hsecond : (a.toNat % 4 * 16 + b.toNat / 16) % 16 * 16 + b.toNat % 16 * 4 / 4 = b.toNat := by omega
    rw [textForm_pair, decodeText, hgood, if_neg Bool.false_ne_true, if_pos (.inr rfl),
      decodeGroup_pair (by omega) (by omega) (by omega), hfirst, hsecond, UInt8.ofNat_toNat, UInt8.ofNat_toNat]
  | case4 a b c rest ih =>
    have ha := a.toNat_lt
    have hb := b.toNat_lt
    have hc := c.toNat_lt
    have hgood : corrupted (symbol (a.toNat / 4)) (symbol (a.toNat % 4 * 16 + b.toNat / 16))
        (symbol (b.toNat % 16 * 4 + c.toNat / 64)) (symbol (c.toNat % 64)) = false :=
      (corrupted_eq_false_iff ..).mpr ⟨inAlphabet_symbol (by omega), inAlphabet_symbol (by omega),
        .inl (inAlphabet_symbol (by omega)), .inl (inAlphabet_symbol (by omega))⟩
    have hplain : ¬ (symbol (b.toNat % 16 * 4 + c.toNat / 64) = ascii '=' ∨ symbol (c.toNat % 64) = ascii '=') :=
      not_or.mpr ⟨symbol_ne_pad (by omega), symbol_ne_pad (by omega)⟩
    have hfirst : a.toNat / 4 * 4 + (a.toNat % 4 * 16 + b.toNat / 16) / 16 = a.toNat := by omega
    have hsecond : (a.toNat % 4 * 16 + b.toNat / 16) % 16 * 16 + (b.toNat % 16 * 4 + c.toNat / 64) / 4 =
        b.toNat := by omega
    have hthird : (b.toNat % 16 * 4 + c.toNat / 64) % 4 * 64 + c.toNat % 64 = c.toNat := by omega
    rw [textForm_cons, List.cons_append, List.cons_append, List.cons_append, List.cons_append,
      List.nil_append, decodeText, hgood, if_neg Bool.false_ne_true, if_neg hplain, ih, Option.map_some,
      decodeGroup_symbols (by omega) (by omega) (by omega) (by omega), hfirst, hsecond, hthird,
      UInt8.ofNat_toNat, UInt8.ofNat_toNat, UInt8.ofNat_toNat]
    rfl

/-- Every input is encoded as its text form, and the text form is decoded to it. -/
theorem encode_decode (x : List UInt8) (hx : x.length ≤ 1610612733) (buf buf' : List UInt8)
    (outlen outlen' : ℤ) (hbuf : 4 * ((x.length + 2) / 3) ≤ buf.length)
    (houtlen : (4 * ((x.length + 2) / 3) : ℕ) ≤ outlen) (hbuf' : 3 * ((x.length + 2) / 3) ≤ buf'.length)
    (houtlen' : (3 * ((x.length + 2) / 3) : ℕ) ≤ outlen') :
    encode x x.length (some buf) (some outlen) =
        .ok ⟨(4 * ((x.length + 2) / 3) : ℕ), some (textForm x ++ buf.drop (4 * ((x.length + 2) / 3))),
          some outlen⟩ ∧
      decode (textForm x) (textForm x).length (some buf') (some outlen') =
        .ok ⟨x.length, some (x ++ buf'.drop x.length), some outlen'⟩ := by
  have hlength := textForm_length x
  constructor
  · rw [← hlength] at hbuf houtlen ⊢
    exact encode_eq x hx buf outlen hbuf houtlen
  · have hpredicted := predicted_le (textForm x)
    obtain ⟨written, hdecode, hdecoded⟩ := decode_eq (textForm x) buf' outlen'
      (by rw [hlength]; exact ⟨_, rfl⟩) (by omega) (by omega)
    rw [hdecode, hdecoded.whole x (decodeText_textForm x), decodeText_textForm, Option.elim_some]

theorem encode_decode_four_bytes :
    encode [0xff, 0x80, 0x03, 0x04] 4 (some [1, 2, 3, 4, 5, 6, 7, 8, 9]) (some 9) =
        .ok ⟨8, some (textForm [0xff, 0x80, 0x03, 0x04] ++ [9]), some 9⟩ ∧
      decode (textForm [0xff, 0x80, 0x03, 0x04]) (textForm [0xff, 0x80, 0x03, 0x04]).length
          (some [1, 2, 3, 4, 5, 6]) (some 6) =
        .ok ⟨4, some [0xff, 0x80, 0x03, 0x04, 5, 6], some 6⟩ :=
  encode_decode [0xff, 0x80, 0x03, 0x04] (by decide) [1, 2, 3, 4, 5, 6, 7, 8, 9] [1, 2, 3, 4, 5, 6] 9 6
    (by decide) (by decide) (by decide) (by decide)

end RoundTrip

section Acceptance

/-- Groups of four characters of the alphabet. In the last group the last character, or
the last two, may be padding. -/
def WellFormed : List UInt8 → Prop
  | [] => True
  | [c1, c2, c3, c4] =>
    InAlphabet c1 ∧ InAlphabet c2 ∧
      (InAlphabet c3 ∧ InAlphabet c4 ∨ InAlphabet c3 ∧ c4 = ascii '=' ∨ c3 = ascii '=' ∧ c4 = ascii '=')
  | c1 :: c2 :: c3 :: c4 :: rest =>
    (InAlphabet c1 ∧ InAlphabet c2 ∧ InAlphabet c3 ∧ InAlphabet c4) ∧ WellFormed rest
  | _ => False

/-- A group with padding in its third or fourth place that is without fault otherwise. -/
def PaddedGroup (c1 c2 c3 c4 : UInt8) : Prop :=
  InAlphabet c1 ∧ InAlphabet c2 ∧
    (c3 = ascii '=' ∧ (InAlphabet c4 ∨ c4 = ascii '=') ∨ InAlphabet c3 ∧ c4 = ascii '=')

/-- In a text of whole groups, a padded group that follows data only is the last group,
and has no data after its padding. -/
def PaddingEnds (t : List UInt8) : Prop :=
  4 ∣ t.length → ∀ before c1 c2 c3 c4 rest, t = before ++ c1 :: c2 :: c3 :: c4 :: rest →
    4 ∣ before.length → (∀ c ∈ before, InAlphabet c) → PaddedGroup c1 c2 c3 c4 →
    rest = [] ∧ (c3 = ascii '=' → c4 = ascii '=')

variable {c1 c2 c3 c4 : UInt8} {rest : List UInt8}

theorem wellFormed_group : WellFormed (c1 :: c2 :: c3 :: c4 :: rest) ↔
    InAlphabet c1 ∧ InAlphabet c2 ∧ (InAlphabet c3 ∧ InAlphabet c4 ∧ WellFormed rest ∨
      rest = [] ∧ c4 = ascii '=' ∧ (InAlphabet c3 ∨ c3 = ascii '=')) := by
  cases rest with
  | nil =>
    simp only [WellFormed]
    tauto
  | cons c rest =>
    simp only [WellFormed, reduceCtorEq, false_and, or_false]
    tauto

theorem paddingEnds_group (hfour : 4 ∣ (c1 :: c2 :: c3 :: c4 :: rest).length) :
    PaddingEnds (c1 :: c2 :: c3 :: c4 :: rest) ↔
      (PaddedGroup c1 c2 c3 c4 → rest = [] ∧ (c3 = ascii '=' → c4 = ascii '=')) ∧
        (InAlphabet c1 → InAlphabet c2 → InAlphabet c3 → InAlphabet c4 → PaddingEnds rest) := by
  have hrest := four_dvd_rest hfour
  constructor
  · intro h
    refine ⟨?_, ?_⟩
    · exact h hfour [] c1 c2 c3 c4 rest rfl ⟨0, rfl⟩ (fun c hc => absurd hc List.not_mem_nil)
    · intro h1 h2 h3 h4 _ before d1 d2 d3 d4 tail heq hbefore hdata
      refine h hfour (c1 :: c2 :: c3 :: c4 :: before) d1 d2 d3 d4 tail (by rw [heq]; rfl) ?_ ?_
      · simp only [List.length_cons]
        omega
      · intro c hc
        simp only [List.mem_cons] at hc
        rcases hc with rfl | rfl | rfl | rfl | hc
        exacts [h1, h2, h3, h4, hdata c hc]
  · rintro ⟨hhead, htail⟩ _ before d1 d2 d3 d4 tail heq hbefore hdata hpadded
    match before, hbefore with
    | [], _ =>
      simp only [List.nil_append, List.cons.injEq] at heq
      obtain ⟨rfl, rfl, rfl, rfl, rfl⟩ := heq
      exact hhead hpadded
    | [_], hbefore => exact absurd hbefore (by simp)
    | [_, _], hbefore => exact absurd hbefore (by simp)
    | [_, _, _], hbefore => exact absurd hbefore (by simp)
    | b1 :: b2 :: b3 :: b4 :: before, hbefore =>
      simp only [List.cons_append, List.cons.injEq] at heq
      obtain ⟨rfl, rfl, rfl, rfl, rfl⟩ := heq
      simp only [List.mem_cons, forall_eq_or_imp] at hdata
      obtain ⟨h1, h2, h3, h4, hdata⟩ := hdata
      exact htail h1 h2 h3 h4 hrest before d1 d2 d3 d4 tail rfl (four_dvd_rest hbefore) hdata hpadded

theorem PaddedGroup.uncorrupted (h : PaddedGroup c1 c2 c3 c4) : corrupted c1 c2 c3 c4 = false := by
  obtain ⟨h1, h2, ⟨h3, h4⟩ | ⟨h3, h4⟩⟩ := h
  · exact (corrupted_eq_false_iff ..).mpr ⟨h1, h2, .inr h3, h4⟩
  · exact (corrupted_eq_false_iff ..).mpr ⟨h1, h2, .inl h3, .inr h4⟩

theorem PaddedGroup.padded (h : PaddedGroup c1 c2 c3 c4) : c3 = ascii '=' ∨ c4 = ascii '=' := by
  obtain ⟨-, -, ⟨h3, -⟩ | ⟨-, h4⟩⟩ := h
  · exact .inl h3
  · exact .inr h4

/-- A group that the decoder takes is a padded one or has data only. -/
theorem padded_or_data (h : corrupted c1 c2 c3 c4 = false) :
    PaddedGroup c1 c2 c3 c4 ∨ InAlphabet c1 ∧ InAlphabet c2 ∧ InAlphabet c3 ∧ InAlphabet c4 := by
  obtain ⟨h1, h2, h3, h4⟩ := (corrupted_eq_false_iff ..).mp h
  rcases h3 with h3 | h3
  · rcases h4 with h4 | h4
    · exact .inr ⟨h1, h2, h3, h4⟩
    · exact .inl ⟨h1, h2, .inr ⟨h3, h4⟩⟩
  · exact .inl ⟨h1, h2, .inl ⟨h3, h4⟩⟩

theorem WellFormed.uncorrupted (h : WellFormed (c1 :: c2 :: c3 :: c4 :: rest)) :
    corrupted c1 c2 c3 c4 = false := by
  obtain ⟨h1, h2, ⟨h3, h4, -⟩ | ⟨-, h4, h3⟩⟩ := wellFormed_group.mp h
  · exact (corrupted_eq_false_iff ..).mpr ⟨h1, h2, .inl h3, .inl h4⟩
  · exact (corrupted_eq_false_iff ..).mpr ⟨h1, h2, h3, .inr h4⟩

/-- A padded group is well formed only at the end. -/
theorem wellFormed_padded (h : PaddedGroup c1 c2 c3 c4) :
    WellFormed (c1 :: c2 :: c3 :: c4 :: rest) ↔ rest = [] ∧ (c3 = ascii '=' → c4 = ascii '=') := by
  rw [wellFormed_group]
  obtain ⟨h1, h2, h34⟩ := h
  constructor
  · rintro ⟨-, -, ⟨h3, h4, -⟩ | ⟨hrest, h4, -⟩⟩
    · rcases h34 with ⟨hpad, -⟩ | ⟨-, hpad⟩
      · exact absurd hpad h3.ne_pad
      · exact absurd hpad h4.ne_pad
    · exact ⟨hrest, fun _ => h4⟩
  · rintro ⟨hrest, hends⟩
    refine ⟨h1, h2, .inr ⟨hrest, ?_⟩⟩
    rcases h34 with ⟨hpad, -⟩ | ⟨hdata, hpad⟩
    · exact ⟨hends hpad, .inr hpad⟩
    · exact ⟨hpad, .inl hdata⟩

/-- A group of data leaves the question to the groups behind it. -/
theorem wellFormed_data (h1 : InAlphabet c1) (h2 : InAlphabet c2) (h3 : InAlphabet c3) (h4 : InAlphabet c4) :
    WellFormed (c1 :: c2 :: c3 :: c4 :: rest) ↔ WellFormed rest := by
  rw [wellFormed_group]
  constructor
  · rintro ⟨-, -, ⟨-, -, hrest⟩ | ⟨-, hpad, -⟩⟩
    · exact hrest
    · exact absurd hpad h4.ne_pad
  · intro hrest
    exact ⟨h1, h2, .inl ⟨h3, h4, hrest⟩⟩

/-- The decoder's verdict on a text of whole groups. -/
theorem decodeText_isSome_iff (t : List UInt8) (hfour : 4 ∣ t.length) :
    ((decodeText t).isSome = true ↔ WellFormed t) ↔ PaddingEnds t := by
  induction t, hfour using groups_induction with
  | nil => simp [decodeText, WellFormed, PaddingEnds]
  | group c1 c2 c3 c4 rest hfour ih =>
    rw [paddingEnds_group hfour, decodeText]
    cases hgroup : corrupted c1 c2 c3 c4 with
    | true =>
      have hformed : ¬ WellFormed (c1 :: c2 :: c3 :: c4 :: rest) := by
        intro h
        rw [h.uncorrupted] at hgroup
        cases hgroup
      have hpadded : ¬ PaddedGroup c1 c2 c3 c4 := by
        intro h
        rw [h.uncorrupted] at hgroup
        cases hgroup
      refine iff_of_true (iff_of_false Bool.false_ne_true hformed) ⟨fun h => absurd h hpadded, ?_⟩
      intro h1 h2 h3 h4
      rw [(corrupted_eq_false_iff ..).mpr ⟨h1, h2, .inl h3, .inl h4⟩] at hgroup
      cases hgroup
    | false =>
      rw [if_neg Bool.false_ne_true]
      rcases padded_or_data hgroup with hpadded | ⟨h1, h2, h3, h4⟩
      · rw [if_pos hpadded.padded, wellFormed_padded hpadded]
        have hdata : InAlphabet c3 → ¬ InAlphabet c4 := by
          intro h3 h4
          exact hpadded.padded.elim h3.ne_pad h4.ne_pad
        constructor
        · intro h
          exact ⟨fun _ => h.mp rfl, fun _ _ h3 h4 => absurd h4 (hdata h3)⟩
        · intro h
          exact iff_of_true rfl (h.1 hpadded)
      · have hplain : ¬ (c3 = ascii '=' ∨ c4 = ascii '=') := not_or.mpr ⟨h3.ne_pad, h4.ne_pad⟩
        have hpadded : ¬ PaddedGroup c1 c2 c3 c4 := fun h => hplain h.padded
        rw [if_neg hplain, Option.isSome_map, wellFormed_data h1 h2 h3 h4, ih]
        constructor
        · intro h
          exact ⟨fun h => absurd h hpadded, fun _ _ _ _ => h⟩
        · intro h
          exact h.2 h1 h2 h3 h4

theorem WellFormed.whole_groups {t : List UInt8} (h : WellFormed t) : 4 ∣ t.length := by
  induction t using WellFormed.induct with
  | case1 => exact ⟨0, rfl⟩
  | case2 c1 c2 c3 c4 => exact ⟨1, rfl⟩
  | case3 c1 c2 c3 c4 rest hrest ih =>
    have hlength := ih (by rw [WellFormed] at h; exact h.2; exact hrest)
    simp only [List.length_cons]
    omega
  | case4 t hnil hlast hgroup =>
    rw [WellFormed] at h
    · exact h.elim
    · exact hnil
    · exact hlast
    · exact hgroup

/-- `decode` accepts exactly the well-formed texts among the inputs whose padding ends
the text, and no other input. -/
theorem decode_accepts_iff (t buf : List UInt8) (outlen : ℤ) (hbuf : t.length / 4 * 3 ≤ buf.length)
    (houtlen : (t.length / 4 * 3 : ℕ) ≤ outlen) :
    (Returns (decode t t.length (some buf) (some outlen)) (fun r => 0 ≤ r.ret) ↔ WellFormed t) ↔
      PaddingEnds t := by
  by_cases hfour : 4 ∣ t.length
  · rw [← decodeText_isSome_iff t hfour]
    have hpredicted := predicted_le t
    obtain ⟨written, hdecode, -⟩ := decode_eq t buf outlen hfour (by omega) (by omega)
    have hverdict : Returns (decode t t.length (some buf) (some outlen)) (fun r => 0 ≤ r.ret) ↔
        (decodeText t).isSome = true := by
      rw [hdecode]
      cases decodeText t with
      | none => simp [Returns]
      | some d => simp [Returns]
    rw [hverdict]
  · have hformed : ¬ WellFormed t := fun h => hfour h.whole_groups
    have hreject : ¬ Returns (decode t t.length (some buf) (some outlen)) (fun r => 0 ≤ r.ret) := by
      rw [decode, if_pos ((legal_iff t).mpr hfour)]
      rintro ⟨r, hr, hret⟩
      cases hr
      exact absurd hret (by norm_num)
    exact iff_of_true (iff_of_false hreject hformed) (fun h => absurd h hfour)

theorem decode_accepts_iff_quad :
    (Returns (decode (textForm [1, 2, 3]) (textForm [1, 2, 3]).length (some [0, 0, 0]) (some 3))
        (fun r => 0 ≤ r.ret) ↔ WellFormed (textForm [1, 2, 3])) ↔ PaddingEnds (textForm [1, 2, 3]) :=
  decode_accepts_iff (textForm [1, 2, 3]) [0, 0, 0] 3 (by decide) (by decide)

/-- `AA==AAAA` has padding in its first group. -/
theorem decode_padding_inside :
    ¬ ∀ (t buf : List UInt8) (outlen : ℤ), t.length / 4 * 3 ≤ buf.length →
      (t.length / 4 * 3 : ℕ) ≤ outlen →
      (Returns (decode t t.length (some buf) (some outlen)) (fun r => 0 ≤ r.ret) ↔ WellFormed t) := by
  intro h
  have hinside := (h ("AA==AAAA".toList.map ascii) [0, 0, 0, 0, 0, 0] 6 (by decide) (by decide)).mp (by decide +kernel)
  have hpad := hinside.1.2.2.1.ne_pad
  exact hpad (by decide)

end Acceptance

end LibXpf.Base64
