import LibXpf.Utf.BackAgain

/-! # Conversions of strings

`to_utf8`, `to_ucs2`, `to_ucs4` and `to_wchar` convert a string into a buffer of eight units for
each of its units and one more, and take the result up to the first null. The buffer is never too
short for the result and its null.
-/
namespace LibXpf.Utf
open Buffers UnitCodes

instance (w : Width) : DecidableEq w.Unit :=
  match w with
  | .one => inferInstanceAs (DecidableEq UInt8)
  | .two => inferInstanceAs (DecidableEq UInt16)
  | .four => inferInstanceAs (DecidableEq UInt32)

/-- What a string has that is assigned from a pointer to these units. -/
def unitsOf {β : Type} [DecidableEq β] (nul : β) : List β → Except Fault (List β)
  | [] => .error .outOfBounds
  | c :: rest => if c = nul then .ok [] else (unitsOf nul rest).map (c :: ·)

/-- The body the four functions share; what a new buffer contains comes from outside. -/
def convert (scw dcw : Width) (garbage : ℕ → dcw.Unit) (src : List scw.Unit) : Except Fault (List dcw.Unit) :=
  if src.isEmpty then .ok []
  else do
    let blen := u32 (src.length * 8 + 1)
    let buf := (List.range blen).map garbage
    let c ← utfConvInner scw dcw (src ++ [scw.nul]) buf (s32 src.length) (s32 blen)
    if c.cnt > 0 then unitsOf dcw.nul c.dbuf else .ok []

def to_utf8 (scw : Width) := convert scw .one

def to_ucs2 (scw : Width) := convert scw .two

def to_ucs4 (scw : Width) := convert scw .four

/-- The width of `wchar_t` depends on the platform. -/
def to_wchar (wchar scw : Width) := convert scw wchar

section Buffers

variable {β : Type} [DecidableEq β] {nul : β}

theorem unitsOf_terminated (s rest : List β) : unitsOf nul (s ++ nul :: rest) = .ok (s.takeWhile (· ≠ nul)) := by
  induction s with
  | nil => exact if_pos rfl
  | cons c s ih =>
    by_cases hc : c = nul
    · rw [List.takeWhile_cons_of_neg (by simpa using hc)]
      exact if_pos hc
    · rw [List.takeWhile_cons_of_pos (by simpa using hc), List.cons_append, unitsOf, if_neg hc, ih]
      rfl

end Buffers

variable {scw dcw : Width} {src : List scw.Unit}

theorem units_length (w : Width) (cp : UInt32) : (w.units cp).length ≤ 6 := by
  cases w with
  | one =>
    have hsbcnt : Utf8Writer.sbcnt cp ≤ 5 := by
      unfold Utf8Writer.sbcnt
      split_ifs <;> omega
    change (Utf8Writer.units cp).length ≤ 6
    rw [Utf8Writer.units_length]
    omega
  | two =>
    change (Ucs2Writer.units cp).length ≤ 6
    unfold Ucs2Writer.units
    split
    · exact Nat.zero_le 6
    · split
      · exact Nat.le_of_ble_eq_true rfl
      · exact Nat.le_of_ble_eq_true rfl
  | four => exact Nat.le_of_ble_eq_true rfl

theorem text_length (w : Width) (cps : List UInt32) : (w.text cps).length ≤ 6 * cps.length := by
  induction cps with
  | nil => exact Nat.zero_le _
  | cons cp cps ih =>
    have hunits := units_length w cp
    rw [text_cons, List.length_append, List.length_cons]
    omega

/-- The buffer has room for the text and a null, also where its length is no positive `s32`. -/
theorem converted_room (dcw : Width) (garbage : ℕ → dcw.Unit) (h : src.length < 2 ^ 29) :
    Room ⟨0, s32 (u32 (src.length * 8 + 1))⟩ ((List.range (u32 (src.length * 8 + 1))).map garbage)
      (dcw.text (scw.codes src)).length := by
  have hcodes : (scw.codes src).length ≤ src.length := decode_length_le (next_shrinks scw) src
  have htext := text_length dcw (scw.codes src)
  rw [u32_of_lt (by omega)]
  constructor
  · rw [List.length_map, List.length_range]
    omega
  · rcases Nat.lt_or_ge (src.length * 8 + 1) (2 ^ 31) with hlow | hhigh
    · right
      rw [s32_of_mem (by omega) (by omega)]
      dsimp only
      omega
    · left
      have hwraps : s32 (src.length * 8 + 1 : ℕ) = (src.length * 8 + 1 : ℕ) - 2 ^ 32 := by
        rw [s32, Int.bmod_def]
        omega
      rw [hwraps]
      dsimp only
      omega

/-- For every string of fewer than 2^29 units, well formed or not: the conversion stays inside its
buffer, and returns what the reader reads up to the first null. -/
theorem convert_reads (scw dcw : Width) (garbage : ℕ → dcw.Unit) (src : List scw.Unit) (h : src.length < 2 ^ 29) :
    convert scw dcw garbage src = .ok ((dcw.text (scw.codes src)).takeWhile (· ≠ dcw.nul)) := by
  cases hsrc : src with
  | nil =>
    have hstop : scw.next [] = none := by cases scw <;> rfl
    rw [codes_of_none hstop]
    rfl
  | cons c rest =>
    rw [← hsrc]
    have hlength : s32 src.length = src.length := s32_of_mem (by omega) (by omega)
    have hholds : Holds scw src (src ++ [scw.nul]) src.length := .counted _
    obtain ⟨ahead, hahead, hcodes⟩ := hholds.ahead
    have hroom := converted_room dcw garbage h
    rw [← hcodes] at hroom
    obtain ⟨conv, hrun, hconverted⟩ := utfConvInner_room hahead hroom
    have hcount : (scw.codes src).length ≤ src.length := decode_length_le (next_shrinks scw) src
    have hcnt : conv.cnt = (scw.codes src).length := by
      rw [hconverted.cnt, hcodes]
      exact s32_of_mem (by omega) (by omega)
    have hne : src.isEmpty = false := by rw [hsrc]; rfl
    rw [convert, hne, if_neg Bool.false_ne_true, hlength]
    dsimp only
    rw [hrun, ok_bind, hcnt, hconverted.dbuf, hcodes, unitsOf_terminated]
    by_cases hnil : scw.codes src = []
    · rw [hnil]
      rfl
    · have hpos := List.length_pos_of_ne_nil hnil
      rw [if_pos (by omega)]

/-- The euro sign, and a null in two bytes that ends the result. -/
theorem convert_reads_euro :
    convert .one .two (fun _ => (7 : UInt16)) [0xE2, 0x82, 0xAC, 0xC0, 0x80, 0x61] =
      .ok ((Width.two.text (Width.one.codes [0xE2, 0x82, 0xAC, 0xC0, 0x80, 0x61])).takeWhile (· ≠ (0 : UInt16))) :=
  convert_reads .one .two _ [0xE2, 0x82, 0xAC, 0xC0, 0x80, 0x61] (by decide)

section Texts

theorem Utf8Reader.next_split {l rest : List UInt8} {cp : UInt32} (h : Utf8Reader.next l = some (cp, rest)) :
    ∃ pre, l = pre ++ rest ∧ 0 ∉ pre := by
  cases l with
  | nil => cases h
  | cons c l =>
    rw [Utf8Reader.next] at h
    split at h
    · cases h
    · next hzero =>
      cases hfirst : Utf8Reader.first c with
      | none => simp [hfirst] at h
      | some p =>
        rw [hfirst] at h
        obtain ⟨pre, hpre, -, hnul⟩ := collect_split h
        exact ⟨c :: pre, by rw [hpre, List.cons_append], by simp [Ne.symm hzero, hnul]⟩

theorem nul_notMem_encodeChar (w : Width) {c : Char} (hc : c ≠ '\x00') : w.nul ∉ w.encodeChar c := by
  have hscalar := scalar_val hc
  rw [← units_val]
  cases w with
  | one =>
    have hnext : Utf8Reader.next (Utf8Writer.units c.val ++ []) = some (c.val, []) := next_val .one hc []
    obtain ⟨pre, hpre, hnul⟩ := Utf8Reader.next_split hnext
    rw [List.append_nil, List.append_nil] at hpre
    change (0 : UInt8) ∉ Utf8Writer.units c.val
    rw [hpre]
    exact hnul
  | two =>
    change (0 : UInt16) ∉ Ucs2Writer.units c.val
    rcases Ucs2Reader.scalar_forms hscalar with ⟨u, hunits, -, hzero, -, -⟩ | ⟨u, t, hunits, -, hlead, htrail⟩
    · rw [hunits]
      simpa using hzero.symm
    · rw [hunits]
      simp [(Ucs2Reader.surrogate_ne_zero (.inl hlead)).symm, (Ucs2Reader.surrogate_ne_zero (.inr htrail)).symm]
  | four =>
    change (0 : UInt32) ∉ [c.val]
    simpa using hscalar.1.symm

theorem takeWhile_encode (w : Width) {text : List Char} (hnul : '\x00' ∉ text) :
    (w.encode text).takeWhile (· ≠ w.nul) = w.encode text := by
  apply List.takeWhile_eq_self_iff.mpr
  intro u hu
  obtain ⟨c, hc, hmem⟩ := List.mem_flatMap.mp hu
  have hne : u ≠ w.nul := by
    rintro rfl
    exact nul_notMem_encodeChar w (fun hzero => hnul (hzero ▸ hc)) hmem
  simpa using hne

/-- A text is converted up to its first null. -/
theorem convert_encode (garbage : ℕ → dcw.Unit) (text : List Char) (h : (scw.encode text).length < 2 ^ 29) :
    convert scw dcw garbage (scw.encode text) = .ok (dcw.encode (text.takeWhile (· ≠ '\x00'))) := by
  have hnul : '\x00' ∉ text.takeWhile (· ≠ '\x00') := by
    intro hmem
    simpa using List.mem_takeWhile_imp hmem
  rw [convert_reads scw dcw garbage _ h, codes_encode_takeWhile, text_val, takeWhile_encode dcw hnul]

/-- A chain of conversions, with what each of the new buffers contains. -/
def convertThrough : (w : Width) → List w.Unit → List ((w : Width) × (ℕ → w.Unit)) → Except Fault ((w : Width) × List w.Unit)
  | w, s, [] => .ok ⟨w, s⟩
  | w, s, leg :: legs => do
    let d ← convert w leg.1 leg.2 s
    convertThrough leg.1 d legs

def endWidth (w : Width) (legs : List ((w : Width) × (ℕ → w.Unit))) : Width := (legs.map Sigma.fst).getLastD w

/-- Through any number of conversions a text without a null stays the text it is, in the standard form
of the width it has come to. -/
theorem strings_keep_text (scw : Width) (text : List Char) (legs : List ((w : Width) × (ℕ → w.Unit)))
    (hnul : '\x00' ∉ text) (hlength : text.length < 2 ^ 26) :
    convertThrough scw (scw.encode text) legs = .ok ⟨endWidth scw legs, (endWidth scw legs).encode text⟩ := by
  induction legs generalizing scw with
  | nil => rfl
  | cons leg legs ih =>
    have hunits : (scw.encode text).length < 2 ^ 29 := by
      have htext := text_length scw (text.map Char.val)
      rw [text_val, List.length_map] at htext
      omega
    have hall : text.takeWhile (· ≠ '\x00') = text := by
      apply List.takeWhile_eq_self_iff.mpr
      intro c hc
      have hne : c ≠ '\x00' := fun hzero => hnul (hzero ▸ hc)
      simpa using hne
    rw [convertThrough, convert_encode leg.2 text hunits, hall, ok_bind, ih]
    cases legs with
    | nil => rfl
    | cons leg' legs => rfl

theorem strings_keep_text_euro :
    convertThrough .one (Width.one.encode ['€', '😀'])
        [⟨.two, fun _ => (7 : UInt16)⟩, ⟨.four, fun _ => (7 : UInt32)⟩, ⟨.one, fun _ => (7 : UInt8)⟩] =
      .ok ⟨.one, Width.one.encode ['€', '😀']⟩ :=
  strings_keep_text .one ['€', '😀'] _ (by decide) (by decide)

end Texts
end LibXpf.Utf
