import LibXpf.Utf.Runs
import Mathlib.Data.List.TakeWhile

/-! # Texts under conversion

A text is a list of characters without a null. Each of the nine conversions writes
the standard form of the text that it finds, so a chain of them keeps the text.
-/
namespace LibXpf.Utf
open UnitCodes

/-- The standard form of a character in the units of a width. -/
def Width.encodeChar : (w : Width) → Char → List w.Unit
  | .one => String.utf8EncodeChar
  | .two => utf16EncodeChar
  | .four => fun c => [c.val]

def Width.encode (w : Width) (text : List Char) : List w.Unit := text.flatMap w.encodeChar

/-- The buffer holds the units, by their count or up to a null. -/
inductive Holds (w : Width) (s : List w.Unit) : List w.Unit → ℤ → Prop
  | counted (beyond : List w.Unit) : Holds w s (s ++ beyond) s.length
  | terminated (beyond : List w.Unit) : Holds w s (s ++ w.nul :: beyond) (-1)

section Decoding

theorem units_val (w : Width) (c : Char) : w.units c.val = w.encodeChar c := by
  cases w with
  | one => exact utf8_units c
  | two => exact utf16_units c
  | four => rfl

theorem text_val (w : Width) (text : List Char) : w.text (text.map Char.val) = w.encode text := by
  rw [Width.text, List.flatMap_map, Width.encode]
  exact congrArg (text.flatMap ·) (funext fun c => units_val w c)

theorem scalar_val {c : Char} (h : c ≠ '\x00') : Scalar c.val :=
  ⟨fun hzero => h (Char.ext hzero), c.valid⟩

theorem next_val (w : Width) {c : Char} (h : c ≠ '\x00') (rest : List w.Unit) :
    w.next (w.units c.val ++ rest) = some (c.val, rest) := by
  have hscalar := scalar_val h
  cases w with
  | one =>
    have hlt := (scalar_iff.mp hscalar)
    exact Utf8Reader.next_units hscalar.1 (by omega) rest
  | two => exact Ucs2Reader.next_units hscalar rest
  | four => exact Ucs4Reader.next_iff.mpr ⟨⟨hscalar.1, Ucs2Reader.scalar_small hscalar⟩, rfl⟩

/-- A null at the end is not read as a part of a code point. -/
theorem next_snoc (w : Width) (s : List w.Unit) :
    w.next (s ++ [w.nul]) = (w.next s).map fun p => (p.1, p.2 ++ [w.nul]) := by
  cases w with
  | one => exact Utf8Reader.next_snoc s
  | two => exact Ucs2Reader.next_snoc s
  | four => exact Ucs4Reader.next_snoc s

theorem codes_snoc (w : Width) (s : List w.Unit) : w.codes (s ++ [w.nul]) = w.codes s := by
  have hs := next_shrinks w
  induction s using decode_induction hs with
  | stop s hnone =>
    have hsnoc := next_snoc w s
    rw [hnone] at hsnoc
    rw [Width.codes, Width.codes, decode_none hnone, decode_none hsnoc]
  | step s cp rest hsome ih =>
    have hsnoc := next_snoc w s
    rw [hsome] at hsnoc
    rw [Width.codes, Width.codes] at ih ⊢
    rw [decode_some hs hsome, decode_some hs hsnoc, ih]

theorem next_nul (w : Width) (rest : List w.Unit) : w.next (w.nul :: rest) = none := by
  cases w with
  | one => simp [Width.next, Width.nul, Utf8Reader.next]
  | two => cases rest <;> simp [Width.next, Width.nul, Ucs2Reader.next]
  | four => simp [Width.next, Width.nul, Ucs4Reader.next]

theorem encodeChar_nul (w : Width) : w.encodeChar '\x00' = [w.nul] := by
  cases w <;> decide

/-- The readers decode the standard form of a text up to its first null. -/
theorem codes_encode_takeWhile (w : Width) (text : List Char) :
    w.codes (w.encode text) = (text.takeWhile (· ≠ '\x00')).map Char.val := by
  induction text with
  | nil =>
    have hstop : w.next [] = none := by cases w <;> rfl
    rw [Width.codes, Width.encode, List.flatMap_nil, decode_none hstop]
    rfl
  | cons c text ih =>
    have hencode : w.encode (c :: text) = w.encodeChar c ++ w.encode text := List.flatMap_cons
    rw [hencode]
    by_cases hc : c = '\x00'
    · rw [hc, encodeChar_nul, List.singleton_append, Width.codes, decode_none (next_nul w _),
        List.takeWhile_cons_of_neg (by simp), List.map_nil]
    · rw [Width.codes] at ih ⊢
      rw [← units_val, decode_some (next_shrinks w) (next_val w hc _), ih,
        List.takeWhile_cons_of_pos (by simpa using hc), List.map_cons]

theorem codes_encode (w : Width) {text : List Char} (hnul : '\x00' ∉ text) :
    w.codes (w.encode text) = text.map Char.val := by
  have hall : ∀ c ∈ text, decide (c ≠ '\x00') = true := by
    intro c hc
    have hne : c ≠ '\x00' := fun hzero => hnul (hzero ▸ hc)
    simpa using hne
  rw [codes_encode_takeWhile, List.takeWhile_eq_self_iff.mpr hall]

theorem Holds.ahead {w : Width} {s sbuf : List w.Unit} {scnt : ℤ} (h : Holds w s sbuf scnt) :
    ∃ ahead, Ahead w.nul sbuf ⟨0, scnt⟩ ahead ∧ w.codes ahead = w.codes s := by
  cases h with
  | counted beyond => exact ⟨s, ⟨⟨[], beyond, rfl, rfl⟩, .inl rfl⟩, rfl⟩
  | terminated beyond =>
    exact ⟨s ++ [w.nul], ⟨⟨[], beyond, by simp, rfl⟩, .inr ⟨by norm_num, by simp⟩⟩, codes_snoc w s⟩

end Decoding

section Chains

/-- A conversion of what the one before it has left, and the count its result is passed on with. -/
structure Leg where
  width : Width
  dbuf : List width.Unit
  dcnt : ℤ
  passed : ℤ

def convertAll : (w : Width) → List w.Unit → ℤ → List Leg → Except Fault ((w : Width) × List w.Unit)
  | w, sbuf, _, [] => .ok ⟨w, sbuf⟩
  | w, sbuf, scnt, leg :: legs => do
    let c ← utfConvInner w leg.width sbuf leg.dbuf scnt leg.dcnt
    convertAll leg.width c.dbuf leg.passed legs

def lastWidth : Width → List Leg → Width
  | w, [] => w
  | _, leg :: legs => lastWidth leg.width legs

/-- The destination has room for the text, and the text is passed on up to its null or by its length. -/
structure Leg.Suits (leg : Leg) (text : List Char) : Prop where
  room : Room ⟨0, leg.dcnt⟩ leg.dbuf (leg.width.encode text).length
  passed : leg.passed = -1 ∨ leg.passed = (leg.width.encode text).length

theorem utfConvInner_text {scw dcw : Width} {text : List Char} {sbuf : List scw.Unit} {dbuf : List dcw.Unit}
    {scnt dcnt : ℤ} (hnul : '\x00' ∉ text) (h : Holds scw (scw.encode text) sbuf scnt)
    (hroom : Room ⟨0, dcnt⟩ dbuf (dcw.encode text).length) :
    ∃ c, utfConvInner scw dcw sbuf dbuf scnt dcnt = .ok c ∧ c.cnt = s32 text.length ∧
      c.dbuf = dcw.encode text ++ dcw.nul :: dbuf.drop ((dcw.encode text).length + 1) := by
  obtain ⟨ahead, hahead, hcodes⟩ := h.ahead
  rw [codes_encode scw hnul] at hcodes
  rw [← text_val, ← hcodes] at hroom
  obtain ⟨c, hrun, hconverted⟩ := utfConvInner_room hahead hroom
  refine ⟨c, hrun, ?_, ?_⟩
  · rw [hconverted.cnt, hcodes, List.length_map]
  · rw [hconverted.dbuf, hcodes, text_val]

theorem convertAll_text {scw : Width} {text : List Char} {sbuf : List scw.Unit} {scnt : ℤ} {legs : List Leg}
    (hnul : '\x00' ∉ text) (h : Holds scw (scw.encode text) sbuf scnt) (hlegs : ∀ leg ∈ legs, leg.Suits text) :
    ∃ buf cnt, convertAll scw sbuf scnt legs = .ok ⟨lastWidth scw legs, buf⟩ ∧
      Holds (lastWidth scw legs) ((lastWidth scw legs).encode text) buf cnt := by
  induction legs generalizing scw sbuf scnt with
  | nil => exact ⟨sbuf, scnt, rfl, h⟩
  | cons leg legs ih =>
    have hsuits := hlegs leg List.mem_cons_self
    obtain ⟨c, hrun, -, hdbuf⟩ := utfConvInner_text hnul h hsuits.room
    have hpassed : Holds leg.width (leg.width.encode text) c.dbuf leg.passed := by
      rw [hdbuf]
      rcases hsuits.passed with hneg | hlen
      · rw [hneg]
        exact .terminated _
      · rw [hlen]
        exact .counted _
    rw [convertAll, hrun, ok_bind, lastWidth]
    exact ih hpassed (fun l hl => hlegs l (List.mem_cons_of_mem leg hl))

/-- Each of the nine conversions returns the length of the text and writes its standard form with a
null, and every chain of conversions ends with the text it began with. -/
theorem conversions_keep_text {scw : Width} {text : List Char} {sbuf : List scw.Unit} {scnt : ℤ}
    (hnul : '\x00' ∉ text) (h : Holds scw (scw.encode text) sbuf scnt) :
    (∀ (dcw : Width) (dbuf : List dcw.Unit) (dcnt : ℤ), Room ⟨0, dcnt⟩ dbuf (dcw.encode text).length →
      ∃ c, utfConvInner scw dcw sbuf dbuf scnt dcnt = .ok c ∧ c.cnt = s32 text.length ∧
        c.dbuf = dcw.encode text ++ dcw.nul :: dbuf.drop ((dcw.encode text).length + 1)) ∧
      ∀ legs : List Leg, (∀ leg ∈ legs, leg.Suits text) →
        ∃ buf cnt, convertAll scw sbuf scnt legs = .ok ⟨lastWidth scw legs, buf⟩ ∧
          Holds (lastWidth scw legs) ((lastWidth scw legs).encode text) buf cnt :=
  ⟨fun _ _ _ hroom => utfConvInner_text hnul h hroom, fun _ hlegs => convertAll_text hnul h hlegs⟩

theorem conversions_keep_text_smile :
    (∃ c, utfConvInner .one .two [0x61, 0xF0, 0x9F, 0x98, 0x80, 0x00] [7, 7, 7, 7, 7] (-1) (-1) = .ok c ∧
      c.cnt = 2 ∧ c.dbuf = [0x61, 0xD83D, 0xDE00, 0, 7]) ∧
      ∃ buf cnt, convertAll .one [0x61, 0xF0, 0x9F, 0x98, 0x80, 0x00] (-1)
          [⟨.two, [7, 7, 7, 7, 7], -1, 3⟩, ⟨.one, [7, 7, 7, 7, 7, 7], 6, -1⟩] = .ok ⟨.one, buf⟩ ∧
        Holds .one (Width.one.encode ['a', Char.ofNat 0x1F600]) buf cnt := by
  have hholds : Holds .one (Width.one.encode ['a', Char.ofNat 0x1F600]) [0x61, 0xF0, 0x9F, 0x98, 0x80, 0x00] (-1) :=
    Holds.terminated (w := .one) []
  obtain ⟨hone, hall⟩ := conversions_keep_text (by decide) hholds
  refine ⟨hone .two [7, 7, 7, 7, 7] (-1) ⟨by decide, .inl (by decide)⟩,
    hall [⟨.two, [7, 7, 7, 7, 7], -1, 3⟩, ⟨.one, [7, 7, 7, 7, 7, 7], 6, -1⟩] ?_⟩
  intro leg hleg
  rcases List.mem_pair.mp hleg with rfl | rfl
  · exact ⟨⟨by decide, .inl (by decide)⟩, .inr (by decide)⟩
  · exact ⟨⟨by decide, .inr (by decide)⟩, .inl rfl⟩

end Chains
end LibXpf.Utf
