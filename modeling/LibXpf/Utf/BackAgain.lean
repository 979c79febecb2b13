import LibXpf.Utf.Texts

/-! # There and back again

A source is converted and the result is converted back. Bytes come back if no
sequence of them is overlong, and a text comes back from units of 16 bits if it
consists of scalar values other than the null.
-/
namespace LibXpf.Utf
open UnitCodes

/-- The units that a conversion has written. -/
def Conversion.text {β : Type} (c : Conversion β) : List β := c.dbuf.take c.writer.current

/-- The reader has come to the end of its count. -/
def Conversion.exhausted {β : Type} (c : Conversion β) : Prop :=
  c.stop = .read END_OF_STREAM ∧ c.reader.remaining = 0

section Conversions
variable {scw dcw : Width} {s sbuf : List scw.Unit} {dbuf : List dcw.Unit} {scnt dcnt : ℤ} {c : Conversion dcw.Unit}

theorem Converted.text_eq {ahead : List scw.Unit} (h : Converted scw dcw sbuf ahead dbuf c) :
    c.text = dcw.text (scw.codes ahead) := by
  rw [Conversion.text, h.dbuf, h.written, List.take_left]

/-- A conversion of a held source, in terms of the code points of the source. -/
theorem Holds.converted (dcw : Width) {dbuf : List dcw.Unit} (h : Holds scw s sbuf scnt)
    (hroom : Room ⟨0, dcnt⟩ dbuf (dcw.text (scw.codes s)).length) :
    ∃ c, utfConvInner scw dcw sbuf dbuf scnt dcnt = .ok c ∧ c.cnt = s32 (scw.codes s).length ∧
      c.text = dcw.text (scw.codes s) ∧ c.dbuf = c.text ++ dcw.nul :: dbuf.drop (c.text.length + 1) := by
  obtain ⟨ahead, hahead, hcodes⟩ := h.ahead
  rw [← hcodes] at hroom ⊢
  obtain ⟨c, hrun, hconverted⟩ := utfConvInner_room hahead hroom
  refine ⟨c, hrun, hconverted.cnt, hconverted.text_eq, ?_⟩
  rw [hconverted.text_eq]
  exact hconverted.dbuf

end Conversions

section Bytes

/-- The conversion to 32-bit units, into an ample destination, decodes all of the bytes. -/
structure DecodesAll (s : List UInt8) (c : Conversion UInt32) : Prop where
  nul : 0 ∉ s
  small : s.length < 2 ^ 31
  run : ∃ beyond dbuf dcnt, Room ⟨0, dcnt⟩ dbuf (Width.one.codes s).length ∧
    utfConvInner .one .four (s ++ beyond) dbuf s.length dcnt = .ok c
  exhausted : c.exhausted

theorem four_text (cps : List UInt32) : Width.four.text cps = cps := List.flatMap_singleton' cps

theorem four_codes_prefix (l : List UInt32) : Width.four.codes l <+: l := by
  change (decode Ucs4Reader.next l).1 <+: l
  induction l using decode_induction Ucs4Reader.next_shrinks with
  | stop l hnone =>
    rw [decode_none hnone]
    exact List.nil_prefix
  | step l cp rest hsome ih =>
    have hdecode := decode_some Ucs4Reader.next_shrinks hsome
    obtain ⟨-, rfl⟩ := Ucs4Reader.next_iff.mp hsome
    rw [hdecode]
    exact (List.prefix_cons_inj cp).mpr ih

theorem four_codes_all {l : List UInt32} (h : ∀ cp ∈ l, cp ≠ 0 ∧ cp ≠ END_OF_STREAM ∧ cp ≠ BAD_FORMAT) :
    Width.four.codes l = l := by
  have hread : ∀ cp ∈ l, ∀ rest, Ucs4Reader.next ([cp] ++ rest) = some (cp, rest) :=
    fun cp hcp rest => Ucs4Reader.next_iff.mpr ⟨h cp hcp, rfl⟩
  have hstop : Ucs4Reader.next [] = none := rfl
  have hdecode := decode_flatMap Ucs4Reader.next_shrinks hread hstop
  rw [List.append_nil, List.flatMap_singleton'] at hdecode
  exact congrArg Prod.fst hdecode

/-- What is decoded completely is what the writer writes, or longer if a sequence is overlong. -/
theorem decode_complete {s : List UInt8} (h : (decode Utf8Reader.next s).2 = []) :
    (¬ Overlong s → Width.one.text (Width.one.codes s) = s) ∧
      (Overlong s → (Width.one.text (Width.one.codes s)).length < s.length) ∧
      (Width.one.text (Width.one.codes s)).length ≤ s.length := by
  induction s using decode_induction Utf8Reader.next_shrinks with
  | stop s hnone =>
    have hdecode := decode_none hnone
    rw [hdecode] at h
    obtain rfl : s = [] := h
    exact ⟨fun _ => rfl, fun hlong => absurd hlong id, le_rfl⟩
  | step s cp rest hsome ih =>
    have hdecode := decode_some Utf8Reader.next_shrinks hsome
    have hcodes : Width.one.codes s = cp :: Width.one.codes rest := by
      rw [Width.codes]
      exact congrArg Prod.fst hdecode
    have htext : Width.one.text (Width.one.codes s) = Utf8Writer.units cp ++ Width.one.text (Width.one.codes rest) := by
      rw [hcodes]
      exact List.flatMap_cons
    rw [hdecode] at h
    obtain ⟨hsame, hshort, hle⟩ := ih h
    have hacc := accepted hsome
    rw [htext, hacc.overlong, List.length_append]
    refine ⟨fun hfits => ?_, fun hlong => ?_, ?_⟩
    · rw [hsame fun hrest => hfits (.inr hrest)]
      exact (hacc.same fun hstart => hfits (.inl hstart)).symm
    all_goals
      have hlen : (Utf8Writer.units cp).length + rest.length ≤ s.length := by
        by_cases hstart : StartsOverlong s
        · exact (hacc.fewer hstart).le
        · have hsplit := congrArg List.length (hacc.same hstart)
          rw [List.length_append] at hsplit
          exact hsplit.ge
    · rcases hlong with hstart | hrest
      · have hfewer := hacc.fewer hstart
        omega
      · have hshorter := hshort hrest
        omega
    · omega

theorem DecodesAll.complete {s : List UInt8} {c : Conversion UInt32} (h : DecodesAll s c) :
    (decode Utf8Reader.next s).2 = [] ∧ c.cnt = (Width.one.codes s).length ∧ c.text = Width.one.codes s ∧
      Holds .four (Width.one.codes s) c.dbuf c.cnt := by
  obtain ⟨beyond, dbuf, dcnt, hroom, hrun⟩ := h.run
  have hahead : Ahead Width.one.nul (s ++ beyond) ⟨0, s.length⟩ s := ⟨⟨[], beyond, rfl, rfl⟩, .inl rfl⟩
  have hroom' : Room ⟨0, dcnt⟩ dbuf (Width.four.text (Width.one.codes s)).length := by rwa [four_text]
  obtain ⟨c', hrun', hconverted⟩ := utfConvInner_room hahead hroom'
  obtain rfl : c = c' := Except.ok.inj (hrun.symm.trans hrun')
  obtain ⟨cur, status, hleft, hread, hstop⟩ := hconverted.refused.stopped
  obtain ⟨status', cur', hread', -, hend⟩ := Utf8Reader.read_refuse hleft hconverted.refused.refused
  obtain ⟨rfl, rfl⟩ : status = status' ∧ c.reader = cur' := by
    simpa using (hread.symm.trans hread' : Except.ok (status, c.reader) = Except.ok (status', cur'))
  have hstatus : status = END_OF_STREAM := Stop.read.inj (hstop.symm.trans h.exhausted.1)
  have hle := decode_length_le Utf8Reader.next_shrinks s
  have hsmall : ((Width.one.codes s).length : ℤ) < 2 ^ 31 := by
    have hlt := h.small
    change ((decode Utf8Reader.next s).1.length : ℤ) < 2 ^ 31
    omega
  have hcnt : c.cnt = (Width.one.codes s).length := by
    rw [hconverted.cnt]
    exact s32_of_mem (by omega) hsmall
  have hdbuf := hconverted.dbuf
  rw [four_text] at hdbuf
  refine ⟨hend.mp ⟨hstatus, h.exhausted.2⟩, hcnt, by rw [hconverted.text_eq, four_text], ?_⟩
  rw [hdbuf, hcnt]
  exact .counted _

/-- Bytes that are decoded completely come back if and only if no sequence of them is overlong, and
no other bytes without overlong sequences are decoded to the same text. -/
theorem decoded_bytes_return {s : List UInt8} {c : Conversion UInt32} (h : DecodesAll s c) :
    (∀ (dbuf : List UInt8) (dcnt : ℤ), Room ⟨0, dcnt⟩ dbuf s.length →
      ∃ c', utfConvInner .four .one c.dbuf dbuf c.cnt dcnt = .ok c' ∧ (c'.text = s ↔ ¬ Overlong s)) ∧
      ∀ t d, DecodesAll t d → ¬ Overlong s → ¬ Overlong t → c.text = d.text → s = t := by
  obtain ⟨hleft, -, htext, hholds⟩ := h.complete
  obtain ⟨hsame, hshort, hle⟩ := decode_complete hleft
  constructor
  · intro dbuf dcnt hroom
    obtain ⟨tail, htail⟩ := four_codes_prefix (Width.one.codes s)
    have hshorter : (Width.one.text (Width.four.codes (Width.one.codes s))).length ≤
        (Width.one.text (Width.one.codes s)).length := by
      conv_rhs => rw [← htail, Width.text, List.flatMap_append, List.length_append]
      exact Nat.le_add_right _ _
    have hroom' : Room ⟨0, dcnt⟩ dbuf (Width.one.text (Width.four.codes (Width.one.codes s))).length :=
      ⟨lt_of_le_of_lt (hshorter.trans hle) hroom.length, hroom.count.imp_right fun hlt => by omega⟩
    obtain ⟨c', hrun, -, htext', -⟩ := hholds.converted .one hroom'
    refine ⟨c', hrun, ?_⟩
    rw [htext']
    constructor
    · intro hback hlong
      have hlt := hshort hlong
      rw [hback] at hshorter
      omega
    · intro hfits
      rw [four_codes_all (fun cp hcp => ?_), hsame hfits]
      have hsmall := decode_forall Utf8Reader.next_shrinks (fun _ _ _ hnext => (accepted hnext).small) s cp hcp
      refine ⟨?_, ?_, ?_⟩
      · rintro rfl
        have hmem : (0 : UInt8) ∈ Width.one.text (Width.one.codes s) :=
          List.mem_flatMap.mpr ⟨0, hcp, List.mem_singleton.mpr rfl⟩
        exact h.nul (hsame hfits ▸ hmem)
      · rintro rfl
        exact absurd hsmall (by decide)
      · rintro rfl
        exact absurd hsmall (by decide)
  · intro t d hd hs ht heq
    obtain ⟨hleft', -, htext', -⟩ := hd.complete
    rw [← hsame hs, ← (decode_complete hleft').1 ht, ← htext, heq, htext']

/-- The two bytes `C1 81` are accepted as the letter `A`, which is written in one byte. -/
theorem overlong_not_returned : ∃ c c', DecodesAll [0xC1, 0x81] c ∧
    utfConvInner .four .one c.dbuf [0, 0, 0] c.cnt 3 = .ok c' ∧ c'.text = [0x41] := by
  have hroom : Room ⟨0, 2⟩ [(0 : UInt32), 0] (Width.one.codes [0xC1, 0x81]).length :=
    ⟨by decide, .inr (by decide)⟩
  refine ⟨⟨1, [0x41, 0], .read END_OF_STREAM, ⟨2, 0⟩, ⟨1, 1⟩⟩, ⟨1, [0x41, 0, 0], .read END_OF_STREAM, ⟨1, 0⟩, ⟨1, 2⟩⟩,
    ⟨by decide, by decide, ⟨[], [0, 0], 2, hroom, by decide⟩, ?_⟩, by decide, by decide⟩
  exact ⟨rfl, rfl⟩

theorem decoded_bytes_return_euro : ∃ c, DecodesAll [0xE2, 0x82, 0xAC] c ∧
    ∃ c', utfConvInner .four .one c.dbuf [0, 0, 0, 0] c.cnt (-1) = .ok c' ∧ c'.text = [0xE2, 0x82, 0xAC] := by
  have hroom : Room ⟨0, 2⟩ [(0 : UInt32), 0] (Width.one.codes [0xE2, 0x82, 0xAC]).length :=
    ⟨by decide, .inr (by decide)⟩
  have hall : DecodesAll [0xE2, 0x82, 0xAC] ⟨1, [0x20AC, 0], .read END_OF_STREAM, ⟨3, 0⟩, ⟨1, 1⟩⟩ :=
    ⟨by decide, by decide, ⟨[], [0, 0], 2, hroom, by decide⟩, ⟨rfl, rfl⟩⟩
  obtain ⟨c', hrun, hback⟩ := (decoded_bytes_return hall).1 [0, 0, 0, 0] (-1) ⟨by decide, .inl (by decide)⟩
  have hfits : ¬ Overlong [0xE2, 0x82, 0xAC] := by
    simp only [Overlong]
    decide
  exact ⟨_, hall, c', hrun, hback.mpr hfits⟩

end Bytes

section Units16

/-- Units of 16 bits that are the standard form of a text. -/
def WellFormed16 (units : List UInt16) : Prop := ∃ text : List Char, units = Width.two.encode text

theorem scalar_char {cp : UInt32} (h : Scalar cp) : ∃ c : Char, c.val = cp := ⟨⟨cp, h.2⟩, rfl⟩

/-- The code points that the reader of 16-bit units takes back are scalar values. -/
theorem two_codes_scalar (units : List UInt16) : ∀ cp ∈ Width.two.codes units, Scalar cp :=
  decode_forall Ucs2Reader.next_shrinks (fun _ _ _ hnext => (Ucs2Reader.next_iff.mp hnext).1) units

theorem two_codes_text {cps : List UInt32} (h : ∀ cp ∈ cps, Scalar cp) :
    Width.two.codes (Width.two.text cps) = cps := by
  have hread : ∀ cp ∈ cps, ∀ rest, Ucs2Reader.next (Ucs2Writer.units cp ++ rest) = some (cp, rest) :=
    fun cp hcp rest => Ucs2Reader.next_units (h cp hcp) rest
  have hstop : Ucs2Reader.next [] = none := rfl
  have hdecode := decode_flatMap Ucs2Reader.next_shrinks hread hstop
  rw [List.append_nil] at hdecode
  exact congrArg Prod.fst hdecode

theorem wellFormed16_text {cps : List UInt32} (h : ∀ cp ∈ cps, Scalar cp) : WellFormed16 (Width.two.text cps) := by
  induction cps with
  | nil => exact ⟨[], rfl⟩
  | cons cp cps ih =>
    obtain ⟨c, rfl⟩ := scalar_char (h cp List.mem_cons_self)
    obtain ⟨text, htext⟩ := ih fun d hd => h d (List.mem_cons_of_mem _ hd)
    refine ⟨c :: text, ?_⟩
    rw [Width.text, List.flatMap_cons, units_val, Width.encode, List.flatMap_cons]
    exact congrArg (Width.two.encodeChar c ++ ·) htext

/-- The conversion back of `c`, with the count `cnt`, returns the same number and writes the same code
points, and what is converted is well formed. -/
def ComesBack (c : Conversion UInt16) (cps : List UInt32) (cnt : ℤ) (dbuf : List UInt32) (dcnt : ℤ) : Prop :=
  (∃ c', utfConvInner .two .four c.dbuf dbuf cnt dcnt = .ok c' ∧ c'.cnt = c.cnt ∧ c'.text = cps) ∧
    WellFormed16 c.text

/-- A source comes back from 16-bit units if and only if it decodes to scalar values other than the null. -/
theorem units16_come_back_iff {scw : Width} {s sbuf : List scw.Unit} {scnt dcnt : ℤ} {dbuf : List UInt16}
    (h : Holds scw s sbuf scnt) (hroom : Room ⟨0, dcnt⟩ dbuf (Width.two.text (scw.codes s)).length) :
    ∃ c, utfConvInner scw .two sbuf dbuf scnt dcnt = .ok c ∧
      ∀ (cnt : ℤ) (back : List UInt32) (backcnt : ℤ), (cnt = -1 ∨ cnt = c.text.length) →
        Room ⟨0, backcnt⟩ back c.text.length →
          (ComesBack c (scw.codes s) cnt back backcnt ↔ ∀ cp ∈ scw.codes s, Scalar cp) := by
  obtain ⟨c, hrun, hcnt, htext, hdbuf⟩ := h.converted .two hroom
  refine ⟨c, hrun, fun cnt back backcnt hcounted hback => ?_⟩
  have hholds : Holds .two c.text c.dbuf cnt := by
    rw [hdbuf]
    rcases hcounted with rfl | rfl
    · exact .terminated _
    · exact .counted _
  have hle : (Width.two.codes c.text).length ≤ c.text.length := decode_length_le Ucs2Reader.next_shrinks c.text
  have hroom' : Room ⟨0, backcnt⟩ back (Width.four.text (Width.two.codes c.text)).length := by
    rw [four_text]
    exact ⟨lt_of_le_of_lt hle hback.length, hback.count.imp_right fun hlt => by omega⟩
  obtain ⟨c', hrun', hcnt', htext', -⟩ := hholds.converted .four hroom'
  rw [four_text] at htext'
  constructor
  · rintro ⟨⟨c'', hrun'', -, hsame⟩, -⟩
    obtain rfl : c' = c'' := Except.ok.inj (hrun'.symm.trans hrun'')
    rw [← hsame, htext']
    exact two_codes_scalar c.text
  · intro hscalar
    have hcodes : Width.two.codes c.text = scw.codes s := by rw [htext, two_codes_text hscalar]
    refine ⟨⟨c', hrun', by rw [hcnt', hcnt, hcodes], by rw [htext', hcodes]⟩, ?_⟩
    rw [htext]
    exact wellFormed16_text hscalar

/-- A code point above the range of the format is counted but not written. -/
theorem impossible_code_point_lost : ∃ c, utfConvInner .four .two [0x110000] [7, 7] 1 2 = .ok c ∧
    c.cnt = 1 ∧ c.text = [] ∧
    ∃ c', utfConvInner .two .four c.dbuf [7, 7] (-1) 2 = .ok c' ∧ c'.cnt = 0 ∧
      ¬ ComesBack c (Width.four.codes [0x110000]) (-1) [7, 7] 2 := by
  refine ⟨⟨1, [0, 7], .read END_OF_STREAM, ⟨1, 0⟩, ⟨0, 2⟩⟩, by decide, rfl, rfl,
    ⟨0, [0, 7], .read END_OF_STREAM, ⟨0, -1⟩, ⟨0, 2⟩⟩, by decide, rfl, ?_⟩
  rintro ⟨⟨c', hrun, hcnt, -⟩, -⟩
  have hempty : utfConvInner .two .four [0, 7] [7, 7] (-1) 2 =
      .ok ⟨0, [0, 7], .read END_OF_STREAM, ⟨0, -1⟩, ⟨0, 2⟩⟩ := by decide
  obtain rfl := Except.ok.inj (hempty.symm.trans hrun)
  exact absurd hcnt (by decide)

theorem units16_come_back_iff_pair : ∃ c, utfConvInner .one .two [0x61, 0xF0, 0x9F, 0x98, 0x80, 0] [7, 7, 7, 7] (-1) 4 =
    .ok c ∧ ComesBack c [0x61, 0x1F600] (-1) [7, 7, 7, 7] (-1) := by
  have hholds : Holds .one [0x61, 0xF0, 0x9F, 0x98, 0x80] [0x61, 0xF0, 0x9F, 0x98, 0x80, 0] (-1) :=
    Holds.terminated []
  have hroom : Room ⟨0, 4⟩ [(7 : UInt16), 7, 7, 7]
      (Width.two.text (Width.one.codes [0x61, 0xF0, 0x9F, 0x98, 0x80])).length := ⟨by decide, .inr (by decide)⟩
  obtain ⟨c, hrun, hback⟩ := units16_come_back_iff hholds hroom
  have hconverted : utfConvInner .one .two [0x61, 0xF0, 0x9F, 0x98, 0x80, 0] [7, 7, 7, 7] (-1) 4 =
      .ok ⟨2, [0x61, 0xD83D, 0xDE00, 0], .read END_OF_STREAM, ⟨5, -1⟩, ⟨3, 1⟩⟩ := by decide
  obtain rfl := Except.ok.inj (hconverted.symm.trans hrun)
  refine ⟨_, hrun, (hback (-1) [7, 7, 7, 7] (-1) (.inl rfl) ⟨by decide, .inl (by decide)⟩).mpr ?_⟩
  have hcodes : Width.one.codes [0x61, 0xF0, 0x9F, 0x98, 0x80] = [0x61, 0x1F600] := by decide
  rw [hcodes]
  intro cp hcp
  rcases List.mem_pair.mp hcp with rfl | rfl
  · exact ⟨by decide, by decide⟩
  · exact ⟨by decide, by decide⟩

end Units16
end LibXpf.Utf
