import LibXpf.Utf.Texts

/-! # Conversions into a bounded destination

A writer that counts its units takes a code point if all of its units fit and
stops the conversion otherwise, so what is written is a prefix of the code points.
Only the exit of the reader puts a null after it. A code point of several units
can stop the writer while there is room, and then nothing ends the text.
-/
namespace LibXpf.Utf
open UnitCodes Buffers

section Writing
variable {β : Type}

/-- A writer that counts, with these units written and this room ahead. -/
structure Counted (cur : Cursor) (done room : List β) : Prop where
  current : cur.current = done.length
  remaining : cur.remaining = room.length

/-- What `closure` leaves of the room ahead. -/
def terminated (nul : β) : List β → List β
  | [] => []
  | _ :: room => nul :: room

variable {cur : Cursor} {done room units : List β}

theorem writeUnits_fits (h : Counted cur done room) (hfit : ¬ (room.length = 0 ∨ room.length < units.length))
    (beyond : List β) :
    writeUnits units cur (done ++ (room ++ beyond)) =
        .ok (SUCCESS, cur.pass units.length, (done ++ units) ++ (room.drop units.length ++ beyond)) ∧
      Counted (cur.pass units.length) (done ++ units) (room.drop units.length) := by
  have hrem := h.remaining
  have hgo : ¬ (cur.remaining = 0 ∨ cur.short units.length) := by
    rw [Cursor.short]
    omega
  refine ⟨?_, ?_, ?_⟩
  · rw [writeUnits, if_neg hgo, writeAll_here h.current (by rw [List.length_append]; omega), ok_bind,
      List.drop_append_of_le_length (by omega)]
  · rw [Cursor.pass, List.length_append, h.current]
  · simp only [Cursor.pass]
    rw [if_pos (by omega), List.length_drop]
    omega

theorem writeUnits_refuses (h : Counted cur done room) (hstop : room.length = 0 ∨ room.length < units.length)
    (buf : List β) : writeUnits units cur buf = .ok (END_OF_STREAM, cur, buf) := by
  have hrem := h.remaining
  rw [writeUnits, if_pos]
  rw [Cursor.short]
  omega

theorem closure_counted (h : Counted cur done room) (nul : β) (beyond : List β) :
    ∃ status, closure nul cur (done ++ (room ++ beyond)) = .ok (status, done ++ (terminated nul room ++ beyond)) := by
  have hrem := h.remaining
  cases room with
  | nil => exact ⟨END_OF_STREAM, by rw [closure, if_neg (by simpa using hrem)]; rfl⟩
  | cons b room =>
    rw [List.length_cons] at hrem
    refine ⟨SUCCESS, ?_⟩
    rw [closure, if_pos (by omega), List.cons_append, write_here h.current, ok_bind]
    rfl

end Writing

section Driver
variable {scw dcw : Width}

/-- The code points that fit into some room one after the other. -/
def Width.fitting (w : Width) (room : ℕ) (cps : List UInt32) : List UInt32 := UnitCodes.fitting w.units room cps

/-- What a conversion of these code points into this room leaves behind. -/
structure Fitted (dcw : Width) (cps : List UInt32) (k : ℕ) (done room beyond : List dcw.Unit)
    (c : Conversion dcw.Unit) : Prop where
  cnt : c.cnt = s32 (k + (dcw.fitting room.length cps).length : ℕ)
  written : c.writer.current = done.length + (dcw.text (dcw.fitting room.length cps)).length
  dbuf : c.dbuf = done ++ dcw.text (dcw.fitting room.length cps) ++
    ((if dcw.fitting room.length cps = cps then
        terminated dcw.nul (room.drop (dcw.text (dcw.fitting room.length cps)).length)
      else room.drop (dcw.text (dcw.fitting room.length cps)).length) ++ beyond)

/-- One more code point is written before those that fit. -/
theorem Fitted.push {cps : List UInt32} {cp : UInt32} {k : ℕ} {done room beyond : List dcw.Unit}
    {c : Conversion dcw.Unit} (hgo : ¬ (room.length = 0 ∨ room.length < (dcw.units cp).length))
    (h : Fitted dcw cps (k + 1) (done ++ dcw.units cp) (room.drop (dcw.units cp).length) beyond c) :
    Fitted dcw (cp :: cps) k done room beyond c := by
  have hfit : dcw.fitting room.length (cp :: cps) =
      cp :: dcw.fitting (room.drop (dcw.units cp).length).length cps := by
    rw [Width.fitting, UnitCodes.fitting, if_neg hgo, List.length_drop, Width.fitting]
  refine ⟨?_, ?_, ?_⟩
  · rw [h.cnt, hfit, List.length_cons]
    congr 2
    omega
  · rw [h.written, hfit, text_cons, List.length_append, List.length_append]
    omega
  · rw [h.dbuf, hfit, text_cons, List.drop_drop, List.length_append]
    simp only [List.cons.injEq, true_and, List.append_assoc]

/-- The loop writes the code points ahead that fit. -/
theorem convLoop_fitting {sbuf ahead : List scw.Unit} {done room : List dcw.Unit} {r w : Cursor} {fuel k : ℕ}
    (h : Ahead scw.nul sbuf r ahead) (hfuel : ahead.length < fuel) (hw : Counted w done room)
    (beyond : List dcw.Unit) :
    ∃ c, convLoop (selectReader scw sbuf) (selectWriter dcw) (closure dcw.nul) fuel r w
        (done ++ (room ++ beyond)) (s32 k) = .ok c ∧ Fitted dcw (scw.codes ahead) k done room beyond c := by
  induction ahead using decode_induction (next_shrinks scw) generalizing fuel r w done room k with
  | stop ahead hnone =>
    obtain ⟨fuel, rfl⟩ : ∃ m, fuel = m + 1 := ⟨fuel - 1, by omega⟩
    obtain ⟨status, r', hread, hstatus⟩ := (selectReader_follows scw).refuse h hnone
    obtain ⟨closed, hclosure⟩ := closure_counted hw dcw.nul beyond
    rw [codes_of_none hnone]
    refine ⟨_, convLoop_ends fuel hread hstatus hclosure, ?_, hw.current, ?_⟩
    · simp only [Width.fitting, UnitCodes.fitting, List.length_nil, Nat.add_zero]
    · simp [Width.fitting, UnitCodes.fitting, Width.text]
  | step ahead cp rest hsome ih =>
    obtain ⟨fuel, rfl⟩ : ∃ m, fuel = m + 1 := ⟨fuel - 1, by omega⟩
    obtain ⟨r', hread, hahead, hend, hbad⟩ := (selectReader_follows scw).accept h hsome
    have hlt := next_shrinks scw ahead cp rest hsome
    have hgo : ¬ (cp = END_OF_STREAM ∨ cp = BAD_FORMAT) := not_or.mpr ⟨hend, hbad⟩
    rw [codes_of_some hsome]
    by_cases hstop : room.length = 0 ∨ room.length < (dcw.units cp).length
    · -- the writer refuses, and the text so far stays as it is
      have hwrite := writeUnits_refuses hw hstop (done ++ (room ++ beyond))
      rw [← selectWriter_eq] at hwrite
      have hfit : dcw.fitting room.length (cp :: scw.codes rest) = [] := by
        rw [Width.fitting, UnitCodes.fitting, if_pos hstop]
      refine ⟨_, convLoop_refused fuel hread hgo hwrite (by decide), ?_, ?_, ?_⟩
      · rw [hfit, List.length_nil, Nat.add_zero]
      · rw [hfit]
        exact hw.current
      · rw [hfit, if_neg (List.cons_ne_nil cp _).symm]
        simp [Width.text]
    · obtain ⟨hwrite, hw'⟩ := writeUnits_fits hw hstop beyond
      rw [← selectWriter_eq] at hwrite
      obtain ⟨c, hrun, hfitted⟩ := ih (k := k + 1) hahead (show rest.length < fuel by omega) hw'
      refine ⟨c, ?_, hfitted.push hstop⟩
      rw [convLoop_converts fuel hread hgo hwrite, s32_count]
      exact hrun

/-- A conversion into `dstCount` units, with more units behind them. -/
theorem utfConvInner_fitting {s sbuf : List scw.Unit} {scnt : ℤ} (h : Holds scw s sbuf scnt)
    (room beyond : List dcw.Unit) :
    ∃ c, utfConvInner scw dcw sbuf (room ++ beyond) scnt room.length = .ok c ∧
      Fitted dcw (scw.codes s) 0 [] room beyond c := by
  obtain ⟨ahead, hahead, hcodes⟩ := h.ahead
  obtain ⟨done, behind, hbuf, -⟩ := hahead.split
  have hlen : ahead.length < sbuf.length + 1 := by
    rw [hbuf, List.length_append, List.length_append]
    omega
  rw [← hcodes]
  have hstart : Counted ⟨0, room.length⟩ ([] : List dcw.Unit) room := ⟨rfl, rfl⟩
  exact convLoop_fitting (k := 0) hahead hlen hstart beyond

end Driver

section Prefixes

theorem encodeChar_ne_nil (w : Width) (c : Char) : w.encodeChar c ≠ [] := by
  cases w with
  | one =>
    intro hnil
    have hlen := String.length_utf8EncodeChar c
    rw [show String.utf8EncodeChar c = [] from hnil, List.length_nil] at hlen
    exact absurd c.utf8Size_pos (by omega)
  | two =>
    change utf16EncodeChar c ≠ []
    rw [utf16EncodeChar]
    split <;> exact List.cons_ne_nil _ _
  | four => exact List.cons_ne_nil _ _

theorem length_le_encode (w : Width) (text : List Char) : text.length ≤ (w.encode text).length := by
  induction text with
  | nil => exact Nat.zero_le _
  | cons c text ih =>
    have hencode : w.encode (c :: text) = w.encodeChar c ++ w.encode text := List.flatMap_cons
    have hpos := List.length_pos_iff.mpr (encodeChar_ne_nil w c)
    rw [hencode, List.length_append, List.length_cons]
    omega

/-- The longest prefix of a text whose standard form fits into the room. -/
def LongestFitting (w : Width) (room : ℕ) (text p : List Char) : Prop :=
  p <+: text ∧ (w.encode p).length ≤ room ∧ ∀ q, q <+: text → (w.encode q).length ≤ room → q <+: p

/-- A conversion has written the text `p` and counted it; behind it there is what was there before, but
perhaps for a null within the room. -/
structure Truncated (w : Width) (p : List Char) (dbuf : List w.Unit) (room : ℕ) (c : Conversion w.Unit) : Prop where
  cnt : c.cnt = p.length
  written : c.writer.current = (w.encode p).length
  dbuf : c.dbuf = w.encode p ++ dbuf.drop (w.encode p).length ∨
    (w.encode p).length < room ∧ c.dbuf = w.encode p ++ w.nul :: dbuf.drop ((w.encode p).length + 1)

theorem longestFitting_fitting (w : Width) (room : ℕ) (text : List Char) :
    LongestFitting w room text (UnitCodes.fitting w.encodeChar room text) :=
  ⟨fitting_starts _ room text, fitting_length_le _ room text,
    fun _ hq hfits => fitting_longest (fun c _ => encodeChar_ne_nil w c) hq hfits⟩

/-- What is left of the room, with or without a null. -/
theorem drop_room {β : Type} (nul : β) {n : ℕ} (room beyond : List β) (hn : n ≤ room.length) :
    room.drop n ++ beyond = (room ++ beyond).drop n ∧
      (n = room.length ∧ terminated nul (room.drop n) = room.drop n ∨
        n < room.length ∧ terminated nul (room.drop n) ++ beyond = nul :: (room ++ beyond).drop (n + 1)) := by
  refine ⟨(List.drop_append_of_le_length hn).symm, ?_⟩
  rcases hn.eq_or_lt with rfl | hlt
  · exact .inl ⟨rfl, by rw [List.drop_length]; rfl⟩
  · refine .inr ⟨hlt, ?_⟩
    rw [List.drop_eq_getElem_cons hlt, List.drop_append_of_le_length (by omega)]
    rfl

/-- Every conversion of a text writes the longest prefix that fits of what comes before its first null. -/
theorem utfConvInner_truncates {scw dcw : Width} {text : List Char} {sbuf : List scw.Unit} {scnt : ℤ}
    (h : Holds scw (scw.encode text) sbuf scnt) (room beyond : List dcw.Unit) (hroom : room.length < 2 ^ 31) :
    ∃ c p, utfConvInner scw dcw sbuf (room ++ beyond) scnt room.length = .ok c ∧
      LongestFitting dcw room.length (text.takeWhile (· ≠ '\x00')) p ∧
      Truncated dcw p (room ++ beyond) room.length c := by
  obtain ⟨c, hrun, hfitted⟩ := utfConvInner_fitting h room beyond
  rw [codes_encode_takeWhile] at hfitted
  generalize text.takeWhile (· ≠ '\x00') = before at hfitted ⊢
  have hlongest := longestFitting_fitting dcw room.length before
  have hfit : dcw.fitting room.length (before.map Char.val) =
      (UnitCodes.fitting dcw.encodeChar room.length before).map Char.val := by
    rw [Width.fitting, fitting_map]
    congr 2
    funext c
    exact units_val dcw c
  obtain ⟨hcnt, hwritten, hdbuf⟩ := hfitted
  rw [hfit] at hcnt hwritten hdbuf
  generalize UnitCodes.fitting dcw.encodeChar room.length before = p at *
  rw [text_val] at hwritten hdbuf
  refine ⟨c, p, hrun, hlongest, ?_, by simpa using hwritten, ?_⟩
  · have hle := length_le_encode dcw p
    have hlen := hlongest.2.1
    rw [hcnt, List.length_map, Nat.zero_add, s32_of_mem (by omega) (by omega)]
  · obtain ⟨hdrop, hnul⟩ := drop_room dcw.nul room beyond hlongest.2.1
    rw [List.nil_append] at hdbuf
    split at hdbuf
    · rcases hnul with ⟨-, hsame⟩ | ⟨hlt, hterm⟩
      · rw [hsame, hdrop] at hdbuf
        exact .inl hdbuf
      · rw [hterm] at hdbuf
        exact .inr ⟨hlt, hdbuf⟩
    · rw [hdrop] at hdbuf
      exact .inl hdbuf

/-- Two characters of two and four bytes into five, and one of them into two units. -/
theorem utfConvInner_truncates_smile :
    (∃ c p, utfConvInner .one .two [0xC3, 0xA9, 0xF0, 0x9F, 0x98, 0x80] ([7, 7] ++ [7]) 6 2 = .ok c ∧
      LongestFitting .two 2 (['é', Char.ofNat 0x1F600].takeWhile (· ≠ '\x00')) p ∧
      Truncated .two p ([7, 7] ++ [7]) 2 c) := by
  have hholds : Holds .one (Width.one.encode ['é', Char.ofNat 0x1F600]) [0xC3, 0xA9, 0xF0, 0x9F, 0x98, 0x80] 6 :=
    Holds.counted (w := .one) []
  exact utfConvInner_truncates hholds [7, 7] [7] (by decide)

/-- A null inside a counted text ends the conversion although everything would fit. -/
theorem utfConvInner_stops_at_null :
    Holds .one (Width.one.encode ['a', '\x00', 'b']) [0x61, 0, 0x62] 3 ∧
    utfConvInner .one .one [0x61, 0, 0x62] [7, 7, 7] 3 3 =
      .ok ⟨1, [0x61, 0, 7], .read END_OF_STREAM, ⟨1, 2⟩, ⟨1, 2⟩⟩ ∧
    ¬ ∃ c p, utfConvInner .one .one [0x61, 0, 0x62] [7, 7, 7] 3 3 = .ok c ∧
      LongestFitting .one 3 ['a', '\x00', 'b'] p ∧ Truncated .one p [7, 7, 7] 3 c := by
  have hrun : utfConvInner .one .one [0x61, 0, 0x62] [7, 7, 7] 3 3 =
      .ok ⟨1, [0x61, 0, 7], .read END_OF_STREAM, ⟨1, 2⟩, ⟨1, 2⟩⟩ := by decide
  refine ⟨Holds.counted (w := .one) [], hrun, ?_⟩
  rintro ⟨c, p, hrun', ⟨-, -, hlongest⟩, htruncated⟩
  obtain rfl := Except.ok.inj (hrun.symm.trans hrun')
  have hall := (hlongest _ List.prefix_rfl (by decide)).length_le
  have hcnt : (1 : ℤ) = p.length := htruncated.cnt
  simp only [List.length_cons, List.length_nil] at hall
  omega

end Prefixes

section Termination

/-- A code point that starts inside the destination ends inside it, or finds a null where it would start. -/
def NoneStraddles (w : Width) (cps : List UInt32) (room : List w.Unit) : Prop :=
  ∀ before cp after, cps = before ++ cp :: after → (w.text before).length < room.length →
    room.length < (w.text (before ++ [cp])).length → room[(w.text before).length]? = some w.nul

/-- The code points that fit are followed by one that does not, within the room left or with none left. -/
theorem fitting_cases (w : Width) (room : List w.Unit) (cps : List UInt32) :
    w.fitting room.length cps = cps ∨ (w.text (w.fitting room.length cps)).length = room.length ∨
    ∃ cp rest, cps = w.fitting room.length cps ++ cp :: rest ∧
      (w.text (w.fitting room.length cps)).length < room.length ∧
      room.length < (w.text (w.fitting room.length cps ++ [cp])).length := by
  obtain ⟨rest, hrest⟩ := fitting_starts w.units room.length cps
  cases rest with
  | nil => exact .inl (by rw [List.append_nil] at hrest; exact hrest)
  | cons cp rest =>
    right
    have hle := fitting_length_le w.units room.length cps
    rcases hle.eq_or_lt with hfull | hlt
    · exact .inl hfull
    · exact .inr ⟨cp, rest, hrest.symm, hlt, (fitting_next hrest.symm).resolve_left hlt.ne⟩

/-- Every source and every destination of `dstCount` units: where a conversion stops with room left there is
a null, if and only if no code point straddles the end of the destination. -/
theorem utfConvInner_terminates_iff {scw dcw : Width} {s sbuf : List scw.Unit} {scnt : ℤ}
    (h : Holds scw s sbuf scnt) (room beyond : List dcw.Unit) :
    ∃ c, utfConvInner scw dcw sbuf (room ++ beyond) scnt room.length = .ok c ∧
      ((c.writer.current < room.length → c.dbuf[c.writer.current]? = some dcw.nul) ↔
        NoneStraddles dcw (scw.codes s) room) := by
  obtain ⟨c, hrun, -, hwritten, hdbuf⟩ := utfConvInner_fitting h room beyond
  refine ⟨c, hrun, ?_⟩
  generalize scw.codes s = cps at hwritten hdbuf ⊢
  have hstraddled : ∀ before cp after, cps = before ++ cp :: after → (dcw.text before).length < room.length →
      room.length < (dcw.text (before ++ [cp])).length → dcw.fitting room.length cps = before := by
    rintro before cp after rfl hstart hend
    exact fitting_straddled hstart hend
  have hle : (dcw.text (dcw.fitting room.length cps)).length ≤ room.length := fitting_length_le dcw.units _ _
  rw [List.length_nil, Nat.zero_add] at hwritten
  rw [List.nil_append] at hdbuf
  rw [hwritten, hdbuf, List.getElem?_append_right le_rfl, Nat.sub_self]
  rcases fitting_cases dcw room cps with hall | hfull | ⟨cp, rest, hnext, hlt, hend⟩
  · -- the reader has ended the conversion
    rw [if_pos hall]
    refine iff_of_true ?_ ?_
    · intro hlt
      rw [List.drop_eq_getElem_cons hlt]
      rfl
    · intro before cp after hcps hstart hend
      have hfit := hstraddled before cp after hcps hstart hend
      rw [hall, hcps] at hfit
      exact absurd (congrArg List.length hfit) (by simp)
  · refine iff_of_true (fun hlt => absurd hfull hlt.ne) ?_
    intro before cp after hcps hstart hend
    have hfit := hstraddled before cp after hcps hstart hend
    rw [hfit] at hfull
    exact absurd hfull hstart.ne
  · -- the writer has refused a code point that straddles the end
    have hne : dcw.fitting room.length cps ≠ cps := by
      intro heq
      have hlen := congrArg List.length hnext
      rw [heq, List.length_append, List.length_cons] at hlen
      omega
    have hget : (room.drop (dcw.text (dcw.fitting room.length cps)).length ++ beyond)[0]? =
        room[(dcw.text (dcw.fitting room.length cps)).length]? := by
      rw [List.getElem?_append_left (by rw [List.length_drop]; omega), List.getElem?_drop, Nat.add_zero]
    rw [if_neg hne, hget]
    constructor
    · intro hnul before cp' after hcps hstart hend'
      rw [← hstraddled before cp' after hcps hstart hend']
      exact hnul hlt
    · intro hnone _
      exact hnone _ cp rest hnext hlt hend

/-- Three bytes end a destination of four, and a null follows. -/
theorem utfConvInner_terminates_iff_euro :
    ∃ c, utfConvInner .two .one [0x20AC, 0] ([7, 7, 7, 7] ++ []) (-1) 4 = .ok c ∧
      ((c.writer.current < 4 → c.dbuf[c.writer.current]? = some 0) ↔
        NoneStraddles .one (Width.two.codes [0x20AC]) [7, 7, 7, 7]) :=
  utfConvInner_terminates_iff (Holds.terminated (w := .two) (s := [0x20AC]) []) [7, 7, 7, 7] []

/-- Two bytes do not fit into one, and the one is left as it was. -/
theorem utfConvInner_unterminated :
    Holds .one [0xC3, 0xA9] [0xC3, 0xA9] 2 ∧
    ∃ c, utfConvInner .one .one [0xC3, 0xA9] [7] 2 1 = .ok c ∧ c.writer.current = 0 ∧
      ¬ (c.writer.current < 1 → c.dbuf[c.writer.current]? = some 0) :=
  ⟨Holds.counted (w := .one) [], ⟨0, [7], .write END_OF_STREAM, ⟨2, 0⟩, ⟨0, 1⟩⟩, by decide, rfl, by decide⟩

end Termination
end LibXpf.Utf
