import LibXpf.Utf.Ucs2Forms
import LibXpf.Utf.Utf8Forms

/-! # Runs of the converter

Each reader follows its partial function on the units ahead of it, in both ways of
counting, and a conversion with an ample destination writes the forms of all the
code points that the source decodes to, and a null.
-/
namespace LibXpf.Utf
open UnitCodes Buffers

section Ahead
variable {α : Type}

/-- The units ahead of a reader: as many as its count says, or units with a null among them. -/
structure Ahead (nul : α) (buf : List α) (cur : Cursor) (ahead : List α) : Prop where
  split : ∃ done beyond, buf = done ++ (ahead ++ beyond) ∧ cur.current = done.length
  count : cur.remaining = ahead.length ∨ cur.remaining < 0 ∧ nul ∈ ahead

variable {nul c : α} {buf ahead rest : List α} {cur : Cursor}

theorem Ahead.read (h : Ahead nul buf cur ahead) {k : ℕ} (hk : ahead[k]? = some c) :
    Buffers.read Fault.outOfBounds buf (cur.current + k) = .ok c := by
  obtain ⟨done, beyond, hbuf, hcur⟩ := h.split
  have hlt : k < ahead.length := (List.getElem?_eq_some_iff.mp hk).1
  rw [hbuf, hcur]
  exact read_ahead rfl (by rw [List.getElem?_append_left hlt, hk])

theorem Ahead.read_front (h : Ahead nul buf cur (c :: rest)) :
    Buffers.read Fault.outOfBounds buf cur.current = .ok c := h.read (k := 0) rfl

theorem Ahead.split_behind (h : Ahead nul buf cur (c :: rest)) :
    ∃ done beyond, buf = done ++ (rest ++ beyond) ∧ cur.current + 1 = done.length := by
  obtain ⟨done, beyond, hbuf, hcur⟩ := h.split
  refine ⟨done ++ [c], beyond, ?_, by rw [hcur, List.length_append, List.length_singleton]⟩
  rw [hbuf]
  simp only [List.cons_append, List.append_assoc, List.nil_append]

theorem Ahead.pass (pre : List α) (h : Ahead nul buf cur (pre ++ rest)) (hpre : nul ∉ pre) :
    Ahead nul buf (cur.pass pre.length) rest := by
  obtain ⟨done, beyond, hbuf, hcur⟩ := h.split
  refine ⟨⟨done ++ pre, beyond, by rw [hbuf]; simp only [List.append_assoc], ?_⟩, ?_⟩
  · rw [Cursor.pass, List.length_append, hcur]
  · rcases h.count with hcount | ⟨hneg, hmem⟩
    · rw [List.length_append] at hcount
      refine .inl ?_
      simp only [Cursor.pass]
      split <;> omega
    · refine .inr ⟨?_, (List.mem_append.mp hmem).resolve_left hpre⟩
      simp only [Cursor.pass]
      rwa [if_neg (by omega)]

theorem Ahead.remaining_eq_zero (h : Ahead nul buf cur ahead) : cur.remaining = 0 ↔ ahead = [] := by
  rcases h.count with hcount | ⟨hneg, hmem⟩
  · rw [hcount, Int.natCast_eq_zero, List.length_eq_zero_iff]
  · exact iff_of_false hneg.ne (List.ne_nil_of_mem hmem)

theorem Ahead.short (h : Ahead nul buf cur ahead) {n : ℕ} (hshort : cur.short n) : ahead.length < n := by
  rcases h.count with hcount | ⟨hneg, -⟩
  · have hlt := hshort.2
    omega
  · have hpos := hshort.1
    omega

/-- Enough units are ahead, or a null comes before the end. -/
theorem Ahead.enough (h : Ahead nul buf cur ahead) {n : ℕ} (hne : ahead ≠ []) (hshort : ¬ cur.short n) :
    n ≤ ahead.length ∨ nul ∈ ahead := by
  rcases h.count with hcount | ⟨-, hmem⟩
  · have hpos := List.length_pos_iff.mpr hne
    rw [Cursor.short] at hshort
    exact .inl (by omega)
  · exact .inr hmem

end Ahead

section Followers

/-- A reader does what its partial function says about the units ahead. -/
structure Follows {α : Type} (nul : α) (read : List α → Cursor → Except Fault (UInt32 × Cursor))
    (next : Next α UInt32) : Prop where
  accept : ∀ {buf cur ahead cp rest}, Ahead nul buf cur ahead → next ahead = some (cp, rest) →
    ∃ cur', read buf cur = .ok (cp, cur') ∧ Ahead nul buf cur' rest ∧ cp ≠ END_OF_STREAM ∧ cp ≠ BAD_FORMAT
  refuse : ∀ {buf cur ahead}, Ahead nul buf cur ahead → next ahead = none →
    ∃ status cur', read buf cur = .ok (status, cur') ∧ (status = END_OF_STREAM ∨ status = BAD_FORMAT)

namespace Ucs4Reader

def next : Next UInt32 UInt32
  | [] => none
  | c :: l => if c = 0 ∨ c = END_OF_STREAM ∨ c = BAD_FORMAT then none else some (c, l)

theorem next_iff {l rest : List UInt32} {cp : UInt32} :
    next l = some (cp, rest) ↔ (cp ≠ 0 ∧ cp ≠ END_OF_STREAM ∧ cp ≠ BAD_FORMAT) ∧ l = cp :: rest := by
  cases l with
  | nil => simp [next]
  | cons c l =>
    rw [next]
    split <;> grind

theorem next_snoc (l : List UInt32) : next (l ++ [0]) = (next l).map fun p => (p.1, p.2 ++ [0]) := by
  cases l with
  | nil => rfl
  | cons c l =>
    rw [List.cons_append, next, next]
    split_ifs <;> rfl

theorem next_shrinks : Shrinks next := by
  intro l cp rest h
  rw [(next_iff.mp h).2, List.length_cons]
  omega

theorem follows : Follows 0 Ucs4Reader.read next where
  accept := by
    intro buf cur ahead cp rest h hnext
    obtain ⟨⟨hzero, hend, hbad⟩, rfl⟩ := next_iff.mp hnext
    have hrem := mt h.remaining_eq_zero.mp (List.cons_ne_nil cp rest)
    refine ⟨cur.pass 1, ?_, h.pass [cp] (by simpa using hzero.symm), hend, hbad⟩
    rw [Ucs4Reader.read, if_neg hrem, h.read_front, ok_bind, if_neg hzero]
  refuse := by
    intro buf cur ahead h hnext
    rw [Ucs4Reader.read]
    split
    · exact ⟨_, _, rfl, .inl rfl⟩
    next hrem =>
      cases ahead with
      | nil => exact absurd (h.remaining_eq_zero.mpr rfl) hrem
      | cons c l =>
        rw [h.read_front, ok_bind]
        split
        · exact ⟨_, _, rfl, .inl rfl⟩
        next hzero =>
          refine ⟨_, _, rfl, ?_⟩
          rw [next] at hnext
          grind

end Ucs4Reader

namespace Ucs2Reader

theorem scalar_small {cp : UInt32} (h : Scalar cp) : cp ≠ END_OF_STREAM ∧ cp ≠ BAD_FORMAT := by
  rw [scalar_iff] at h
  rw [ne_eq, ne_eq, ← UInt32.toNat_inj, ← UInt32.toNat_inj]
  have hend : END_OF_STREAM.toNat = 0xFFFFFFFF := rfl
  have hbad : BAD_FORMAT.toNat = 0xFFFFFFFE := rfl
  omega

theorem read_single {buf : List UInt16} {cur : Cursor} {c : UInt16} {rest : List UInt16}
    (h : Ahead 0 buf cur (c :: rest)) (hzero : c ≠ 0) (hlead : ¬ leadSurrogate c)
    (htrail : ¬ trailSurrogate c) : read buf cur = .ok (c.toUInt32, cur.pass 1) := by
  have hrem := mt h.remaining_eq_zero.mp (List.cons_ne_nil c rest)
  rw [read, if_neg hrem, h.read_front, ok_bind, if_neg hzero, if_neg hlead, if_neg htrail]

theorem read_pair {buf : List UInt16} {cur : Cursor} {c t : UInt16} {rest : List UInt16}
    (h : Ahead 0 buf cur (c :: t :: rest)) (hlead : leadSurrogate c) :
    read buf cur = .ok (if trailSurrogate t then (combine c t, cur.pass 2)
      else (BAD_FORMAT, ⟨cur.current + 1, (cur.pass 2).remaining⟩)) := by
  have hrem := mt h.remaining_eq_zero.mp (List.cons_ne_nil c _)
  have hzero := surrogate_ne_zero (.inl hlead)
  have hshort : ¬ cur.short 2 := by
    intro hshort
    have hlen := h.short hshort
    simp only [List.length_cons] at hlen
    omega
  rw [read, if_neg hrem, h.read_front, ok_bind, if_neg hzero, if_pos hlead, if_neg hshort,
    h.read (k := 1) rfl, ok_bind]
  split <;> rfl

theorem follows : Follows 0 Ucs2Reader.read next where
  accept := by
    intro buf cur ahead cp rest h hnext
    obtain ⟨hscalar, rfl⟩ := next_iff.mp hnext
    have hsmall := scalar_small hscalar
    rcases scalar_forms hscalar with ⟨c, hunits, rfl, hzero, hlead, htrail⟩ | ⟨c, t, hunits, rfl, hlead, htrail⟩
    · rw [hunits] at h
      exact ⟨_, read_single h hzero hlead htrail, h.pass [c] (by simpa using hzero.symm), hsmall⟩
    · rw [hunits] at h
      have hread := read_pair h hlead
      rw [if_pos htrail] at hread
      refine ⟨_, hread, h.pass [c, t] ?_, hsmall⟩
      simp [(surrogate_ne_zero (.inl hlead)).symm, (surrogate_ne_zero (.inr htrail)).symm]
  refuse := by
    intro buf cur ahead h hnext
    match ahead with
    | [] => exact ⟨_, _, by rw [read, if_pos (h.remaining_eq_zero.mpr rfl)], .inl rfl⟩
    | c :: l =>
      have hrem := mt h.remaining_eq_zero.mp (List.cons_ne_nil c l)
      by_cases hzero : c = 0
      · exact ⟨_, _, by rw [read, if_neg hrem, h.read_front, ok_bind, if_pos hzero], .inl rfl⟩
      by_cases hlead : leadSurrogate c
      · match l with
        | [] =>
          by_cases hshort : cur.short 2
          · exact ⟨_, _, by
              rw [read, if_neg hrem, h.read_front, ok_bind, if_neg hzero, if_pos hlead, if_pos hshort], .inl rfl⟩
          · rcases h.enough (List.cons_ne_nil c []) hshort with hlen | hmem
            · simp at hlen
            · exact absurd (List.mem_singleton.mp hmem).symm hzero
        | t :: l =>
          have htrail : ¬ trailSurrogate t := by
            intro htrail
            rw [next, if_neg hzero, if_pos hlead, if_pos htrail] at hnext
            simp at hnext
          exact ⟨_, _, by rw [read_pair h hlead, if_neg htrail], .inr rfl⟩
      by_cases htrail : trailSurrogate c
      · exact ⟨_, _, by
          rw [read, if_neg hrem, h.read_front, ok_bind, if_neg hzero, if_neg hlead, if_pos htrail], .inr rfl⟩
      · rw [next_single hzero hlead htrail] at hnext
        simp at hnext

end Ucs2Reader

namespace Utf8Reader

/-- The loop over the subsequent bytes accepts what the partial function accepts. -/
theorem subsequent_accept {buf done beyond l rest : List UInt8} {remaining : ℤ} {n current : ℕ} {x cp : UInt32}
    (hbuf : buf = done ++ (l ++ beyond)) (hcur : current + 1 = done.length)
    (h : collect n x l = some (cp, rest)) :
    subsequent buf remaining n current x = .ok (cp, ⟨current + (n + 1), remaining⟩) := by
  induction n generalizing x l done current with
  | zero =>
    simp only [collect, Option.some.injEq, Prod.mk.injEq] at h
    rw [subsequent, h.1]
  | succ n ih =>
    cases l with
    | nil => simp [collect] at h
    | cons c l =>
      obtain ⟨hc, hnext⟩ := collect_cons h
      have hsplit : buf = (done ++ [c]) ++ (l ++ beyond) := by
        rw [hbuf]
        simp only [List.cons_append, List.append_assoc, List.nil_append]
      have hcur' : current + 1 + 1 = (done ++ [c]).length := by rw [hcur, List.length_append, List.length_singleton]
      have hread : Buffers.read Fault.outOfBounds buf (current + 1) = .ok c := by
        rw [hbuf, List.cons_append]
        exact read_here hcur
      rw [subsequent, hread, ok_bind, if_pos hc, ih hsplit hcur' hnext]
      congr 3
      omega

/-- It refuses what the partial function refuses, unless the bytes end too early. -/
theorem subsequent_refuse {buf done beyond l : List UInt8} {remaining : ℤ} {n current : ℕ} {x : UInt32}
    (hbuf : buf = done ++ (l ++ beyond)) (hcur : current + 1 = done.length) (henough : n ≤ l.length ∨ 0 ∈ l)
    (h : collect n x l = none) :
    ∃ cur', subsequent buf remaining n current x = .ok (BAD_FORMAT, cur') ∧ cur'.remaining = remaining := by
  induction n generalizing x l done current with
  | zero => simp [collect] at h
  | succ n ih =>
    cases l with
    | nil => simp at henough
    | cons c l =>
      have hread : Buffers.read Fault.outOfBounds buf (current + 1) = .ok c := by
        rw [hbuf, List.cons_append]
        exact read_here hcur
      rw [collect] at h
      rw [subsequent, hread, ok_bind]
      split at h
      case isFalse hc => exact ⟨_, by rw [if_neg hc], rfl⟩
      case isTrue hc =>
        have hsplit : buf = (done ++ [c]) ++ (l ++ beyond) := by
          rw [hbuf]
          simp only [List.cons_append, List.append_assoc, List.nil_append]
        have hcur' : current + 1 + 1 = (done ++ [c]).length := by rw [hcur, List.length_append, List.length_singleton]
        have hrest : n ≤ l.length ∨ 0 ∈ l := by
          rcases henough with hlen | hmem
          · exact .inl (by simpa using hlen)
          · refine .inr ((List.mem_cons.mp hmem).resolve_left ?_)
            rintro rfl
            revert hc
            decide
        rw [if_pos hc]
        exact ih hsplit hcur' hrest h

/-- A reader that refuses has come to its end if and only if no units are ahead. -/
theorem read_refuse {buf ahead : List UInt8} {cur : Cursor} (h : Ahead 0 buf cur ahead)
    (hnext : next ahead = none) :
    ∃ status cur', read buf cur = .ok (status, cur') ∧ (status = END_OF_STREAM ∨ status = BAD_FORMAT) ∧
      (status = END_OF_STREAM ∧ cur'.remaining = 0 ↔ ahead = []) := by
  have hrem := h.remaining_eq_zero
  have hbad : BAD_FORMAT ≠ END_OF_STREAM := by decide
  cases ahead with
  | nil => exact ⟨_, _, by rw [read, if_pos (hrem.mpr rfl)], .inl rfl, iff_of_true ⟨rfl, hrem.mpr rfl⟩ rfl⟩
  | cons c l =>
    have hne : cur.remaining ≠ 0 := mt hrem.mp (List.cons_ne_nil c l)
    rw [next] at hnext
    rw [read, if_neg hne, h.read_front, ok_bind]
    by_cases hzero : c = 0
    · exact ⟨_, _, if_pos hzero, .inl rfl, iff_of_false (fun hend => hne hend.2) (List.cons_ne_nil c l)⟩
    rw [if_neg hzero] at hnext
    rw [if_neg hzero]
    cases hfirst : first c with
    | none => exact ⟨_, _, rfl, .inr rfl, iff_of_false (fun hend => hbad hend.1) (List.cons_ne_nil c l)⟩
    | some found =>
      obtain ⟨n, x⟩ := found
      rw [hfirst] at hnext
      by_cases hshort : cur.short (n + 1)
      · exact ⟨_, _, if_pos hshort, .inl rfl, iff_of_false (fun hend => hne hend.2) (List.cons_ne_nil c l)⟩
      · obtain ⟨done, beyond, hbuf, hcur⟩ := h.split_behind
        have henough : n ≤ l.length ∨ 0 ∈ l := by
          rcases h.enough (List.cons_ne_nil c l) hshort with hlen | hmem
          · exact .inl (by simpa using hlen)
          · exact .inr ((List.mem_cons.mp hmem).resolve_left (Ne.symm hzero))
        obtain ⟨cur', hsub, -⟩ := subsequent_refuse hbuf hcur henough hnext
        exact ⟨_, _, (if_neg hshort).trans hsub, .inr rfl,
          iff_of_false (fun hend => hbad hend.1) (List.cons_ne_nil c l)⟩

theorem follows : Follows 0 Utf8Reader.read next where
  accept := by
    intro buf cur ahead cp rest h hnext
    have hsmall := (accepted hnext).small
    cases ahead with
    | nil => simp [next] at hnext
    | cons c l =>
      have hne : cur.remaining ≠ 0 := mt h.remaining_eq_zero.mp (List.cons_ne_nil c l)
      rw [next] at hnext
      split at hnext
      · simp at hnext
      next hzero =>
        split at hnext
        · simp at hnext
        next n x hfirst =>
          obtain ⟨pre, hpre, hlen, hnul⟩ := collect_split hnext
          obtain ⟨done, beyond, hbuf, hcur⟩ := h.split_behind
          have hshort : ¬ cur.short (n + 1) := by
            intro hshort
            have hlt := h.short hshort
            rw [hpre, List.length_cons, List.length_append] at hlt
            omega
          have hpass : Ahead 0 buf (cur.pass (c :: pre).length) rest := by
            refine Ahead.pass (c :: pre) ?_ (by simp [Ne.symm hzero, hnul])
            rwa [List.cons_append, ← hpre]
          rw [List.length_cons, hlen] at hpass
          refine ⟨_, ?_, hpass, ?_, ?_⟩
          · rw [read, if_neg hne, h.read_front, ok_bind, if_neg hzero, hfirst]
            simp only
            rw [if_neg hshort]
            exact subsequent_accept hbuf hcur hnext
          · rintro rfl
            exact absurd hsmall (by decide)
          · rintro rfl
            exact absurd hsmall (by decide)
  refuse := by
    intro buf cur ahead h hnext
    obtain ⟨status, cur', hread, hstatus, -⟩ := read_refuse h hnext
    exact ⟨status, cur', hread, hstatus⟩

end Utf8Reader
end Followers

section Room
variable {β : Type}

/-- Room for some units and a null ahead of a writer. -/
structure Room (cur : Cursor) (room : List β) (n : ℕ) : Prop where
  length : n < room.length
  count : cur.remaining < 0 ∨ n < cur.remaining

variable {cur : Cursor} {done room units : List β} {n : ℕ}

theorem writeUnits_room (h : Room cur room n) (hcur : cur.current = done.length) (hn : units.length ≤ n) :
    writeUnits units cur (done ++ room) =
      .ok (SUCCESS, cur.pass units.length, (done ++ units) ++ room.drop units.length) := by
  have hlen := h.length
  have hgo : ¬ (cur.remaining = 0 ∨ cur.short units.length) := by
    rw [Cursor.short]
    rcases h.count with hneg | hcount <;> omega
  rw [writeUnits, if_neg hgo, writeAll_here hcur (by omega), ok_bind]

theorem Room.pass (h : Room cur room n) (hn : units.length ≤ n) :
    Room (cur.pass units.length) (room.drop units.length) (n - units.length) where
  length := by
    have hlen := h.length
    rw [List.length_drop]
    omega
  count := by
    simp only [Cursor.pass]
    rcases h.count with hneg | hcount
    · exact .inl (by rwa [if_neg (by omega)])
    · refine .inr ?_
      rw [if_pos (by omega)]
      omega

theorem closure_room {nul : β} (h : Room cur room n) (hcur : cur.current = done.length) :
    closure nul cur (done ++ room) = .ok (SUCCESS, done ++ nul :: room.drop 1) := by
  have hne : cur.remaining ≠ 0 := by
    rcases h.count with hneg | hcount <;> omega
  cases room with
  | nil => exact absurd h.length (Nat.not_lt_zero n)
  | cons b room => rw [closure, if_pos hne, write_here hcur, ok_bind, List.drop_succ_cons, List.drop_zero]

end Room

section Driver

/-- What the reader of a width accepts. -/
def Width.next : (w : Width) → Next w.Unit UInt32
  | .one => Utf8Reader.next
  | .two => Ucs2Reader.next
  | .four => Ucs4Reader.next

/-- What the writer of a width writes for a code point. -/
def Width.units : (w : Width) → UInt32 → List w.Unit
  | .one => Utf8Writer.units
  | .two => Ucs2Writer.units
  | .four => Ucs4Writer.units

theorem selectReader_follows (w : Width) : Follows w.nul (selectReader w) w.next := by
  cases w with
  | one => exact Utf8Reader.follows
  | two => exact Ucs2Reader.follows
  | four => exact Ucs4Reader.follows

theorem next_shrinks (w : Width) : Shrinks w.next := by
  cases w with
  | one => exact Utf8Reader.next_shrinks
  | two => exact Ucs2Reader.next_shrinks
  | four => exact Ucs4Reader.next_shrinks

theorem selectWriter_eq (w : Width) (cp : UInt32) : selectWriter w cp = writeUnits (w.units cp) := by
  cases w with
  | one | two | four => rfl

/-- The code points that the units ahead of a reader decode to. -/
def Width.codes (w : Width) (ahead : List w.Unit) : List UInt32 := (decode w.next ahead).1

/-- The units that a writer writes for some code points. -/
def Width.text (w : Width) (cps : List UInt32) : List w.Unit := cps.flatMap w.units

theorem codes_of_none {w : Width} {ahead : List w.Unit} (h : w.next ahead = none) : w.codes ahead = [] := by
  rw [Width.codes, decode_none h]

theorem codes_of_some {w : Width} {ahead rest : List w.Unit} {cp : UInt32} (h : w.next ahead = some (cp, rest)) :
    w.codes ahead = cp :: w.codes rest := by
  rw [Width.codes, decode_some (next_shrinks w) h, Width.codes]

theorem text_cons (w : Width) (cp : UInt32) (cps : List UInt32) : w.text (cp :: cps) = w.units cp ++ w.text cps :=
  List.flatMap_cons

section Rounds
variable {β : Type} {read : Cursor → Except Fault (UInt32 × Cursor)}
  {write : UInt32 → Cursor → List β → Except Fault (UInt32 × Cursor × List β)}
  {closure : Cursor → List β → Except Fault (UInt32 × List β)} {r r' w w' : Cursor} {dbuf dbuf' : List β}
  {cp status : UInt32} {cnt : ℤ} (fuel : ℕ)

theorem convLoop_ends (hread : read r = .ok (cp, r')) (hend : cp = END_OF_STREAM ∨ cp = BAD_FORMAT)
    (hclosure : closure w dbuf = .ok (status, dbuf')) :
    convLoop read write closure (fuel + 1) r w dbuf cnt = .ok ⟨cnt, dbuf', .read cp, r', w⟩ := by
  rw [convLoop, hread, ok_bind]
  simp only
  rw [if_pos hend, hclosure, ok_bind]

/-- The round in which the writer ends the loop. -/
theorem convLoop_refused (hread : read r = .ok (cp, r')) (hgo : ¬ (cp = END_OF_STREAM ∨ cp = BAD_FORMAT))
    (hwrite : write cp w dbuf = .ok (status, w', dbuf')) (hstop : status ≠ SUCCESS) :
    convLoop read write closure (fuel + 1) r w dbuf cnt = .ok ⟨cnt, dbuf', .write status, r', w'⟩ := by
  rw [convLoop, hread, ok_bind]
  simp only
  rw [if_neg hgo, hwrite, ok_bind]
  exact if_pos hstop

/-- A round that converts a code point. -/
theorem convLoop_converts (hread : read r = .ok (cp, r')) (hgo : ¬ (cp = END_OF_STREAM ∨ cp = BAD_FORMAT))
    (hwrite : write cp w dbuf = .ok (SUCCESS, w', dbuf')) :
    convLoop read write closure (fuel + 1) r w dbuf cnt =
      convLoop read write closure fuel r' w' dbuf' (s32 (cnt + 1)) := by
  rw [convLoop, hread, ok_bind]
  simp only
  rw [if_neg hgo, hwrite, ok_bind]
  exact if_neg (not_not.mpr rfl)

/-- A count that has wrapped goes on as if it had not. -/
theorem s32_count (k : ℕ) : s32 (s32 k + 1) = s32 ((k + 1 : ℕ) : ℤ) := by
  rw [s32, s32, s32, Int.bmod_add_bmod]
  norm_num

end Rounds

/-- Where a conversion stops that has an ample destination: its reader refuses. -/
structure Refused (w : Width) (sbuf ahead : List w.Unit) {β : Type} (c : Conversion β) : Prop where
  refused : w.next (decode w.next ahead).2 = none
  stopped : ∃ cur status, Ahead w.nul sbuf cur (decode w.next ahead).2 ∧
    selectReader w sbuf cur = .ok (status, c.reader) ∧ c.stop = .read status

/-- The loop writes the forms of the code points ahead, and a null. -/
theorem convLoop_room {scw dcw : Width} {sbuf ahead : List scw.Unit} {done room : List dcw.Unit} {r w : Cursor}
    {fuel k : ℕ} (h : Ahead scw.nul sbuf r ahead) (hfuel : ahead.length < fuel)
    (hroom : Room w room (dcw.text (scw.codes ahead)).length) (hw : w.current = done.length) :
    ∃ c, convLoop (selectReader scw sbuf) (selectWriter dcw) (closure dcw.nul) fuel r w (done ++ room) (s32 k) =
        .ok c ∧ c.cnt = s32 (k + (scw.codes ahead).length : ℕ) ∧
      c.dbuf = done ++ dcw.text (scw.codes ahead) ++
        dcw.nul :: room.drop ((dcw.text (scw.codes ahead)).length + 1) ∧
      c.writer.current = done.length + (dcw.text (scw.codes ahead)).length ∧ Refused scw sbuf ahead c := by
  induction ahead using decode_induction (next_shrinks scw) generalizing fuel r w done room k with
  | stop ahead hnone =>
    obtain ⟨fuel, rfl⟩ : ∃ m, fuel = m + 1 := ⟨fuel - 1, by omega⟩
    obtain ⟨status, r', hread, hstatus⟩ := (selectReader_follows scw).refuse h hnone
    have hdecode := decode_none hnone
    rw [codes_of_none hnone] at hroom ⊢
    have hleft : (decode scw.next ahead).2 = ahead := by rw [hdecode]
    refine ⟨⟨s32 k, done ++ dcw.nul :: room.drop 1, .read status, r', w⟩, ?_, ?_, ?_, hw, ?_⟩
    · exact convLoop_ends fuel hread hstatus (closure_room hroom hw)
    · rw [List.length_nil, Nat.add_zero]
    · simp only [Width.text, List.flatMap_nil, List.length_nil, Nat.zero_add, List.append_nil]
    · exact ⟨by rw [hleft, hnone], r, status, by rwa [hleft], hread, rfl⟩
  | step ahead cp rest hsome ih =>
    obtain ⟨fuel, rfl⟩ : ∃ m, fuel = m + 1 := ⟨fuel - 1, by omega⟩
    obtain ⟨r', hread, hahead, hend, hbad⟩ := (selectReader_follows scw).accept h hsome
    have hlt := next_shrinks scw ahead cp rest hsome
    have hdecode := decode_some (next_shrinks scw) hsome
    have hcodes := codes_of_some hsome
    have htext : dcw.text (scw.codes ahead) = dcw.units cp ++ dcw.text (scw.codes rest) := by
      rw [hcodes, text_cons]
    rw [htext] at hroom
    have hle : (dcw.units cp).length ≤ (dcw.units cp ++ dcw.text (scw.codes rest)).length := by
      rw [List.length_append]
      omega
    have hwrite := writeUnits_room hroom hw hle
    rw [← selectWriter_eq] at hwrite
    have hroom' := hroom.pass hle
    rw [List.length_append, Nat.add_sub_cancel_left] at hroom'
    have hw' : (w.pass (dcw.units cp).length).current = (done ++ dcw.units cp).length := by
      rw [Cursor.pass, List.length_append, hw]
    have hfuel' : rest.length < fuel := by omega
    obtain ⟨c, hrun, hcnt, hdbuf, hwritten, hrefused⟩ := ih (k := k + 1) hahead hfuel' hroom' hw'
    refine ⟨c, ?_, ?_, ?_, ?_, ⟨by rw [hdecode]; exact hrefused.refused, ?_⟩⟩
    · rw [convLoop_converts fuel hread (not_or.mpr ⟨hend, hbad⟩) hwrite, s32_count]
      exact hrun
    · rw [hcnt, hcodes, List.length_cons]
      congr 2
      omega
    · rw [hdbuf, htext, List.drop_drop, List.length_append, List.append_assoc done, Nat.add_assoc]
    · rw [hwritten, htext, List.length_append, List.length_append]
      omega
    · rw [hdecode]
      exact hrefused.stopped

/-- What a conversion leaves behind whose destination is ample. -/
structure Converted (scw dcw : Width) (sbuf ahead : List scw.Unit) (dbuf : List dcw.Unit)
    (c : Conversion dcw.Unit) : Prop where
  cnt : c.cnt = s32 (scw.codes ahead).length
  dbuf : c.dbuf = dcw.text (scw.codes ahead) ++ dcw.nul :: dbuf.drop ((dcw.text (scw.codes ahead)).length + 1)
  written : c.writer.current = (dcw.text (scw.codes ahead)).length
  refused : Refused scw sbuf ahead c

theorem utfConvInner_room {scw dcw : Width} {sbuf ahead : List scw.Unit} {dbuf : List dcw.Unit} {scnt dcnt : ℤ}
    (h : Ahead scw.nul sbuf ⟨0, scnt⟩ ahead)
    (hroom : Room ⟨0, dcnt⟩ dbuf (dcw.text (scw.codes ahead)).length) :
    ∃ c, utfConvInner scw dcw sbuf dbuf scnt dcnt = .ok c ∧ Converted scw dcw sbuf ahead dbuf c := by
  obtain ⟨done, beyond, hbuf, hcur⟩ := h.split
  have hlen : ahead.length < sbuf.length + 1 := by
    rw [hbuf, List.length_append, List.length_append]
    omega
  have hstart : (⟨0, dcnt⟩ : Cursor).current = ([] : List dcw.Unit).length := rfl
  obtain ⟨c, hrun, hcnt, hdbuf, hwritten, hrefused⟩ := convLoop_room (k := 0) h hlen hroom hstart
  rw [Nat.zero_add] at hcnt
  rw [List.nil_append] at hdbuf
  rw [List.length_nil, Nat.zero_add] at hwritten
  exact ⟨c, hrun, hcnt, hdbuf, hwritten, hrefused⟩

end Driver
end LibXpf.Utf
