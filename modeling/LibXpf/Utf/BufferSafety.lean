import LibXpf.Utf.Truncation

/-! # No unit outside of the buffers

A conversion of a buffer with just the units that it may read, into one with just
the units that it may write, succeeds whatever the units are. What lies beyond has
no part in it, so it is the same in every longer buffer.
-/
namespace LibXpf.Utf
open UnitCodes Buffers

section Reading

theorem Utf8Reader.subsequent_append {buf : List UInt8} {remaining : ℤ} {n current : ℕ} {x : UInt32}
    {result : UInt32 × Cursor} (h : subsequent buf remaining n current x = .ok result) (beyond : List UInt8) :
    subsequent (buf ++ beyond) remaining n current x = .ok result := by
  induction n generalizing current x with
  | zero => exact h
  | succ n ih =>
    obtain ⟨c, hread, hrest⟩ := ok_of_bind h
    rw [subsequent, read_append hread, ok_bind]
    split at hrest
    next hc =>
      rw [if_pos hc]
      exact ih hrest
    next hc =>
      rw [if_neg hc]
      exact hrest

theorem Utf8Reader.read_append {buf : List UInt8} {cur : Cursor} {result : UInt32 × Cursor}
    (h : read buf cur = .ok result) (beyond : List UInt8) : read (buf ++ beyond) cur = .ok result := by
  rw [read] at h ⊢
  split at h
  next hrem => rwa [if_pos hrem]
  next hrem =>
    obtain ⟨c, hread, hrest⟩ := ok_of_bind h
    rw [if_neg hrem, Buffers.read_append hread, ok_bind]
    split at hrest
    next hzero => rwa [if_pos hzero]
    next hzero =>
      rw [if_neg hzero]
      cases hfirst : first c with
      | none => simpa [hfirst] using hrest
      | some found =>
        obtain ⟨n, x⟩ := found
        simp only [hfirst] at hrest ⊢
        split at hrest
        next hshort => rwa [if_pos hshort]
        next hshort =>
          rw [if_neg hshort]
          exact subsequent_append hrest beyond

theorem Ucs2Reader.read_append {buf : List UInt16} {cur : Cursor} {result : UInt32 × Cursor}
    (h : read buf cur = .ok result) (beyond : List UInt16) : read (buf ++ beyond) cur = .ok result := by
  rw [read] at h ⊢
  split at h
  next hrem => rwa [if_pos hrem]
  next hrem =>
    obtain ⟨c, hread, hrest⟩ := ok_of_bind h
    rw [if_neg hrem, Buffers.read_append hread, ok_bind]
    by_cases hgo : c ≠ 0 ∧ leadSurrogate c ∧ ¬ cur.short 2
    · -- the only reader that looks at a second unit here
      obtain ⟨hzero, hlead, hshort⟩ := hgo
      rw [if_neg hzero, if_pos hlead, if_neg hshort] at hrest ⊢
      obtain ⟨t, hread', hrest⟩ := ok_of_bind hrest
      rw [Buffers.read_append hread', ok_bind]
      exact hrest
    · split at hrest
      next hzero => rwa [if_pos hzero]
      next hzero =>
        rw [if_neg hzero]
        split at hrest
        next hlead =>
          have hshort : cur.short 2 := by
            by_contra hshort
            exact hgo ⟨hzero, hlead, hshort⟩
          rw [if_pos hshort] at hrest
          rwa [if_pos hlead, if_pos hshort]
        next hlead => rwa [if_neg hlead]

theorem Ucs4Reader.read_append {buf : List UInt32} {cur : Cursor} {result : UInt32 × Cursor}
    (h : read buf cur = .ok result) (beyond : List UInt32) : read (buf ++ beyond) cur = .ok result := by
  rw [read] at h ⊢
  split at h
  next hrem => rwa [if_pos hrem]
  next hrem =>
    obtain ⟨c, hread, hrest⟩ := ok_of_bind h
    rw [if_neg hrem, Buffers.read_append hread, ok_bind]
    exact hrest

theorem selectReader_append {w : Width} {buf : List w.Unit} {cur : Cursor} {result : UInt32 × Cursor}
    (h : selectReader w buf cur = .ok result) (beyond : List w.Unit) :
    selectReader w (buf ++ beyond) cur = .ok result := by
  cases w with
  | one => exact Utf8Reader.read_append h beyond
  | two => exact Ucs2Reader.read_append h beyond
  | four => exact Ucs4Reader.read_append h beyond

end Reading

section Writing
variable {β : Type} {units buf buf' : List β} {cur cur' : Cursor} {status : UInt32}

theorem writeUnits_append (h : writeUnits units cur buf = .ok (status, cur', buf')) (behind : List β) :
    writeUnits units cur (buf ++ behind) = .ok (status, cur', buf' ++ behind) := by
  rw [writeUnits] at h ⊢
  split at h
  next hstop =>
    cases h
    rw [if_pos hstop]
  next hgo =>
    obtain ⟨next, hwrite, hrest⟩ := ok_of_bind h
    cases hrest
    rw [if_neg hgo, writeAll_append hwrite, ok_bind]

theorem closure_append {nul : β} (h : closure nul cur buf = .ok (status, buf')) (behind : List β) :
    closure nul cur (buf ++ behind) = .ok (status, buf' ++ behind) := by
  rw [closure] at h ⊢
  split at h
  next hroom =>
    obtain ⟨next, hwrite, hrest⟩ := ok_of_bind h
    cases hrest
    rw [if_pos hroom, write_append hwrite, ok_bind]
  next hroom =>
    cases h
    rw [if_neg hroom]

end Writing

section Runs
variable {scw dcw : Width}

/-- A loop that stays inside two buffers runs alike in longer ones, whatever they hold beyond. -/
theorem convLoop_append {sbuf : List scw.Unit} {dbuf : List dcw.Unit} {r w : Cursor} {cnt : ℤ} {fuel : ℕ}
    {c : Conversion dcw.Unit} (more : ℕ) (beyond : List scw.Unit) (behind : List dcw.Unit)
    (h : convLoop (selectReader scw sbuf) (selectWriter dcw) (closure dcw.nul) fuel r w dbuf cnt = .ok c) :
    convLoop (selectReader scw (sbuf ++ beyond)) (selectWriter dcw) (closure dcw.nul) (fuel + more) r w
      (dbuf ++ behind) cnt = .ok { c with dbuf := c.dbuf ++ behind } := by
  induction fuel generalizing r w dbuf cnt with
  | zero => cases h
  | succ fuel ih =>
    obtain ⟨⟨cp, r'⟩, hread, h⟩ := ok_of_bind h
    rw [Nat.succ_add, convLoop, selectReader_append hread, ok_bind]
    simp only at h ⊢
    split at h
    next hend =>
      obtain ⟨⟨closed, dbuf'⟩, hclosure, h⟩ := ok_of_bind h
      cases h
      rw [if_pos hend, closure_append hclosure, ok_bind]
    next hend =>
      obtain ⟨⟨status, w', dbuf'⟩, hwrite, h⟩ := ok_of_bind h
      rw [selectWriter_eq] at hwrite
      rw [if_neg hend, selectWriter_eq, writeUnits_append hwrite, ok_bind]
      simp only at h ⊢
      split at h
      next hstop =>
        cases h
        rw [if_pos hstop]
      next hgo =>
        rw [if_neg hgo]
        exact ih h

/-- The units that a conversion with this count may read. -/
inductive Extent (w : Width) : List w.Unit → ℤ → Prop
  | counted (s : List w.Unit) : Extent w s s.length
  | terminated (before : List w.Unit) (hnul : w.nul ∉ before) : Extent w (before ++ [w.nul]) (-1)

theorem Extent.holds {s : List scw.Unit} {scnt : ℤ} (h : Extent scw s scnt) : ∃ t, Holds scw t s scnt := by
  cases h with
  | counted s => exact ⟨s, by simpa using Holds.counted (w := scw) (s := s) []⟩
  | terminated before => exact ⟨before, .terminated []⟩

/-- Whatever the units are, a conversion comes to its end inside its buffers, and does the same in longer
ones. -/
theorem utfConvInner_in_bounds {s : List scw.Unit} {scnt : ℤ} (h : Extent scw s scnt) (d : List dcw.Unit) :
    ∃ c, utfConvInner scw dcw s d scnt d.length = .ok c ∧ ∀ beyond behind,
      utfConvInner scw dcw (s ++ beyond) (d ++ behind) scnt d.length =
        .ok { c with dbuf := c.dbuf ++ behind } := by
  obtain ⟨t, hholds⟩ := h.holds
  obtain ⟨c, hrun, -⟩ := utfConvInner_fitting hholds d []
  rw [List.append_nil] at hrun
  refine ⟨c, hrun, ?_⟩
  intro beyond behind
  have hlonger := convLoop_append beyond.length beyond behind hrun
  rw [utfConvInner, List.length_append, Nat.add_right_comm]
  exact hlonger

/-- The first byte of three, and nothing behind it but the null. -/
theorem utfConvInner_in_bounds_cut :
    ∃ c, utfConvInner .one .two [0x61, 0xE2, 0] [7] (-1) 1 = .ok c ∧ ∀ beyond behind,
      utfConvInner .one .two ([0x61, 0xE2, 0] ++ beyond) ([7] ++ behind) (-1) 1 =
        .ok { c with dbuf := c.dbuf ++ behind } :=
  utfConvInner_in_bounds (Extent.terminated (w := .one) [0x61, 0xE2] (by decide)) [7]

end Runs
end LibXpf.Utf
