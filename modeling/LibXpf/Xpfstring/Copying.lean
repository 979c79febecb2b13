import LibXpf.Xpfstring.Widening

/-! # What a call copies from its format

A specification starts at a percent sign, and goes on as the scanner reads it. The
characters outside of the specifications are copied under an exact condition.
-/
namespace LibXpf.Xpfstring
open Buffers StepLoops

section Copying
variable {t : CharType} {format : List t.ValueType} {ap : List (VaArg t)} {i : ℕ} {ch : t.ValueType}
  {state : ParseState}

/-- The places of a format, and what they are: text, or a place within a specification. -/
inductive Place (format : List t.ValueType) : ParseState → ℕ → Prop
  | start : Place format .ST_TEXT 0
  | text {i : ℕ} {ch : t.ValueType} (h : Place format .ST_TEXT i) (hget : format[i]? = some ch) (hch : ch ≠ 0)
      (hpercent : ch ≠ t.ofChar (ascii '%')) : Place format .ST_TEXT (i + 1)
  | percent {i : ℕ} (h : Place format .ST_TEXT i) (hget : format[i]? = some (t.ofChar (ascii '%'))) :
      Place format .ST_FLAGS (i + 1)
  | within {state : ParseState} {i : ℕ} {ch : t.ValueType} (h : Place format state i) (hstate : state ≠ .ST_TEXT)
      (hget : format[i]? = some ch) (hch : ch ≠ 0) :
      Place format (state.next (t.narrow ch) (repeatedAt format i (t.narrow ch))).1
        (i + (state.next (t.narrow ch) (repeatedAt format i (t.narrow ch))).2)

/-- A character of the format that is in no specification. -/
structure Outside (format : List t.ValueType) (i : ℕ) (ch : t.ValueType) : Prop where
  place : Place format .ST_TEXT i
  get : format[i]? = some ch
  ne_zero : ch ≠ 0
  ne_percent : ch ≠ t.ofChar (ascii '%')

/-- The character is copied to the string when the scanner comes to it as text. -/
def Copied (format : List t.ValueType) (ap : List (VaArg t)) (str : List t.ValueType) (i : ℕ) (ch : t.ValueType) : Prop :=
  ∃ m m', Visits (Machine.step format) (Machine.start ap) m ∧ m.state = .ST_TEXT ∧ m.p = i ∧
    Leads (Machine.step format) m m' ∧ m'.str = m.str ++ [ch] ∧ m'.str <+: str

/-- No character outside of the specifications is taken for a percent sign. -/
def Distinct (format : List t.ValueType) : Prop := ∀ i ch, Outside format i ch → t.narrow ch ≠ ascii '%'

theorem printf_loop {str : List t.ValueType} {n : ℕ} (h : printf format ap = .ok (str, n)) :
    ∃ fuel m, loop Trap.diverges (Machine.step format) fuel (Machine.start ap) = .ok m ∧ m.str = str := by
  obtain ⟨m, hloop, hresult⟩ := ok_of_bind h
  exact ⟨_, m, hloop, congrArg Prod.fst (Except.ok.inj hresult)⟩

/-- At a character the scanner takes a step. -/
theorem visits_leads {fuel : ℕ} {m last : Machine t}
    (hloop : loop Trap.diverges (Machine.step format) fuel (Machine.start ap) = .ok last)
    (hvisits : Visits (Machine.step format) (Machine.start ap) m) (hget : format[m.p]? = some ch) (hch : ch ≠ 0) :
    ∃ m', Leads (Machine.step format) m m' ∧
      m'.state = (m.state.next (t.narrow ch) (repeatedAt format m.p (t.narrow ch))).1 ∧
      m'.p = m.p + (m.state.next (t.narrow ch) (repeatedAt format m.p (t.narrow ch))).2 := by
  rcases visits_steps hloop hvisits with hend | ⟨m', hlead⟩
  · obtain ⟨hread, -⟩ | ⟨_, _, _, _, _, hnext⟩ := step_cases hend
    · have hzero := (read_ok_iff.mp hread).symm.trans hget
      exact absurd (Option.some.inj hzero).symm hch
    · exact absurd hnext.symm (Option.some_ne_none _)
  · obtain ⟨ch', hget', -, hstate, hp, -⟩ := step_moves hlead
    obtain rfl : ch' = ch := Option.some.inj (hget'.symm.trans hget)
    exact ⟨m', hlead, hstate, hp⟩

/-- If no character is taken for a percent sign, the scanner comes to every place. -/
theorem place_visited {fuel : ℕ} {last : Machine t} (hdistinct : Distinct format)
    (hloop : loop Trap.diverges (Machine.step format) fuel (Machine.start ap) = .ok last) (h : Place format state i) :
    ∃ m, Visits (Machine.step format) (Machine.start ap) m ∧ m.state = state ∧ m.p = i := by
  induction h with
  | start => exact ⟨Machine.start ap, .refl, rfl, rfl⟩
  | @text i ch hplace hget hch hpercent ih =>
    obtain ⟨m, hvisits, hstate, rfl⟩ := ih
    obtain ⟨m', hlead, hstate', hp⟩ := visits_leads hloop hvisits hget hch
    have hne : t.narrow ch ≠ ascii '%' := hdistinct m.p ch ⟨hplace, hget, hch, hpercent⟩
    rw [hstate, ParseState.next, if_neg hne] at hstate' hp
    exact ⟨m', hvisits.tail hlead, hstate', hp⟩
  | @percent i hplace hget ih =>
    obtain ⟨m, hvisits, hstate, rfl⟩ := ih
    have hch : t.ofChar (ascii '%') ≠ 0 := CharType.ofChar_eq_zero.not.mpr (by decide)
    obtain ⟨m', hlead, hstate', hp⟩ := visits_leads hloop hvisits hget hch
    rw [hstate, ParseState.next, t.narrow_ofChar, if_pos rfl] at hstate' hp
    exact ⟨m', hvisits.tail hlead, hstate', hp⟩
  | @within state i ch hplace hstate hget hch ih =>
    obtain ⟨m, hvisits, rfl, rfl⟩ := ih
    obtain ⟨m', hlead, hstate', hp⟩ := visits_leads hloop hvisits hget hch
    exact ⟨m', hvisits.tail hlead, hstate', hp⟩

theorem text_step {m m' : Machine t} (hlead : Leads (Machine.step format) m m') (hstate : m.state = .ST_TEXT)
    (hget : format[m.p]? = some ch) : m'.str = if t.narrow ch = ascii '%' then m.str else m.str ++ [ch] := by
  obtain ⟨-, hnone⟩ | ⟨ch', r, hread, -, hexamine, hnext⟩ := step_cases hlead
  · exact absurd hnone (Option.some_ne_none m')
  · obtain rfl : ch' = ch := Option.some.inj ((read_ok_iff.mp hread).symm.trans hget)
    obtain rfl : m' = { r with p := r.p + 1 } := Option.some.inj hnext
    rw [Machine.examine, hstate] at hexamine
    simp only at hexamine
    split at hexamine
    next h => rw [if_pos h, ← Except.ok.inj hexamine]
    next h => rw [if_neg h, ← Except.ok.inj hexamine]

/-- Every character outside of the specifications is copied, if and only if none is taken for a percent sign. -/
theorem copied_iff {str : List t.ValueType} {n : ℕ} (h : printf format ap = .ok (str, n)) :
    (∀ i ch, Outside format i ch → Copied format ap str i ch) ↔ Distinct format := by
  obtain ⟨fuel, last, hloop, rfl⟩ := printf_loop h
  constructor
  · intro hcopied i ch houtside hpercent
    obtain ⟨m, m', -, hstate, rfl, hlead, hstr, -⟩ := hcopied i ch houtside
    have htext := text_step hlead hstate houtside.get
    rw [if_pos hpercent, hstr] at htext
    exact absurd htext (by simp)
  · intro hdistinct i ch houtside
    obtain ⟨m, hvisits, hstate, rfl⟩ := place_visited hdistinct hloop houtside.place
    obtain ⟨m', hlead, -, -⟩ := visits_leads hloop hvisits houtside.get houtside.ne_zero
    have htext := text_step hlead hstate houtside.get
    rw [if_neg (hdistinct m.p ch houtside)] at htext
    exact ⟨m, m', hvisits, hstate, rfl, hlead, htext, visits_grows (visits_end hloop (hvisits.tail hlead))⟩

/-- A call over any type of characters writes what the same call over `c8` writes, if and only if every
specification is a good one, and copies what is outside of the specifications, if and only if no character
there is taken for a percent sign. -/
theorem printf_generic_iff (t : CharType) :
    (∀ (format : List CharType.c8.ValueType) (ap : List (VaArg .c8)) (str : List CharType.c8.ValueType) (n : ℕ),
        printf format ap = .ok (str, n) →
          (printf (format.map t.widen) (ap.map (VaArg.widen t)) = .ok (str.map t.widen, n) ↔
            AllGood (Machine.step format) (Agrees t format) (Machine.start ap))) ∧
      ∀ (format : List t.ValueType) (ap : List (VaArg t)) (str : List t.ValueType) (n : ℕ),
        printf format ap = .ok (str, n) →
          ((∀ i ch, Outside format i ch → Copied format ap str i ch) ↔ Distinct format) :=
  ⟨fun format ap _ _ h => printf_widen_iff t format ap h, fun _ _ _ _ h => copied_iff h⟩

/-- A string literal of the source, with its null. -/
def CharType.literal (t : CharType) (s : String) : List t.ValueType := (chars s).map t.ofChar ++ [0]

theorem printf_generic_iff_u16 :
    (printf ((CharType.c8.literal "a%d").map CharType.u16.widen) [VaArg.int 5] =
        .ok (((chars "a5").map CharType.c8.ofChar).map CharType.u16.widen, 2) ↔
      AllGood (Machine.step (CharType.c8.literal "a%d")) (Agrees .u16 (CharType.c8.literal "a%d"))
        (Machine.start [VaArg.int 5])) ∧
    ((∀ i ch, Outside (CharType.u16.literal "a%d") i ch →
        Copied (CharType.u16.literal "a%d") [VaArg.int 5] ((chars "a5").map CharType.u16.ofChar) i ch) ↔
      Distinct (CharType.u16.literal "a%d")) :=
  ⟨(printf_generic_iff .u16).1 (CharType.c8.literal "a%d") [.int 5] _ _ (by decide),
    (printf_generic_iff .u16).2 (CharType.u16.literal "a%d") [.int 5] _ 2 (by decide)⟩

/-- A zero with the percision zero is written in a wider type only, and a character whose low byte is the
percent sign is not copied. -/
theorem printf_not_generic :
    (¬ ∀ (format : List CharType.c8.ValueType) (ap : List (VaArg .c8)) (str : List CharType.c8.ValueType) (n : ℕ),
        printf format ap = .ok (str, n) →
          printf (format.map CharType.u16.widen) (ap.map (VaArg.widen .u16)) = .ok (str.map CharType.u16.widen, n)) ∧
      ¬ ∀ (format : List CharType.u16.ValueType) (ap : List (VaArg .u16)) (str : List CharType.u16.ValueType) (n : ℕ),
        printf format ap = .ok (str, n) → ∀ i ch, Outside format i ch → Copied format ap str i ch := by
  constructor
  · intro h
    exact absurd (h (CharType.c8.literal "%.0d") [.int 0] [] 0 (by decide)) (by decide)
  · intro h
    have houtside : Outside ([0x0125, 0] : List CharType.u16.ValueType) 0 0x0125 := ⟨.start, rfl, by decide, by decide⟩
    obtain ⟨m, m', -, -, -, -, hstr, hprefix⟩ := h [0x0125, 0] [] [] 0 (by decide) 0 0x0125 houtside
    rw [hstr, List.prefix_nil] at hprefix
    exact absurd hprefix (by simp)

end Copying
end LibXpf.Xpfstring
