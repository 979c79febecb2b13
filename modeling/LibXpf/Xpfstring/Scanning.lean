import LibXpf.Xpfstring.Printf

/-! # The course of the scanner

The next state and the next place depend on the state, the character there and whether
the character behind it is the same. A step never takes back what is written.
-/
namespace LibXpf.Xpfstring
open Buffers StepLoops

def isFlag (c : UInt8) : Prop := c = ascii '-' ∨ c = ascii '+' ∨ c = ascii ' ' ∨ c = ascii '#' ∨ c = ascii '0'

instance (c : UInt8) : Decidable (isFlag c) := inferInstanceAs (Decidable (_ ∨ _))

theorem mark_eq_none (flag : Flags) (c : UInt8) : flag.mark c = none ↔ ¬ isFlag c := by
  unfold Flags.mark isFlag
  split_ifs <;> simp [*]

/-- The next state, and how many characters are passed. -/
def ParseState.next (state : ParseState) (c : UInt8) (repeated : Bool) : ParseState × ℕ :=
  match state with
  | .ST_TEXT => if c = ascii '%' then (.ST_FLAGS, 1) else (.ST_TEXT, 1)
  | .ST_FLAGS => if isFlag c then (.ST_FLAGS, 1) else (.ST_WIDTH, 0)
  | .ST_WIDTH =>
    if isDigit c ∨ c = ascii '*' then (.ST_WIDTH, 1) else if c = ascii '.' then (.ST_PERCISION, 1) else (.ST_SUBSPEC, 0)
  | .ST_PERCISION => if isDigit c ∨ c = ascii '*' then (.ST_PERCISION, 1) else (.ST_SUBSPEC, 0)
  | .ST_SUBSPEC =>
    if c = ascii 'l' ∨ c = ascii 'h' then (.ST_SUBSPEC, if repeated then 2 else 1)
    else if c ∈ chars "jztL" then (.ST_SUBSPEC, 1)
    else (.ST_SPEC, 0)
  | .ST_SPEC => (.ST_TEXT, 1)

section Moves
variable {t : CharType} {format : List t.ValueType} {m m' : Machine t} {c : UInt8}

/-- The character at a place is followed by one that is the same letter. -/
def repeatedAt (format : List t.ValueType) (i : ℕ) (c : UInt8) : Bool := format[i + 1]? = some (t.ofChar c)

/-- A part of a step has moved the machine before the pointer is advanced. -/
structure Moved (m m' : Machine t) (next : ParseState × ℕ) : Prop where
  state : m'.state = next.1
  place : m'.p + 1 = m.p + next.2
  grows : m.str <+: m'.str

theorem back_moved {state : ParseState} (h : m.back state = .ok m') : Moved m m' (state, 0) := by
  rw [Machine.back] at h
  by_cases hp : m.p = 0
  · rw [if_pos hp] at h
    exact absurd h (by rintro ⟨⟩)
  · rw [if_neg hp] at h
    obtain rfl := Except.ok.inj h
    exact ⟨rfl, by simp only; omega, List.prefix_rfl⟩

theorem flags_moved (repeated : Bool) (hstate : m.state = .ST_FLAGS) (h : m.flags c = .ok m') :
    Moved m m' (ParseState.ST_FLAGS.next c repeated) := by
  rw [Machine.flags] at h
  rw [ParseState.next]
  cases hmark : m.flag.mark c with
  | some flag =>
    have hflag : isFlag c := by
      by_contra hno
      rw [(mark_eq_none m.flag c).mpr hno] at hmark
      exact absurd hmark (by rintro ⟨⟩)
    rw [hmark] at h
    obtain rfl := Except.ok.inj h
    rw [if_pos hflag]
    exact ⟨hstate, rfl, List.prefix_rfl⟩
  | none =>
    rw [hmark] at h
    rw [if_neg ((mark_eq_none m.flag c).mp hmark)]
    exact back_moved h

theorem widths_moved (repeated : Bool) (hstate : m.state = .ST_WIDTH) (h : m.widths c = .ok m') :
    Moved m m' (ParseState.ST_WIDTH.next c repeated) := by
  rw [Machine.widths] at h
  rw [ParseState.next]
  by_cases hdigit : isDigit c
  · rw [if_pos hdigit] at h
    obtain rfl := Except.ok.inj h
    rw [if_pos (.inl hdigit)]
    exact ⟨hstate, rfl, List.prefix_rfl⟩
  by_cases hstar : c = ascii '*'
  · rw [if_neg hdigit, if_pos hstar] at h
    obtain rfl := Except.ok.inj h
    rw [if_pos (.inr hstar)]
    exact ⟨hstate, rfl, List.prefix_rfl⟩
  rw [if_neg hdigit, if_neg hstar] at h
  rw [if_neg (not_or.mpr ⟨hdigit, hstar⟩)]
  by_cases hpoint : c = ascii '.'
  · rw [if_pos hpoint] at h
    obtain rfl := Except.ok.inj h
    rw [if_pos hpoint]
    exact ⟨rfl, rfl, List.prefix_rfl⟩
  · rw [if_neg hpoint] at h
    rw [if_neg hpoint]
    exact back_moved h

theorem percisions_moved (repeated : Bool) (hstate : m.state = .ST_PERCISION) (h : m.percisions c = .ok m') :
    Moved m m' (ParseState.ST_PERCISION.next c repeated) := by
  rw [Machine.percisions] at h
  rw [ParseState.next]
  by_cases hdigit : isDigit c
  · rw [if_pos hdigit] at h
    obtain rfl := Except.ok.inj h
    rw [if_pos (.inl hdigit)]
    exact ⟨hstate, rfl, List.prefix_rfl⟩
  by_cases hstar : c = ascii '*'
  · rw [if_neg hdigit, if_pos hstar] at h
    obtain rfl := Except.ok.inj h
    rw [if_pos (.inr hstar)]
    exact ⟨hstate, rfl, List.prefix_rfl⟩
  · rw [if_neg hdigit, if_neg hstar] at h
    rw [if_neg (not_or.mpr ⟨hdigit, hstar⟩)]
    exact back_moved h

/-- A letter that may be doubled. -/
theorem doubled_moved {d : UInt8} {yes no : Machine t} {next : ParseState}
    (hyes : Moved m yes (next, 2)) (hno : Moved m no (next, 1))
    (h : (do let ch ← read Trap.formatBounds format (m.p + 1)
             if ch = t.ofChar d then .ok yes else .ok no) = .ok m') :
    Moved m m' (next, if repeatedAt format m.p d then 2 else 1) := by
  obtain ⟨ch, hread, h⟩ := ok_of_bind h
  have hget : format[m.p + 1]? = some ch := by
    rw [Buffers.read] at hread
    split at hread
    next a ha => rw [ha, Except.ok.inj hread]
    · exact absurd hread (by rintro ⟨⟩)
  by_cases hch : ch = t.ofChar d
  · rw [if_pos hch] at h
    obtain rfl := Except.ok.inj h
    have hrepeated : repeatedAt format m.p d = true := decide_eq_true (by rw [hget, hch])
    rw [if_pos hrepeated]
    exact hyes
  · rw [if_neg hch] at h
    obtain rfl := Except.ok.inj h
    have hrepeated : ¬ repeatedAt format m.p d = true := by
      rw [repeatedAt, decide_eq_true_eq, hget, Option.some.injEq]
      exact hch
    rw [if_neg hrepeated]
    exact hno

theorem subspec_moved (hstate : m.state = .ST_SUBSPEC) (h : m.subspec format c = .ok m') :
    Moved m m' (ParseState.ST_SUBSPEC.next c (repeatedAt format m.p c)) := by
  rw [Machine.subspec] at h
  rw [ParseState.next]
  by_cases hl : c = ascii 'l'
  · rw [if_pos hl] at h
    rw [if_pos (.inl hl), hl]
    let yes : Machine t := { m with flag := { m.flag with FMT_LONGLONG := true }, p := m.p + 1 }
    let no : Machine t := { m with flag := { m.flag with FMT_LONG := true } }
    have hyes : Moved m yes (.ST_SUBSPEC, 2) := ⟨hstate, rfl, List.prefix_rfl⟩
    have hno : Moved m no (.ST_SUBSPEC, 1) := ⟨hstate, rfl, List.prefix_rfl⟩
    exact doubled_moved hyes hno h
  by_cases hh : c = ascii 'h'
  · rw [if_neg hl, if_pos hh] at h
    rw [if_pos (.inr hh), hh]
    let yes : Machine t := { m with flag := { m.flag with FMT_HALFHALF := true }, p := m.p + 1 }
    let no : Machine t := { m with flag := { m.flag with FMT_HALF := true } }
    have hyes : Moved m yes (.ST_SUBSPEC, 2) := ⟨hstate, rfl, List.prefix_rfl⟩
    have hno : Moved m no (.ST_SUBSPEC, 1) := ⟨hstate, rfl, List.prefix_rfl⟩
    exact doubled_moved hyes hno h
  rw [if_neg hl, if_neg hh] at h
  rw [if_neg (not_or.mpr ⟨hl, hh⟩)]
  have hmem : c ∈ chars "jztL" ↔ c = ascii 'j' ∨ c = ascii 'z' ∨ c = ascii 't' ∨ c = ascii 'L' := by simp [chars]
  by_cases hignored : c = ascii 'j' ∨ c = ascii 'z' ∨ c = ascii 't' ∨ c = ascii 'L'
  · rw [if_pos hignored] at h
    obtain rfl := Except.ok.inj h
    rw [if_pos (hmem.mpr hignored)]
    exact ⟨hstate, rfl, List.prefix_rfl⟩
  · rw [if_neg hignored] at h
    rw [if_neg (hmem.not.mpr hignored)]
    exact back_moved h

theorem readParams_same {m m' : Machine t} (h : m.readParams = .ok m') : m'.p = m.p ∧ m'.str = m.str := by
  obtain ⟨_, -, h⟩ := ok_of_bind h
  obtain ⟨_, -, h⟩ := ok_of_bind h
  rw [← Except.ok.inj h]
  exact ⟨rfl, rfl⟩

/-- What follows the parameters of a specification ends it. -/
theorem finish_moved {f : Machine t → Except Trap (Machine t)}
    (hf : ∀ r m', f r = .ok m' → ∃ ap text, m' = r.finish ap text) (h : m.readParams >>= f = .ok m') :
    Moved m m' (.ST_TEXT, 1) := by
  obtain ⟨r, hparams, hrun⟩ := ok_of_bind h
  obtain ⟨ap, text, rfl⟩ := hf r m' hrun
  obtain ⟨hp, hstr⟩ := readParams_same hparams
  exact ⟨rfl, congrArg (· + 1) hp, hstr ▸ List.prefix_append r.str text⟩

theorem number_moved (h : m.number c = .ok m') : Moved m m' (.ST_TEXT, 1) := by
  refine finish_moved (fun r m' hr => ?_) h
  obtain ⟨⟨number, ap⟩, -, hvalstr⟩ := ok_of_bind hr
  obtain ⟨valstr, -, hfinish⟩ := ok_of_bind hvalstr
  exact ⟨ap, _, (Except.ok.inj hfinish).symm⟩

theorem spec_moved (repeated : Bool) (h : m.spec c = .ok m') : Moved m m' (ParseState.ST_SPEC.next c repeated) := by
  rw [Machine.spec] at h
  rw [ParseState.next]
  by_cases hc : c = ascii 'c'
  · rw [if_pos hc] at h
    refine finish_moved (fun r m' hr => ?_) h
    obtain ⟨⟨v, ap⟩, -, hfinish⟩ := ok_of_bind hr
    exact ⟨ap, _, (Except.ok.inj hfinish).symm⟩
  rw [if_neg hc] at h
  by_cases hpercent : c = ascii '%'
  · rw [if_pos hpercent] at h
    exact finish_moved (fun r m' hr => ⟨r.ap, _, (Except.ok.inj hr).symm⟩) h
  rw [if_neg hpercent] at h
  by_cases hp : c = ascii 'p'
  · rw [if_pos hp] at h
    have hmoved := number_moved h
    exact ⟨hmoved.state, hmoved.place, hmoved.grows⟩
  rw [if_neg hp] at h
  by_cases hfloat : c ∈ chars "FgGeEAa"
  · rw [if_pos hfloat] at h
    exact number_moved h
  rw [if_neg hfloat] at h
  by_cases hnumber : c ∈ chars "fxXodiu"
  · rw [if_pos hnumber] at h
    exact number_moved h
  rw [if_neg hnumber] at h
  by_cases hs : c = ascii 's'
  · rw [if_pos hs] at h
    refine finish_moved (fun r m' hr => ?_) h
    obtain ⟨⟨buf, ap⟩, -, htext⟩ := ok_of_bind hr
    obtain ⟨text, -, hfinish⟩ := ok_of_bind htext
    exact ⟨ap, text, (Except.ok.inj hfinish).symm⟩
  · rw [if_neg hs] at h
    obtain rfl := Except.ok.inj h
    exact ⟨rfl, rfl, List.prefix_rfl⟩

theorem read_ok_iff {i : ℕ} {ch : t.ValueType} : read Trap.formatBounds format i = .ok ch ↔ format[i]? = some ch := by
  rw [Buffers.read]
  cases format[i]? with
  | none => exact iff_of_false (by rintro ⟨⟩) (by rintro ⟨⟩)
  | some a => exact ⟨fun h => congrArg some (Except.ok.inj h), fun h => congrArg Except.ok (Option.some.inj h)⟩

/-- Where a step leads. -/
theorem step_moves (h : Leads (Machine.step format) m m') :
    ∃ ch, format[m.p]? = some ch ∧ ch ≠ 0 ∧
      m'.state = (m.state.next (t.narrow ch) (repeatedAt format m.p (t.narrow ch))).1 ∧
      m'.p = m.p + (m.state.next (t.narrow ch) (repeatedAt format m.p (t.narrow ch))).2 ∧ m.str <+: m'.str := by
  obtain ⟨-, hnone⟩ | ⟨ch, r, hread, hch, hexamine, hnext⟩ := step_cases h
  · exact absurd hnone (Option.some_ne_none m')
  obtain rfl : m' = { r with p := r.p + 1 } := Option.some.inj hnext
  have hmoved : Moved m r (m.state.next (t.narrow ch) (repeatedAt format m.p (t.narrow ch))) := by
    rw [Machine.examine] at hexamine
    cases hstate : m.state with
    | ST_TEXT =>
      rw [hstate] at hexamine
      simp only at hexamine
      rw [ParseState.next]
      by_cases hpercent : t.narrow ch = ascii '%'
      · rw [if_pos hpercent] at hexamine
        obtain rfl := Except.ok.inj hexamine
        rw [if_pos hpercent]
        exact ⟨rfl, rfl, List.prefix_rfl⟩
      · rw [if_neg hpercent] at hexamine
        obtain rfl := Except.ok.inj hexamine
        rw [if_neg hpercent]
        exact ⟨rfl, rfl, List.prefix_append _ _⟩
    | ST_FLAGS =>
      rw [hstate] at hexamine
      exact flags_moved _ hstate hexamine
    | ST_WIDTH =>
      rw [hstate] at hexamine
      exact widths_moved _ hstate hexamine
    | ST_PERCISION =>
      rw [hstate] at hexamine
      exact percisions_moved _ hstate hexamine
    | ST_SUBSPEC =>
      rw [hstate] at hexamine
      exact subspec_moved hstate hexamine
    | ST_SPEC =>
      rw [hstate] at hexamine
      exact spec_moved _ hexamine
  exact ⟨ch, read_ok_iff.mp hread, hch, hmoved.state, hmoved.place, hmoved.grows⟩

/-- What is written stays at the front of the string. -/
theorem visits_grows (h : Visits (Machine.step format) m m') : m.str <+: m'.str := by
  induction h with
  | refl => exact List.prefix_rfl
  | tail _ hlead ih =>
    obtain ⟨ch, -, -, -, -, hgrows⟩ := step_moves hlead
    exact ih.trans hgrows

/-- How many states may still look at the character. -/
def ParseState.rank : ParseState → ℕ
  | .ST_TEXT => 0
  | .ST_FLAGS => 4
  | .ST_WIDTH => 3
  | .ST_PERCISION => 2
  | .ST_SUBSPEC => 1
  | .ST_SPEC => 0

theorem rank_le (state : ParseState) : state.rank ≤ 4 := by cases state <;> decide

theorem next_rank (state : ParseState) (c : UInt8) (repeated : Bool) :
    1 ≤ (state.next c repeated).2 ∨ (state.next c repeated).1.rank < state.rank := by
  cases state with
  | ST_SPEC => exact .inl le_rfl
  | _ =>
    simp only [ParseState.next]
    split_ifs <;> simp [ParseState.rank]

/-- What is left for the scanner to do. -/
def Machine.size (format : List t.ValueType) (m : Machine t) : ℕ := 6 * (format.length - m.p) + m.state.rank

theorem step_size (h : Leads (Machine.step format) m m') : m'.size format < m.size format := by
  obtain ⟨ch, hget, -, hstate, hp, -⟩ := step_moves h
  have hlt : m.p < format.length := (List.getElem?_eq_some_iff.mp hget).1
  have hle := rank_le m'.state
  rw [Machine.size, Machine.size]
  rcases next_rank m.state (t.narrow ch) (repeatedAt format m.p (t.narrow ch)) with hplace | hrank
  · omega
  · rw [← hstate] at hrank
    omega

/-- A call returns the string that the scanner has at the null of the format. -/
theorem printf_of_visits {ap : List (VaArg t)} (hvisits : Visits (Machine.step format) (Machine.start ap) m)
    (hend : format[m.p]? = some 0) : printf format ap = .ok (m.str, LibXpf.u32 m.str.length) := by
  have hfuel : (Machine.start ap).size format < 6 * format.length + 1 := by
    rw [Machine.size]
    exact Nat.lt_succ_self _
  rw [printf, loop_of_end (fun _ _ => step_size) hvisits (step_null (read_ok_iff.mpr hend)) hfuel]
  rfl

end Moves
end LibXpf.Xpfstring
