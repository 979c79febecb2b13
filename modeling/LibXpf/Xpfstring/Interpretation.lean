import LibXpf.Xpfstring.Items
import LibXpf.Xpfstring.DirectiveRuns
import Mathlib.Data.List.TakeWhile

/-! # The scanner prints the items

The scanner of `printf` looks at one character at a time and moves back where a state cannot use
it. On every format and all arguments it prints the items of the format.
-/
namespace LibXpf.Xpfstring
open Buffers StepLoops

section Ahead
variable {t : CharType} {format w : List t.ValueType} {i : ℕ} {ch : t.ValueType}

/-- What stands at a place of the format, up to a null. -/
def Ahead (format : List t.ValueType) (i : ℕ) (w : List t.ValueType) : Prop := w ++ [0] <+: format.drop i

theorem ahead_get (h : Ahead format i w) : format[i]? = some (w.head?.getD 0) := by
  obtain ⟨rest, hrest⟩ := h
  rw [← Nat.add_zero i, ← List.getElem?_drop, ← hrest]
  cases w <;> rfl

theorem ahead_cons (h : Ahead format i (ch :: w)) : Ahead format (i + 1) w := by
  obtain ⟨rest, hrest⟩ := h
  refine ⟨rest, ?_⟩
  rw [← List.drop_drop, ← hrest]
  rfl

end Ahead

section Stages
variable {t : CharType} {format w rest rest' : List t.ValueType} {m next next' : Machine t} {i : ℕ}

def Machine.at (m : Machine t) (i : ℕ) : Machine t := { m with p := i }

/-- From a state the scanner comes to a next one, with a rest ahead. If there is no rest then it is at
the null, and has written nothing. -/
def Scans (format : List t.ValueType) (m next : Machine t) (rest : List t.ValueType) : Prop :=
  ∃ j, 0 < j ∧ Ahead format j rest ∧
    (rest = [] → ∃ m', Visits (Machine.step format) m m' ∧ m'.p = j ∧ m'.str = m.str) ∧
    (rest ≠ [] → Visits (Machine.step format) m (next.at j))

theorem Scans.of_visits (hi : 0 < i) (hahead : Ahead format i rest) (hvisits : Visits (Machine.step format) m (next.at i))
    (hstr : next.str = m.str) : Scans format m next rest :=
  ⟨i, hi, hahead, fun _ => ⟨next.at i, hvisits, rfl, hstr⟩, fun _ => hvisits⟩

theorem Scans.null (hi : 0 < i) (hahead : Ahead format i []) (hp : m.p = i) : Scans format m next [] :=
  ⟨i, hi, hahead, fun _ => ⟨m, .refl, hp, rfl⟩, fun h => absurd rfl h⟩

theorem Scans.head {m' : Machine t} (hlead : Leads (Machine.step format) m m') (hstr : m'.str = m.str)
    (h : Scans format m' next rest) : Scans format m next rest := by
  obtain ⟨j, hj, hahead, hend, hvisits⟩ := h
  refine ⟨j, hj, hahead, fun hnil => ?_, fun hcons => .head hlead (hvisits hcons)⟩
  obtain ⟨m'', hm, hp, hsame⟩ := hend hnil
  exact ⟨m'', .head hlead hm, hp, hsame.trans hstr⟩

theorem Scans.trans (h : Scans format m next rest) (hempty : rest = [] → rest' = []) (hstr : next.str = m.str)
    (hnext : ∀ j, 0 < j → rest ≠ [] → Ahead format j rest → Scans format (next.at j) next' rest') :
    Scans format m next' rest' := by
  obtain ⟨j, hj, hahead, hend, hvisits⟩ := h
  by_cases hrest : rest = []
  · refine ⟨j, hj, ?_, fun _ => hend hrest, fun h => absurd (hempty hrest) h⟩
    rw [hempty hrest]
    rwa [hrest] at hahead
  · obtain ⟨k, hk, hahead', hend', hvisits'⟩ := hnext j hj hrest hahead
    refine ⟨k, hk, hahead', fun hnil => ?_, fun hcons => (hvisits hrest).trans (hvisits' hcons)⟩
    obtain ⟨m', hm', hp, hsame⟩ := hend' hnil
    exact ⟨m', (hvisits hrest).trans hm', hp, hsame.trans hstr⟩

theorem leads_narrow {ch : t.ValueType} {m' : Machine t} (hahead : Ahead format i (ch :: w)) (h0 : 0 ∉ ch :: w)
    (h : (m.at i).examine format ch = .ok (m'.at i)) : Leads (Machine.step format) (m.at i) (m'.at (i + 1)) :=
  step_examine (m := m.at i) (read_ok_iff.mpr (ahead_get hahead)) (fun hch => h0 (hch ▸ List.mem_cons_self)) h

theorem leads_back_narrow {ch : t.ValueType} {state : ParseState} (hi : 0 < i) (hahead : Ahead format i (ch :: w))
    (h0 : 0 ∉ ch :: w) (h : (m.at i).examine format ch = (m.at i).back state) :
    Leads (Machine.step format) (m.at i) ({ m with state := state }.at i) := by
  have hback : (m.at i).back state = .ok ({ m with state := state }.at (i - 1)) := if_neg hi.ne'
  have hlead : Leads (Machine.step format) (m.at i) ({ m with state := state }.at (i - 1 + 1)) :=
    step_examine (m := m.at i) (read_ok_iff.mpr (ahead_get hahead)) (fun hch => h0 (hch ▸ List.mem_cons_self)) (h.trans hback)
  rwa [Nat.sub_add_cancel hi] at hlead

variable {X : Type} {P : UInt8 → Prop} [DecidablePred P] {place : X → Machine t} {f : X → UInt8 → X} {x : X}

/-- A state goes through the run of its characters. -/
theorem run_scans (hstr : ∀ x y, (place x).str = (place y).str)
    (hstep : ∀ i x (ch : t.ValueType), P (t.narrow ch) →
      ((place x).at i).examine format ch = .ok ((place (f x (t.narrow ch))).at i))
    (hi : 0 < i) (h0 : 0 ∉ w) (h : Ahead format i w) :
    Scans format ((place x).at i) (place ((run P w).1.foldl f x)) (run P w).2 := by
  induction w generalizing i x with
  | nil => exact .of_visits hi h .refl rfl
  | cons ch w ih =>
    by_cases hch : P (t.narrow ch)
    · rw [run, if_pos hch]
      exact (ih (Nat.succ_pos i) (fun hmem => h0 (List.mem_cons_of_mem ch hmem)) (ahead_cons h)).head
        (leads_narrow h h0 (hstep i x ch hch)) (hstr _ _)
    · rw [run, if_neg hch]
      exact .of_visits hi h .refl rfl

theorem run_stops (w : List t.ValueType) : ∀ ch ∈ (run P w).2.head?, ¬ P (t.narrow ch) := by
  induction w with
  | nil => rintro ch ⟨⟩
  | cons ch w ih =>
    rw [run]
    split
    next => exact ih
    next hch =>
      rintro ch' ⟨⟩
      exact hch

theorem notMem_run (h : 0 ∉ w) : 0 ∉ (run P w).2 := fun hmem => h ((run_suffix w).mem hmem)

/-- A state moves back where the run of its characters is at its end. -/
theorem back_scans (state : ParseState) (hback : ∀ i (ch : t.ValueType), ¬ P (t.narrow ch) →
      (m.at i).examine format ch = (m.at i).back state)
    (hi : 0 < i) (hrest : (run P w).2 ≠ []) (h0 : 0 ∉ w) (h : Ahead format i (run P w).2) :
    Scans format (m.at i) { m with state := state } (run P w).2 := by
  obtain ⟨ch, rest, hcons⟩ := List.exists_cons_of_ne_nil hrest
  have hstop : ¬ P (t.narrow ch) := run_stops w ch (by rw [hcons]; rfl)
  refine .of_visits hi h (.single ?_) rfl
  have hnull := notMem_run (P := P) h0
  rw [hcons] at h hnull
  exact leads_back_narrow hi h hnull (hback i ch hstop)

theorem forall_run (w : List t.ValueType) : ∀ c ∈ (run P w).1, P c := by
  induction w with
  | nil => rintro c ⟨⟩
  | cons ch w ih =>
    rw [run]
    split
    next hch => exact List.forall_mem_cons.mpr ⟨hch, ih⟩
    next => rintro c ⟨⟩

end Stages

section Bits

def markFlag (flag : Flags) (c : UInt8) : Flags := (flag.mark c).getD flag

def markWidth (x : Int32 × Flags) (c : UInt8) : Int32 × Flags :=
  if isDigit c then (addDigit x.1 c, { x.2 with WIDTH_SPECIFIED := true })
  else (x.1, { x.2 with WIDTH_SPECIFIED := true, WIDTH_PARAM := true })

def markPercision (x : Int32 × Flags) (c : UInt8) : Int32 × Flags :=
  if isDigit c then (addDigit x.1 c, x.2) else (x.1, { x.2 with PERCISION_PARAM := true })

def LengthLetter.mark (flag : Flags) : LengthLetter → Flags
  | .l => { flag with FMT_LONG := true }
  | .ll => { flag with FMT_LONGLONG := true }
  | .h => { flag with FMT_HALF := true }
  | .hh => { flag with FMT_HALFHALF := true }
  | .ignored => flag

variable {cs : List UInt8} {n : Int32} {flag : Flags}

theorem foldl_markFlag (hcs : ∀ c ∈ cs, isFlag c) :
    cs.foldl markFlag Flags.zero =
      { Flags.zero with
        LEFTJUSTIFY := ascii '-' ∈ cs
        FORCESIGN := (cs.filter fun c => c = ascii '+' ∨ c = ascii ' ').getLast? = some (ascii '+')
        BLANKSIGN := (cs.filter fun c => c = ascii '+' ∨ c = ascii ' ').getLast? = some (ascii ' ')
        PREFIXSUFFIX := ascii '#' ∈ cs
        LEFTPADZERO := ascii '0' ∈ cs } := by
  induction cs using List.reverseRecOn with
  | nil => rfl
  | append_singleton cs c ih =>
    rw [List.foldl_append, ih fun c hc => hcs c (List.mem_append_left _ hc), List.foldl_cons, List.foldl_nil]
    have hc : isFlag c := hcs c (by simp)
    rcases hc with rfl | rfl | rfl | rfl | rfl <;>
      (simp [markFlag, Flags.mark, List.filter_append, ascii]; split_ands <;> congr)

theorem star_notDigit : ¬ isDigit (ascii '*') := by decide

theorem ne_star {c : UInt8} (h : isDigit c) : c ≠ ascii '*' := by
  rintro rfl
  exact star_notDigit h

theorem foldl_markWidth (hcs : ∀ c ∈ cs, isNumeric c) :
    cs.foldl markWidth (n, flag) =
      ((cs.filter fun c => isDigit c).foldl addDigit n,
        { flag with
          WIDTH_SPECIFIED := flag.WIDTH_SPECIFIED || decide (cs ≠ [])
          WIDTH_PARAM := flag.WIDTH_PARAM || decide (ascii '*' ∈ cs) }) := by
  induction cs generalizing n flag with
  | nil => simp
  | cons c cs ih =>
    rw [List.forall_mem_cons] at hcs
    rw [List.foldl_cons]
    rcases hcs.1 with hdigit | rfl
    · have hne := ne_star hdigit
      rw [markWidth, if_pos hdigit, ih hcs.2]
      simp [hdigit, hne.symm]
    · rw [markWidth, if_neg star_notDigit, ih hcs.2]
      simp [star_notDigit]

theorem foldl_markPercision (hcs : ∀ c ∈ cs, isNumeric c) :
    cs.foldl markPercision (n, flag) =
      ((cs.filter fun c => isDigit c).foldl addDigit n,
        { flag with PERCISION_PARAM := flag.PERCISION_PARAM || decide (ascii '*' ∈ cs) }) := by
  induction cs generalizing n flag with
  | nil => simp
  | cons c cs ih =>
    rw [List.forall_mem_cons] at hcs
    rw [List.foldl_cons]
    rcases hcs.1 with hdigit | rfl
    · have hne := ne_star hdigit
      rw [markPercision, if_pos hdigit, ih hcs.2]
      simp [hdigit, hne.symm]
    · rw [markPercision, if_neg star_notDigit, ih hcs.2]
      simp [star_notDigit]

theorem foldl_lengths (ks : List LengthLetter) :
    ks.foldl LengthLetter.mark flag =
      { flag with
        FMT_LONG := flag.FMT_LONG || decide (.l ∈ ks)
        FMT_LONGLONG := flag.FMT_LONGLONG || decide (.ll ∈ ks)
        FMT_HALF := flag.FMT_HALF || decide (.h ∈ ks)
        FMT_HALFHALF := flag.FMT_HALFHALF || decide (.hh ∈ ks) } := by
  induction ks generalizing flag with
  | nil => simp
  | cons k ks ih =>
    rw [List.foldl_cons, ih]
    cases k <;> simp [LengthLetter.mark]

end Bits

section Parts
variable {t : CharType} {format w : List t.ValueType} {i : ℕ} (width percision : Int32) (flag : Flags)
  (ap : List (VaArg t)) (str : List t.ValueType)

theorem flags_scans (hi : 0 < i) (h0 : 0 ∉ w) (h : Ahead format i w) :
    Scans format ⟨i, .ST_FLAGS, width, percision, flag, ap, str⟩
      ⟨0, .ST_WIDTH, width, percision, (run isFlag w).1.foldl markFlag flag, ap, str⟩ (run isFlag w).2 := by
  let place (flag : Flags) : Machine t := ⟨0, .ST_FLAGS, width, percision, flag, ap, str⟩
  have hstep : ∀ i flag (ch : t.ValueType), isFlag (t.narrow ch) →
      ((place flag).at i).examine format ch = .ok ((place (markFlag flag (t.narrow ch))).at i) := by
    intro i flag ch hch
    have hmark : flag.mark (t.narrow ch) = some (markFlag flag (t.narrow ch)) := by
      rw [markFlag]
      cases hmark : flag.mark (t.narrow ch) with
      | none => exact absurd hch ((mark_eq_none flag _).mp hmark)
      | some flag' => rfl
    simp only [Machine.examine, Machine.at, place, Machine.flags, hmark]
  have hrun := run_scans (x := flag) (fun _ _ => rfl) hstep hi h0 h
  refine hrun.trans id rfl fun j hj hrest hahead => ?_
  refine back_scans .ST_WIDTH (fun i ch hch => ?_) hj hrest h0 hahead
  simp only [Machine.examine, Machine.at, place, Machine.flags, (mark_eq_none _ _).mpr hch]

theorem widths_scans (hi : 0 < i) (h0 : 0 ∉ w) (h : Ahead format i w) :
    Scans format ⟨i, .ST_WIDTH, width, percision, flag, ap, str⟩
      ⟨0, .ST_WIDTH, ((run isNumeric w).1.foldl markWidth (width, flag)).1, percision,
        ((run isNumeric w).1.foldl markWidth (width, flag)).2, ap, str⟩ (run isNumeric w).2 := by
  let place (x : Int32 × Flags) : Machine t := ⟨0, .ST_WIDTH, x.1, percision, x.2, ap, str⟩
  have hstep : ∀ i x (ch : t.ValueType), isNumeric (t.narrow ch) →
      ((place x).at i).examine format ch = .ok ((place (markWidth x (t.narrow ch))).at i) := by
    intro i x ch hch
    simp only [Machine.examine, Machine.at, place, Machine.widths, markWidth]
    by_cases hdigit : isDigit (t.narrow ch)
    · rw [if_pos hdigit, if_pos hdigit]
    · rw [if_neg hdigit, if_pos (hch.resolve_left hdigit), if_neg hdigit]
  exact run_scans (x := (width, flag)) (fun _ _ => rfl) hstep hi h0 h

theorem percisions_scans (hi : 0 < i) (h0 : 0 ∉ w) (h : Ahead format i w) :
    Scans format ⟨i, .ST_PERCISION, width, percision, flag, ap, str⟩
      ⟨0, .ST_SUBSPEC, width, ((run isNumeric w).1.foldl markPercision (percision, flag)).1,
        ((run isNumeric w).1.foldl markPercision (percision, flag)).2, ap, str⟩ (run isNumeric w).2 := by
  let place (x : Int32 × Flags) : Machine t := ⟨0, .ST_PERCISION, width, x.1, x.2, ap, str⟩
  have hstep : ∀ i x (ch : t.ValueType), isNumeric (t.narrow ch) →
      ((place x).at i).examine format ch = .ok ((place (markPercision x (t.narrow ch))).at i) := by
    intro i x ch hch
    simp only [Machine.examine, Machine.at, place, Machine.percisions, markPercision]
    by_cases hdigit : isDigit (t.narrow ch)
    · rw [if_pos hdigit, if_pos hdigit]
    · rw [if_neg hdigit, if_pos (hch.resolve_left hdigit), if_neg hdigit]
  have hrun := run_scans (x := (percision, flag)) (fun _ _ => rfl) hstep hi h0 h
  refine hrun.trans id rfl fun j hj hrest hahead => ?_
  refine back_scans .ST_SUBSPEC (fun i ch hch => ?_) hj hrest h0 hahead
  rw [isNumeric, not_or] at hch
  simp only [Machine.examine, Machine.at, place, Machine.percisions, if_neg hch.1, if_neg hch.2]

/-- The percision is the part behind the point that ends the width. -/
theorem percisionPart_scans {ch : t.ValueType} (hstop : ¬ isNumeric (t.narrow ch)) (hi : 0 < i) (h0 : 0 ∉ ch :: w)
    (h : Ahead format i (ch :: w)) :
    Scans format ⟨i, .ST_WIDTH, width, 0, flag, ap, str⟩
      ⟨0, .ST_SUBSPEC, width, Specification.number ((percisionPart (ch :: w)).1.getD []),
        { flag with
          PERCISION_SPECIFIED := flag.PERCISION_SPECIFIED || (percisionPart (ch :: w)).1.isSome
          PERCISION_PARAM := flag.PERCISION_PARAM || decide (ascii '*' ∈ (percisionPart (ch :: w)).1.getD []) },
        ap, str⟩ (percisionPart (ch :: w)).2 := by
  let m : Machine t := ⟨0, .ST_WIDTH, width, 0, flag, ap, str⟩
  rw [isNumeric, not_or] at hstop
  by_cases hpoint : t.narrow ch = ascii '.'
  · have hpart : percisionPart (ch :: w) = (some (run isNumeric w).1, (run isNumeric w).2) :=
      if_pos (congrArg some hpoint)
    let m' : Machine t := ⟨0, .ST_PERCISION, width, 0, { flag with PERCISION_SPECIFIED := true }, ap, str⟩
    have hexamine : (m.at i).examine format ch = .ok (m'.at i) := by
      simp only [Machine.examine, Machine.at, m, m', Machine.widths, if_neg hstop.1, if_neg hstop.2, if_pos hpoint]
    have hrun := percisions_scans width 0 { flag with PERCISION_SPECIFIED := true } ap str (Nat.succ_pos i)
      (fun hmem => h0 (List.mem_cons_of_mem ch hmem)) (ahead_cons h)
    rw [foldl_markPercision (forall_run w)] at hrun
    rw [hpart]
    simp only [Option.getD_some, Option.isSome_some, Bool.or_true]
    exact hrun.head (leads_narrow h h0 hexamine) rfl
  · have hpart : percisionPart (ch :: w) = (none, ch :: w) := if_neg (fun hsome => hpoint (Option.some.inj hsome))
    have hexamine : (m.at i).examine format ch = (m.at i).back .ST_SUBSPEC := by
      simp only [Machine.examine, Machine.at, m, Machine.widths, if_neg hstop.1, if_neg hstop.2, if_neg hpoint]
    rw [hpart]
    simp only [Option.getD_none, Option.isSome_none, Bool.or_false, List.not_mem_nil, decide_false]
    exact .of_visits hi h (.single (leads_back_narrow hi h h0 hexamine)) rfl

theorem doubled_iff {c : UInt8} (hc : c ≠ 0) : w.head?.getD 0 = t.ofChar c ↔ w.head? = some (t.ofChar c) := by
  cases w with
  | nil => exact iff_of_false (fun h => hc (CharType.ofChar_eq_zero.mp h.symm)) (by rintro ⟨⟩)
  | cons ch w => exact Option.some_inj.symm

/-- A length modifier sets its bit, and is passed as a whole. -/
theorem examine_letter {ch : t.ValueType} {k : LengthLetter} (hk : lengthLetter (t.narrow ch) w.head? = some k)
    (h : Ahead format i (ch :: w)) :
    (⟨i, .ST_SUBSPEC, width, percision, flag, ap, str⟩ : Machine t).examine format ch =
      .ok ⟨i + k.more, .ST_SUBSPEC, width, percision, k.mark flag, ap, str⟩ := by
  have hnext : read Trap.formatBounds format (i + 1) = .ok (w.head?.getD 0) := read_ok_iff.mpr (ahead_get (ahead_cons h))
  simp only [Machine.examine, Machine.subspec, hnext]
  rw [lengthLetter] at hk
  by_cases hl : t.narrow ch = ascii 'l'
  · rw [if_pos hl] at hk ⊢
    obtain rfl := Option.some.inj hk
    by_cases hdouble : w.head? = some (t.ofChar (ascii 'l'))
    · simp only [if_pos hdouble, bind, Except.bind, if_pos ((doubled_iff (by decide)).mpr hdouble)]
      rfl
    · simp only [if_neg hdouble, bind, Except.bind, if_neg ((doubled_iff (by decide)).not.mpr hdouble)]
      rfl
  rw [if_neg hl] at hk ⊢
  by_cases hh : t.narrow ch = ascii 'h'
  · rw [if_pos hh] at hk ⊢
    obtain rfl := Option.some.inj hk
    by_cases hdouble : w.head? = some (t.ofChar (ascii 'h'))
    · simp only [if_pos hdouble, bind, Except.bind, if_pos ((doubled_iff (by decide)).mpr hdouble)]
      rfl
    · simp only [if_neg hdouble, bind, Except.bind, if_neg ((doubled_iff (by decide)).not.mpr hdouble)]
      rfl
  rw [if_neg hh] at hk ⊢
  split at hk
  next hignored =>
    obtain rfl := Option.some.inj hk
    rw [if_pos hignored]
    rfl
  next => exact absurd hk (by rintro ⟨⟩)

theorem ahead_letter {ch : t.ValueType} {k : LengthLetter} (hk : lengthLetter (t.narrow ch) w.head? = some k)
    (h : Ahead format i (ch :: w)) : Ahead format (i + k.more + 1) (w.drop k.more) := by
  cases w with
  | nil =>
    rw [lengthLetter] at hk
    have hmore : k.more = 0 := by
      simp only [List.head?_nil, reduceCtorEq, if_false] at hk
      split_ifs at hk <;> obtain rfl := Option.some.inj hk <;> rfl
    rw [hmore]
    exact ahead_cons h
  | cons ch' w =>
    have hnext := ahead_cons h
    cases k with
    | ll => exact ahead_cons hnext
    | hh => exact ahead_cons hnext
    | _ => exact hnext

theorem back_of_letter {ch : t.ValueType} {next : Option t.ValueType} {m : Machine t} (hstate : m.state = .ST_SUBSPEC)
    (hk : lengthLetter (t.narrow ch) next = none) : m.examine format ch = m.back .ST_SPEC := by
  simp only [Machine.examine, hstate, Machine.subspec]
  rw [lengthLetter] at hk
  split_ifs at hk with hl hh hignored
  rw [if_neg hl, if_neg hh, if_neg hignored]

theorem lengths_scans (hi : 0 < i) (h0 : 0 ∉ w) (h : Ahead format i w) :
    Scans format ⟨i, .ST_SUBSPEC, width, percision, flag, ap, str⟩
      ⟨0, .ST_SPEC, width, percision, (lengthsPart w).1.foldl LengthLetter.mark flag, ap, str⟩ (lengthsPart w).2 := by
  fun_induction lengthsPart w generalizing i flag with
  | case1 => exact .null hi h rfl
  | case2 ch w hk =>
    exact .of_visits hi h (.single (leads_back_narrow (m := ⟨0, .ST_SUBSPEC, width, percision, flag, ap, str⟩) hi h h0
      (back_of_letter rfl hk))) rfl
  | case3 ch w k hk ih =>
    have hrest : 0 ∉ w := fun hmem => h0 (List.mem_cons_of_mem ch hmem)
    have htail : 0 ∉ w.drop k.more := fun hmem => hrest (List.mem_of_mem_drop hmem)
    have hahead : Ahead format (i + k.more + 1) (w.drop k.more) := ahead_letter hk h
    have hread : read Trap.formatBounds format i = .ok ch := read_ok_iff.mpr (ahead_get h)
    have hlead : Leads (Machine.step format) ⟨i, .ST_SUBSPEC, width, percision, flag, ap, str⟩
        ⟨i + k.more + 1, .ST_SUBSPEC, width, percision, k.mark flag, ap, str⟩ :=
      step_examine hread (fun hch => h0 (hch ▸ List.mem_cons_self)) (examine_letter width percision flag ap str hk h)
    exact (ih (k.mark flag) (Nat.succ_pos _) htail hahead).head hlead rfl

theorem percisionPart_nil : (percisionPart ([] : List t.ValueType)).2 = [] := rfl

theorem lengthsPart_nil : (lengthsPart ([] : List t.ValueType)).2 = [] := by rw [lengthsPart]

/-- The scanner goes through the parts of a specification, and knows its meaning at the conversion. -/
theorem specification_scans (hi : 0 < i) (h0 : 0 ∉ w) (h : Ahead format i w) (c : UInt8) :
    let flags := run isFlag w
    let width := run isNumeric flags.2
    let percision := percisionPart width.2
    let lengths := lengthsPart percision.2
    let s : Specification := ⟨flags.1, width.1, percision.1, lengths.1, c⟩
    Scans format ⟨i, .ST_FLAGS, 0, 0, Flags.zero, ap, str⟩
      ⟨0, .ST_SPEC, Specification.number s.width, Specification.number (s.percision.getD []), s.flag, ap, str⟩
      lengths.2 := by
  intro flags width percision lengths s
  have hflags0 : 0 ∉ flags.2 := notMem_run h0
  have hwidth0 : 0 ∉ width.2 := notMem_run hflags0
  have hpercision0 : 0 ∉ percision.2 := fun hmem => hwidth0 ((percisionPart_suffix width.2).mem hmem)
  have hempty : percision.2 = [] → lengths.2 = [] := by
    intro hnil
    simp only [lengths, hnil, lengthsPart_nil]
  have hempty' : width.2 = [] → lengths.2 = [] := by
    intro hnil
    refine hempty ?_
    simp only [percision, hnil, percisionPart_nil]
  have hempty'' : flags.2 = [] → lengths.2 = [] := by
    intro hnil
    refine hempty' ?_
    simp only [width, hnil, run]
  refine (flags_scans 0 0 Flags.zero ap str hi h0 h).trans hempty'' rfl fun i hi _ hahead => ?_
  refine (widths_scans 0 0 (flags.1.foldl markFlag Flags.zero) ap str hi hflags0 hahead).trans hempty' rfl fun i hi hrest hahead => ?_
  obtain ⟨ch, rest, hcons⟩ := List.exists_cons_of_ne_nil hrest
  have hstop : ¬ isNumeric (t.narrow ch) := run_stops flags.2 ch (by rw [hcons]; rfl)
  have hpercision := percisionPart_scans (Specification.number width.1)
    (width.1.foldl markWidth (0, flags.1.foldl markFlag Flags.zero)).2 ap str hstop hi (hcons ▸ hwidth0) (hcons ▸ hahead)
  rw [← hcons, foldl_markWidth (forall_run flags.2), foldl_markFlag (forall_run w)] at hpercision
  rw [foldl_markWidth (forall_run flags.2), foldl_markFlag (forall_run w)]
  refine hpercision.trans hempty rfl fun i hi _ hahead => ?_
  have hlengths := lengths_scans (Specification.number width.1) (Specification.number (percision.1.getD []))
    { s.flag with FMT_LONG := false, FMT_LONGLONG := false, FMT_HALF := false, FMT_HALFHALF := false } ap str hi hpercision0 hahead
  rw [foldl_lengths] at hlengths
  exact hlengths

end Parts

section Printing
variable {t : CharType} {m : Machine t}

/-- A specifier prints what a conversion does, or fails as it does. -/
def Prints (m : Machine t) (r : Except Trap (Machine t)) : Except Trap (List t.ValueType × List (VaArg t)) → Prop
  | .error e => r = .error e
  | .ok (text, ap) => ∃ width percision flag, r = .ok ⟨m.p, .ST_TEXT, width, percision, flag, ap, m.str ++ text⟩

theorem prints_error (e : Trap) : Prints m (.error e) (.error e) := rfl

theorem prints_finish (m' : Machine t) (hp : m'.p = m.p) (hstr : m'.str = m.str) (ap : List (VaArg t))
    (text : List t.ValueType) : Prints m (.ok (m'.finish ap text)) (.ok (text, ap)) := by
  refine ⟨m'.width, m'.percision, m'.flag, ?_⟩
  rw [← hp, ← hstr]
  rfl

theorem readParams_params (m : Machine t) :
    m.readParams = (params m.flag m.width m.percision m.ap).map
      fun r => { m with width := r.1, percision := r.2.1, ap := r.2.2 } := by
  rw [Machine.readParams, params]
  cases param m.flag.WIDTH_PARAM m.width m.ap with
  | error e => rfl
  | ok r =>
    obtain ⟨width, ap⟩ := r
    change (param m.flag.PERCISION_PARAM m.percision ap >>= _) = ((param m.flag.PERCISION_PARAM m.percision ap >>= _) : Except _ _).map _
    cases param m.flag.PERCISION_PARAM m.percision ap with
    | error e => rfl
    | ok r => rfl

/-- What comes behind the parameters prints the same. -/
theorem prints_params {f : Machine t → Except Trap (Machine t)}
    {g : Int32 × Int32 × List (VaArg t) → Except Trap (List t.ValueType × List (VaArg t))}
    (h : ∀ r, Prints m (f { m with width := r.1, percision := r.2.1, ap := r.2.2 }) (g r)) :
    Prints m (m.readParams >>= f) (params m.flag m.width m.percision m.ap >>= g) := by
  rw [readParams_params]
  cases params m.flag m.width m.percision m.ap with
  | error e => exact prints_error e
  | ok r => exact h r

theorem number_prints (m : Machine t) (c : UInt8) : Prints m (m.number c) (printNumber m.flag m.width m.percision c m.ap) := by
  refine prints_params fun r => ?_
  dsimp only
  cases takeNumber m.flag c r.2.2 with
  | error e => exact prints_error e
  | ok number =>
    change Prints m (number.1.valstr t c >>= _) (number.1.valstr t c >>= _)
    cases number.1.valstr t c with
    | error e => exact prints_error e
    | ok valstr => exact prints_finish { m with width := r.1, percision := r.2.1, ap := r.2.2 } rfl rfl _ _

theorem string_prints (m : Machine t) :
    Prints m (m.readParams >>= fun m => takeString m.ap >>= fun r =>
      stringText m.flag m.width.toInt m.percision.toInt r.1 >>= fun text => .ok (m.finish r.2 text))
      (printString m.flag m.width m.percision m.ap) := by
  refine prints_params fun r => ?_
  dsimp only
  cases takeString r.2.2 with
  | error e => exact prints_error e
  | ok string =>
    change Prints m (stringText m.flag r.1.toInt r.2.1.toInt string.1 >>= _) (stringText m.flag r.1.toInt r.2.1.toInt string.1 >>= _)
    cases stringText m.flag r.1.toInt r.2.1.toInt string.1 with
    | error e => exact prints_error e
    | ok text => exact prints_finish { m with width := r.1, percision := r.2.1, ap := r.2.2 } rfl rfl _ _

theorem char_prints (m : Machine t) :
    Prints m (m.readParams >>= fun m => takeInt m.ap >>= fun r => .ok (m.finish r.2 (charText t m.flag m.width.toInt r.1)))
      (printChar m.flag m.width m.percision m.ap) := by
  refine prints_params fun r => ?_
  dsimp only
  cases takeInt r.2.2 with
  | error e => exact prints_error e
  | ok v => exact prints_finish { m with width := r.1, percision := r.2.1, ap := r.2.2 } rfl rfl _ _

theorem spec_prints (m : Machine t) (c : UInt8) : Prints m (m.spec c) (convert m.flag m.width m.percision c m.ap) := by
  unfold Machine.spec convert
  split
  next => exact char_prints m
  next =>
  split
  next => exact prints_params fun r => prints_finish { m with width := r.1, percision := r.2.1, ap := r.2.2 } rfl rfl _ _
  next =>
  split
  next => exact number_prints m.pointer (ascii 'x')
  next =>
  split
  next => exact number_prints m (ascii 'f')
  next =>
  split
  next => exact number_prints m c
  next =>
  split
  next => exact string_prints m
  next => exact ⟨m.width, m.percision, m.flag, by rw [List.append_nil]⟩

end Printing

section Interpretation
variable {t : CharType} {format w : List t.ValueType} {i : ℕ}

/-- The scanner ends as a computation does that prints behind what is written. -/
def EndsAs (format : List t.ValueType) (m : Machine t) : Except Trap (List t.ValueType × List (VaArg t)) → Prop
  | .error e => Ends (Machine.step format) m (.error e)
  | .ok (text, _) => ∃ m', Ends (Machine.step format) m (.ok m') ∧ m'.str = m.str ++ text

theorem EndsAs.of_visits {m m' : Machine t} {text : List t.ValueType} {r : Except Trap (List t.ValueType × List (VaArg t))}
    (hvisits : Visits (Machine.step format) m m') (hstr : m'.str = m.str ++ text) (h : EndsAs format m' r) :
    EndsAs format m (r.map fun r => (text ++ r.1, r.2)) := by
  cases r with
  | error e =>
    have hends : Ends (Machine.step format) m' (.error e) := h
    exact hends.of_visits hvisits
  | ok r =>
    obtain ⟨m'', hends, hsame⟩ := h
    refine ⟨m'', Ends.of_visits hvisits hends, ?_⟩
    rw [hsame, hstr, List.append_assoc]

theorem EndsAs.head {m m' : Machine t} {r : Except Trap (List t.ValueType × List (VaArg t))}
    (hvisits : Visits (Machine.step format) m m') (hstr : m'.str = m.str) (h : EndsAs format m' r) : EndsAs format m r := by
  have hnil : m'.str = m.str ++ [] := hstr.trans (List.append_nil m.str).symm
  have hends := h.of_visits hvisits hnil
  cases r with
  | error e => exact hends
  | ok r => exact hends

theorem interpret_text (ch : t.ValueType) (xs : List (Item t)) (ap : List (VaArg t)) :
    interpret (.text ch :: xs) ap = (interpret xs ap).map fun r => ([ch] ++ r.1, r.2) := by
  rw [interpret]
  cases interpret xs ap <;> rfl

theorem interpret_specification (s : Specification) (xs : List (Item t)) (ap : List (VaArg t)) :
    interpret (.specification s :: xs) ap =
      s.print ap >>= fun r => (interpret xs r.2).map fun q => (r.1 ++ q.1, q.2) := by
  rw [interpret]
  cases s.print ap with
  | error e => rfl
  | ok r =>
    change (interpret xs r.2 >>= _) = (interpret xs r.2).map _
    cases interpret xs r.2 <;> rfl

theorem ends_null {m : Machine t} (hnull : format[m.p]? = some 0) (ap : List (VaArg t)) : EndsAs format m (.ok ([], ap)) :=
  ⟨m, ⟨.refl, step_null (read_ok_iff.mpr hnull)⟩, (List.append_nil m.str).symm⟩

theorem percent_leads {ch : t.ValueType} (width percision : Int32) (flag : Flags) (ap : List (VaArg t)) (str : List t.ValueType)
    (hch : t.narrow ch = ascii '%') (h0 : 0 ∉ ch :: w) (h : Ahead format i (ch :: w)) :
    Leads (Machine.step format) ⟨i, .ST_TEXT, width, percision, flag, ap, str⟩
      ⟨i + 1, .ST_FLAGS, 0, 0, Flags.zero, ap, str⟩ := by
  let m : Machine t := ⟨0, .ST_TEXT, width, percision, flag, ap, str⟩
  let m' : Machine t := ⟨0, .ST_FLAGS, 0, 0, Flags.zero, ap, str⟩
  have hexamine : (m.at i).examine format ch = .ok (m'.at i) := by
    simp only [Machine.examine, Machine.at, m, m', if_pos hch]
  exact leads_narrow h h0 hexamine

theorem text_leads {ch : t.ValueType} (width percision : Int32) (flag : Flags) (ap : List (VaArg t)) (str : List t.ValueType)
    (hch : t.narrow ch ≠ ascii '%') (h0 : 0 ∉ ch :: w) (h : Ahead format i (ch :: w)) :
    Leads (Machine.step format) ⟨i, .ST_TEXT, width, percision, flag, ap, str⟩
      ⟨i + 1, .ST_TEXT, width, percision, flag, ap, str ++ [ch]⟩ := by
  let m : Machine t := ⟨0, .ST_TEXT, width, percision, flag, ap, str⟩
  let m' : Machine t := ⟨0, .ST_TEXT, width, percision, flag, ap, str ++ [ch]⟩
  have hexamine : (m.at i).examine format ch = .ok (m'.at i) := by
    simp only [Machine.examine, Machine.at, m, m', if_neg hch]
  exact leads_narrow h h0 hexamine

theorem specification_some {s : Specification} {rest : List t.ValueType} (h : specification w = some (s, rest)) :
    ∃ c, (lengthsPart (percisionPart (run isNumeric (run isFlag w).2).2).2).2 = c :: rest ∧
      s = ⟨(run isFlag w).1, (run isNumeric (run isFlag w).2).1, (percisionPart (run isNumeric (run isFlag w).2).2).1,
        (lengthsPart (percisionPart (run isNumeric (run isFlag w).2).2).2).1, t.narrow c⟩ := by
  rw [specification, Option.map_eq_some_iff] at h
  obtain ⟨c, hhead, hs⟩ := h
  refine ⟨c, ?_, (Prod.mk.inj hs).1.symm⟩
  rw [← (Prod.mk.inj hs).2]
  exact (List.cons_head?_tail hhead).symm

theorem specification_none (h : specification w = none) :
    (lengthsPart (percisionPart (run isNumeric (run isFlag w).2).2).2).2 = [] :=
  List.head?_eq_none_iff.mp (Option.map_eq_none_iff.mp h)

/-- A conversion prints its text, and the scanner goes on with the rest of the format. -/
theorem conversion_ends {s : Specification} {rest : List t.ValueType} {c : t.ValueType} (ap : List (VaArg t))
    (str : List t.ValueType) {f : List (VaArg t) → Except Trap (List t.ValueType × List (VaArg t))}
    (hc : s.conversion = t.narrow c) (h0 : 0 ∉ c :: rest) (h : Ahead format i (c :: rest))
    (hrest : ∀ width percision flag ap str, EndsAs format ⟨i + 1, .ST_TEXT, width, percision, flag, ap, str⟩ (f ap)) :
    EndsAs format ⟨i, .ST_SPEC, Specification.number s.width, Specification.number (s.percision.getD []), s.flag, ap, str⟩
      (s.print ap >>= fun r => (f r.2).map fun q => (r.1 ++ q.1, q.2)) := by
  let m : Machine t := ⟨i, .ST_SPEC, Specification.number s.width, Specification.number (s.percision.getD []), s.flag, ap, str⟩
  have hread : read Trap.formatBounds format m.p = .ok c := read_ok_iff.mpr (ahead_get h)
  have hne : c ≠ 0 := fun hnull => h0 (hnull ▸ List.mem_cons_self)
  have hexamine : m.examine format c = m.spec s.conversion := by
    rw [hc]
    rfl
  have hprints := spec_prints m s.conversion
  have hprint : convert m.flag m.width m.percision s.conversion m.ap = s.print ap := rfl
  rw [hprint] at hprints
  cases hx : s.print ap with
  | error e =>
    rw [hx] at hprints
    exact ⟨m, .refl, step_error hread hne (hexamine.trans hprints)⟩
  | ok r =>
    obtain ⟨text, ap'⟩ := r
    rw [hx] at hprints
    obtain ⟨width, percision, flag, hspec⟩ := hprints
    exact EndsAs.of_visits (.single (step_examine hread hne (hexamine.trans hspec))) rfl (hrest width percision flag ap' _)

/-- From a place between two items the scanner prints the items ahead. -/
theorem items_ends (h0 : 0 ∉ w) (h : Ahead format i w) (width percision : Int32) (flag : Flags) (ap : List (VaArg t))
    (str : List t.ValueType) :
    EndsAs format ⟨i, .ST_TEXT, width, percision, flag, ap, str⟩ (interpret (items w) ap) := by
  fun_induction items w generalizing i width percision flag ap str with
  | case1 => exact ends_null (ahead_get h) ap
  | case2 ch w hpercent hnone =>
    have hrest : 0 ∉ w := fun hmem => h0 (List.mem_cons_of_mem ch hmem)
    have hlead := percent_leads width percision flag ap str hpercent h0 h
    obtain ⟨j, -, hahead, hend, -⟩ := specification_scans ap str (Nat.succ_pos i) hrest (ahead_cons h) 0
    have hnil := specification_none hnone
    obtain ⟨m, hvisits, hp, hstr⟩ := hend hnil
    rw [hnil] at hahead
    have hnull : format[m.p]? = some 0 := hp ▸ ahead_get hahead
    exact (ends_null hnull ap).head (.head hlead hvisits) hstr
  | case3 ch w hpercent s rest hsome ih =>
    have hrest : 0 ∉ w := fun hmem => h0 (List.mem_cons_of_mem ch hmem)
    have hlead := percent_leads width percision flag ap str hpercent h0 h
    obtain ⟨c, hcons, hs⟩ := specification_some hsome
    obtain ⟨j, -, hahead, -, hvisits⟩ := specification_scans ap str (Nat.succ_pos i) hrest (ahead_cons h) (t.narrow c)
    rw [hcons] at hahead hvisits
    have hafter : 0 ∉ c :: rest := by
      rw [← hcons]
      exact fun hmem => hrest (((lengthsPart_suffix _).trans ((percisionPart_suffix _).trans
        ((run_suffix _).trans (run_suffix w)))).mem hmem)
    have hprint := conversion_ends ap str (congrArg Specification.conversion hs) hafter hahead
      (ih (fun hmem => hafter (List.mem_cons_of_mem c hmem)) (ahead_cons hahead))
    subst hs
    rw [interpret_specification]
    exact hprint.head (.head hlead (hvisits (List.cons_ne_nil c rest))) rfl
  | case4 ch w hpercent ih =>
    have hrest : 0 ∉ w := fun hmem => h0 (List.mem_cons_of_mem ch hmem)
    rw [interpret_text]
    exact (ih hrest (ahead_cons h) width percision flag ap (str ++ [ch])).of_visits
      (.single (text_leads width percision flag ap str hpercent h0 h)) rfl

theorem ahead_body (body : List t.ValueType) : Ahead (body ++ [0]) 0 (body.takeWhile (· ≠ 0)) := by
  rw [Ahead, List.drop_zero]
  induction body with
  | nil => exact List.prefix_rfl
  | cons ch body ih =>
    by_cases hch : ch = 0
    · rw [hch, List.takeWhile_cons_of_neg (by simp)]
      exact List.prefix_append [0] _
    · rw [List.takeWhile_cons_of_pos (by simpa using hch)]
      exact List.cons_prefix_cons.mpr ⟨rfl, ih⟩

/-- On every format, with all arguments, `printf` prints the items of the format: it returns what they
print, and fails as they do. -/
theorem printf_interprets (t : CharType) (body : List t.ValueType) (ap : List (VaArg t)) :
    printf (body ++ [0]) ap =
      (interpret (items (body.takeWhile (· ≠ 0))) ap).map fun r => (r.1, LibXpf.u32 r.1.length) := by
  have h0 : 0 ∉ body.takeWhile (· ≠ 0) := by
    intro hmem
    simpa using List.mem_takeWhile_imp hmem
  have hends := items_ends h0 (ahead_body body) 0 0 Flags.zero ap []
  have hfuel : (Machine.start ap).size (body ++ [0]) < 6 * (body ++ [0]).length + 1 := Nat.lt_succ_self _
  rw [printf]
  cases hx : interpret (items (body.takeWhile (· ≠ 0))) ap with
  | error e =>
    rw [hx] at hends
    have hloop : loop Trap.diverges (Machine.step (body ++ [0])) _ (Machine.start ap) = .error e :=
      loop_of_ends (fun _ _ => step_size) hends hfuel
    rw [hloop]
    rfl
  | ok r =>
    rw [hx] at hends
    obtain ⟨m, hm, hstr⟩ := hends
    have hloop : loop Trap.diverges (Machine.step (body ++ [0])) _ (Machine.start ap) = .ok m :=
      loop_of_ends (fun _ _ => step_size) hm hfuel
    rw [hloop]
    change Except.ok (m.str, LibXpf.u32 m.str.length) = Except.ok (r.1, LibXpf.u32 r.1.length)
    rw [hstr]
    rfl

end Interpretation
end LibXpf.Xpfstring
