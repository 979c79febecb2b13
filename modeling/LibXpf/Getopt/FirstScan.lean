import LibXpf.Getopt.Operands

/-! # The calls of a program

A program calls the scanner until it returns -1. The first scan skips the operands, and
the call that ends it starts the second one.
-/
namespace LibXpf.Getopt
open Buffers

section Positions
variable (o : Options)

/-- How a scan ends from an element with this fate on. -/
def Options.firstAfter (fate : Fate) (e : Arg) (rest : List Arg) : Scanned :=
  match fate with
  | .passes taken => o.firstFrom taken rest
  | .stopsPast taken => .early (rest.drop taken)
  | .stopsWithin => .early (e :: rest)

/-- How a scan ends that is at a character of the first element, or at its start. -/
def Options.firstAt : Option ℕ → List Arg → Scanned
  | some offset, e :: rest => o.firstAfter (o.groupFate (e.text.drop offset) rest) e rest
  | _, s => o.firstFrom 0 s

variable {o} {e : Arg} {rest s : List Arg}

theorem firstFrom_drop (skip : ℕ) (s : List Arg) : o.firstFrom skip s = o.firstFrom 0 (s.drop skip) := by
  induction skip generalizing s with
  | zero => rw [List.drop_zero]
  | succ skip ih =>
    cases s with
    | nil => rfl
    | cons e rest => rw [Options.firstFrom, ih, List.drop_succ_cons]

theorem firstFrom_plain (h : e.plain) : o.firstFrom 0 (e :: rest) = o.firstFrom 0 rest := by
  rw [Options.firstFrom, if_pos h]

theorem firstFrom_dashes (hplain : ¬ e.plain) (h : e.dashes) : o.firstFrom 0 (e :: rest) = .finished := by
  rw [Options.firstFrom, if_neg hplain, if_pos h]

theorem firstFrom_option (hplain : ¬ e.plain) (hdashes : ¬ e.dashes) :
    o.firstFrom 0 (e :: rest) = o.firstAfter (o.fate e rest) e rest := by
  rw [Options.firstFrom, if_neg hplain, if_neg hdashes]
  rfl

theorem firstAt_none : o.firstAt none s = o.firstFrom 0 s := by cases s <;> rfl

theorem firstAt_option {offset : Option ℕ} (hoption : ¬ (offset = none ∧ (e.plain ∨ e.dashes))) :
    o.firstAt offset (e :: rest) = o.firstAfter (o.fateAt offset e rest) e rest := by
  cases offset with
  | none => exact firstFrom_option (fun hp => hoption ⟨rfl, .inl hp⟩) (fun hd => hoption ⟨rfl, .inr hd⟩)
  | some offset => rfl

end Positions

section FirstScan
variable {o : Options} {st st' : State} {e : Arg} {rest s : List Arg} {only : Bool}
  {optstring : Option (List UInt8)} {longopts : Option (List Xoption)}

/-- A call of the first scan has reported some elements, or goes on with others ahead. -/
structure Answer (o : Options) (argv : List Arg) (offset : Option ℕ) (s : List Arg) (code : Int32) (st' : State) : Prop where
  ends : code = -1 → st'.argv.drop st'.xoptind = o.ending (argv.drop 1) (o.firstAt offset s)
  goes : code ≠ -1 → st'.argv = argv ∧ ∃ offset' s', Scanning st' argv.length s' ∧ Pointing st' s' offset' ∧
    o.firstAt offset s = o.firstAt offset' s' ∧ load offset' s' < load offset s

theorem Answer.before {argv s' : List Arg} {offset offset' : Option ℕ} {code : Int32}
    (h : Answer o argv offset' s' code st') (hfirst : o.firstAt offset s = o.firstAt offset' s')
    (hload : load offset' s' ≤ load offset s) : Answer o argv offset s code st' := by
  refine ⟨fun hcode => hfirst ▸ h.ends hcode, fun hcode => ?_⟩
  obtain ⟨hargv, offset'', s'', hscan, hpoint, hnext, hlt⟩ := h.goes hcode
  exact ⟨hargv, offset'', s'', hscan, hpoint, hfirst.trans hnext, hlt.trans_le hload⟩

theorem Scanning.remaining (h : Scanning st st.argv.length s) : st.argv.drop st.xoptind = s := by
  rw [← h.upcoming, LibXpf.Getopt.upcoming, List.take_length]

/-- What an outcome means for the first scan. -/
theorem Outcome.answer {argv : List Arg} {offset : Option ℕ} {code : Int32} (hargv : st'.argv = argv)
    (h : Outcome o st' argv.length offset e rest code) (hpoint : Pointing st (e :: rest) offset)
    (hoption : ¬ (offset = none ∧ (e.plain ∨ e.dashes))) : Answer o argv offset (e :: rest) code st' := by
  have hload := load_pos hpoint
  have hafter : o.firstAt offset (e :: rest) = o.firstAfter (o.fateAt offset e rest) e rest := firstAt_option hoption
  subst hargv
  cases h with
  | @passes code k hcode hfate hscan hcur =>
    have hdrop := load_drop k rest
    refine ⟨fun h => absurd h hcode, fun _ => ⟨rfl, none, rest.drop k, hscan, hcur, ?_, by omega⟩⟩
    rw [hafter, hfate, Options.firstAfter, firstFrom_drop, firstAt_none]
  | stopsPast hfate hscan =>
    refine ⟨fun _ => ?_, fun h => absurd rfl h⟩
    rw [hscan.remaining, hafter, hfate]
    rfl
  | stopsWithin hfate hscan =>
    refine ⟨fun _ => ?_, fun h => absurd rfl h⟩
    rw [hscan.remaining, hafter, hfate]
    rfl
  | @stays code offset' hcode hfate hscan hpoint' hlt =>
    refine ⟨fun h => absurd h hcode, fun _ => ⟨rfl, some offset', e :: rest, hscan, hpoint', ?_, load_stays hlt hpoint'⟩⟩
    rw [hafter, hfate]
    rfl

/-- The loop over the elements skips the operands at its start. -/
theorem scanLoop_skip (o : Options) {mode : Mode} {program : List UInt8} {argc fuel : ℕ} (hpermute : mode.permute = true)
    (hargofone : mode.argofone = false) (h : Scanning st argc s) (hcur : st.xoptcur = none) (hfuel : s.length < fuel) :
    ∃ fuel' st₁ s', scanLoop mode argc program longopts only fuel st =
        scanLoop mode argc program longopts only (fuel' + 1) st₁ ∧ Scanning st₁ argc s' ∧ st₁.xoptcur = none ∧
      st₁.argv = st.argv ∧ o.firstFrom 0 s = o.firstFrom 0 s' ∧ load none s' ≤ load none s ∧
      ∀ x r, s' = x :: r → ¬ x.plain := by
  induction s generalizing st fuel with
  | nil =>
    obtain ⟨fuel, rfl⟩ := Nat.exists_eq_succ_of_ne_zero (Nat.ne_of_gt hfuel)
    exact ⟨fuel, st, [], rfl, h, hcur, rfl, rfl, le_rfl, fun x r hr => absurd hr.symm (List.cons_ne_nil x r)⟩
  | cons e rest ih =>
    rw [List.length_cons] at hfuel
    obtain ⟨fuel, rfl⟩ := Nat.exists_eq_succ_of_ne_zero (Nat.ne_of_gt (Nat.zero_lt_of_lt hfuel))
    by_cases hplain : e.plain
    · let st₁ : State := { st with xoptind := st.xoptind + 1 }
      have hadv : Advanced st st₁ (st.xoptind + 1 + 0) st.xoptcur := ⟨rfl, rfl, rfl, rfl⟩
      have hscan : Scanning st₁ argc rest := h.advance (k := 0) (Nat.zero_le _) hadv
      have hlt : rest.length < fuel := Nat.lt_of_succ_lt_succ hfuel
      obtain ⟨fuel', st₂, s', hloop, hscan', hcur', hargv, hfirst, hload, hhead⟩ := ih hscan hcur hlt
      refine ⟨fuel', st₂, s', ?_, hscan', hcur', hargv, ?_, ?_, hhead⟩
      · rw [scanLoop_plain h.upcoming hcur hplain hargofone, if_pos hpermute]
        exact hloop
      · rw [firstFrom_plain hplain, hfirst]
      · rw [load_cons, Option.getD_none]
        omega
    · refine ⟨fuel, st, e :: rest, rfl, h, hcur, rfl, rfl, le_rfl, fun x r hr => ?_⟩
      obtain ⟨rfl, -⟩ := List.cons.inj hr
      exact hplain

/-- The loop over the elements in a first scan leaves its last element behind, or answers. -/
theorem scanLoop_first {mode : Mode} {program : List UInt8} {argv : List Arg} {fuel : ℕ} {offset : Option ℕ}
    (hpermute : mode.permute = true) (hargofone : mode.argofone = false) (hargv : st.argv = argv)
    (h : Scanning st argv.length s) (hpoint : Pointing st s offset) (hfuel : s.length < fuel) :
    (∃ st', scanLoop mode argv.length program longopts only fuel st = .ok (.left st') ∧ st'.argv = argv ∧
        (mode.options longopts only).firstAt offset s = .finished) ∨
      ∃ code st', scanLoop mode argv.length program longopts only fuel st = .ok (.returned code st') ∧
        Answer (mode.options longopts only) argv offset s code st' := by
  cases offset with
  | some offset =>
    obtain ⟨e, rest, rfl, -⟩ := id hpoint
    obtain ⟨fuel, rfl⟩ := Nat.exists_eq_succ_of_ne_zero (Nat.ne_of_gt (Nat.zero_lt_of_lt hfuel))
    have hoption : ¬ (some offset = none ∧ (e.plain ∨ e.dashes)) := fun hn => absurd hn.1 (Option.some_ne_none offset)
    obtain ⟨code, st', hloop, hsame, houtcome⟩ := scanLoop_reply h hpoint hoption
    exact .inr ⟨code, st', hloop, houtcome.answer (hsame.trans hargv) hpoint hoption⟩
  | none =>
    obtain ⟨fuel', st₁, s', hskip, hscan, hcur, hargv₁, hfirst, hload, hhead⟩ :=
      scanLoop_skip (mode.options longopts only) hpermute hargofone h hpoint hfuel
    have hargv' : st₁.argv = argv := hargv₁.trans hargv
    rw [← firstAt_none, ← firstAt_none] at hfirst
    rw [hskip]
    cases s' with
    | nil => exact .inl ⟨st₁, scanLoop_nil hscan.bound hscan.upcoming, hargv', hfirst⟩
    | cons e rest =>
      have hplain := hhead e rest rfl
      by_cases hdashes : e.dashes
      · refine .inl ⟨_, scanLoop_dashes hscan.upcoming hcur hdashes, hargv', ?_⟩
        rw [hfirst]
        exact firstFrom_dashes hplain hdashes
      · have hoption : ¬ ((none : Option ℕ) = none ∧ (e.plain ∨ e.dashes)) := fun hn => hn.2.elim hplain hdashes
        have hstart : Pointing st₁ (e :: rest) none := hcur
        obtain ⟨code, st', hloop, hsame, houtcome⟩ := scanLoop_reply hscan hstart hoption
        exact .inr ⟨code, st', hloop, (houtcome.answer (hsame.trans hargv') hcur hoption).before hfirst hload⟩

/-- The call that ends the first scan reports what the second one detaches. -/
theorem finishScan_reports {depth : ℕ} {argv : List Arg} (hpermute : (modeOf (optstring.getD [])).permute = true)
    (hpos : 1 ≤ argv.length) (hargv : st.argv = argv) :
    ∃ st', finishScan (fun pstr x => xgetopt_impl (depth + 1) only (some pstr) x) (modeOf (optstring.getD []))
        longopts argv.length st = .ok (-1, st') ∧
      st'.argv.drop st'.xoptind = (scanOptions only optstring longopts).clone.rescanFrom 0 false (argv.drop 1) := by
  subst hargv
  obtain ⟨st', hrun, hdrop⟩ := xgetopt_permute_rescan depth only longopts
    (parseHead_optstring ⟨true, false, false, []⟩ (optstring.getD [])) hpos
  refine ⟨st', ?_, hdrop⟩
  rw [finishScan, if_pos hpermute]
  exact congrArg (· >>= fun st' => Except.ok (-1, st')) hrun

/-- A call of the first scan. -/
theorem first_call {depth : ℕ} {argv : List Arg} {offset : Option ℕ} (hpermute : (modeOf (optstring.getD [])).permute = true)
    (hargofone : (modeOf (optstring.getD [])).argofone = false) (hargv : st.argv = argv)
    (h : Scanning st argv.length s) (hpoint : Pointing st s offset) :
    ∃ code st', xgetopt_impl (depth + 2) only optstring longopts argv.length st = .ok (code, st') ∧
      Answer (scanOptions only optstring longopts) argv offset s code st' := by
  have hpos : 1 ≤ argv.length := h.pos.trans h.le
  cases s with
  | nil =>
    obtain ⟨st₁, hadv, hrun⟩ := xgetopt_impl_end h
    obtain ⟨st', hfinish, hdrop⟩ := finishScan_reports hpermute hpos (hadv.argv.trans hargv)
    refine ⟨-1, st', hrun.trans hfinish, fun _ => ?_, fun hne => absurd rfl hne⟩
    rw [hdrop]
    cases offset <;> rfl
  | cons e rest =>
    obtain ⟨st₁, program, hadv, hrun⟩ := xgetopt_impl_scan (depth + 1) h hpoint
    have hpoint₁ := hpoint.advanced hadv
    have hlen : (e :: rest).length < argv.length - st.xoptind + 1 := by
      rw [← h.upcoming, upcoming, List.length_drop, List.length_take]
      omega
    rcases scanLoop_first hpermute hargofone (hadv.argv.trans hargv) (h.stay hadv) hpoint₁ hlen with
      ⟨st', hloop, hargv', hfirst⟩ | ⟨code, st', hloop, hanswer⟩
    · obtain ⟨st'', hfinish, hdrop⟩ := finishScan_reports hpermute hpos hargv'
      refine ⟨-1, st'', ?_, fun _ => ?_, fun hne => absurd rfl hne⟩
      · rw [hrun, hloop]
        exact hfinish
      · rw [hdrop]
        change _ = Options.ending _ _ (((modeOf _).options _ _).firstAt offset _)
        rw [hfirst]
        rfl
    · refine ⟨code, st', ?_, hanswer⟩
      rw [hrun, hloop]
      rfl

end FirstScan

section Calls

/-- The option characters, the long options and the way of writing them of a call. -/
def Command.optstring : Command → Option (List UInt8)
  | .xgetopt optstring => optstring
  | .xgetopt_long optstring _ => optstring
  | .xgetopt_long_only optstring _ => optstring

def Command.longopts : Command → Option (List Xoption)
  | .xgetopt _ => none
  | .xgetopt_long _ longopts => longopts
  | .xgetopt_long_only _ longopts => longopts

def Command.only : Command → Bool
  | .xgetopt_long_only _ _ => true
  | _ => false

/-- What the calls look for. -/
def Command.options (c : Command) : Options := scanOptions c.only c.optstring c.longopts

theorem Command.call_eq (c : Command) : c.call = xgetopt_impl 2 c.only c.optstring c.longopts := by
  cases c <;> rfl

/-- The calls of a program, at most as many as given, up to the one that returns -1. -/
def Command.untilDone (c : Command) (argc : ℕ) : (calls : ℕ) → State → Except Fault State
  | 0, _ => .error .diverges
  | calls + 1, st => do
    let (code, st') ← c.call argc st
    if code = -1 then .ok st' else c.untilDone argc calls st'

/-- Nothing has been scanned yet, or the scanner is told to start again. -/
def Fresh (st : State) : Prop := st.xoptreset ≠ 0 ∨ st.xoptind ≤ 1 ∧ st.xoptcur = none

variable {c : Command} {st : State} {s : List Arg}

/-- The head of `optstring` does not turn the permutation off. -/
def Permutes (optstring : List UInt8) : Prop :=
  ascii '+' ∉ optstring.takeWhile headFlag ∧ ascii '-' ∉ optstring.takeWhile headFlag

theorem parseHead_permutes {mode : Mode} {l : List UInt8} (h : Permutes l) :
    (parseHead mode l).permute = mode.permute ∧ (parseHead mode l).argofone = mode.argofone := by
  induction l generalizing mode with
  | nil => exact ⟨rfl, rfl⟩
  | cons p rest ih =>
    rw [parseHead]
    by_cases hp : p = ascii '+' ∨ p = ascii '-'
    · have hflag : headFlag p = true := by rcases hp with rfl | rfl <;> rfl
      rw [Permutes, List.takeWhile_cons, if_pos hflag, List.mem_cons, List.mem_cons] at h
      exact absurd hp (by tauto)
    · rw [if_neg hp]
      by_cases hcolon : p = ascii ':'
      · have hflag : headFlag p = true := by
          rw [hcolon]
          rfl
        rw [Permutes, List.takeWhile_cons, if_pos hflag, List.mem_cons, List.mem_cons, not_or, not_or] at h
        rw [if_pos hcolon]
        exact ih ⟨h.1.2, h.2.2⟩
      · rw [if_neg hcolon]
        exact ⟨rfl, rfl⟩

theorem modeOf_permutes {l : List UInt8} (h : Permutes l) : (modeOf l).permute = true ∧ (modeOf l).argofone = false :=
  parseHead_permutes h

theorem fresh_call (hfresh : Fresh st) (hargc : 1 ≤ st.argv.length) :
    ∃ begun, c.call st.argv.length st = c.call st.argv.length begun ∧ begun.argv = st.argv ∧
      Scanning begun st.argv.length (st.argv.drop 1) ∧ begun.xoptcur = none := by
  rw [Command.call_eq]
  by_cases hreset : st.xoptreset = 0
  · obtain ⟨hind, hcur⟩ := hfresh.resolve_left (not_not.mpr hreset)
    refine ⟨{ st with xoptind := 1 }, ?_, rfl, scanning_at le_rfl hargc hreset, hcur⟩
    rw [xgetopt_impl, xgetopt_impl, if_neg (not_not.mpr hreset), if_neg (not_not.mpr hreset)]
    simp only [max_eq_right hind, max_self]
  · exact ⟨_, xgetopt_impl_reset hreset, rfl, scanning_at le_rfl hargc rfl, rfl⟩

/-- The calls from a position on come to their end, and report as the position says. -/
theorem untilDone_scan {argv : List Arg} {offset : Option ℕ} (calls : ℕ) (hflags : Permutes (c.optstring.getD []))
    (hargv : st.argv = argv) (h : Scanning st argv.length s) (hpoint : Pointing st s offset)
    (hload : load offset s < calls) :
    ∃ st', c.untilDone argv.length calls st = .ok st' ∧
      st'.argv.drop st'.xoptind = c.options.ending (argv.drop 1) (c.options.firstAt offset s) := by
  obtain ⟨hpermute, hargofone⟩ := modeOf_permutes hflags
  induction calls generalizing st s offset with
  | zero => exact absurd hload (Nat.not_lt_zero _)
  | succ calls ih =>
    obtain ⟨code, st', hcall, hanswer⟩ := first_call hpermute hargofone hargv h hpoint
    rw [← Command.call_eq] at hcall
    rw [Command.untilDone, hcall, ok_bind]
    by_cases hcode : code = -1
    · exact ⟨st', if_pos hcode, hanswer.ends hcode⟩
    · obtain ⟨hargv', offset', s', hscan, hpoint', hfirst, hlt⟩ := hanswer.goes hcode
      obtain ⟨st'', hrun, hdrop⟩ := ih hargv' hscan hpoint' (by omega)
      refine ⟨st'', (if_neg hcode).trans hrun, ?_⟩
      rw [hdrop, Command.options, hfirst]

/-- The calls of a program report the elements that the first scan and the second one leave. -/
theorem untilDone_reported (hfresh : Fresh st) (hargc : 1 ≤ st.argv.length) (hflags : Permutes (c.optstring.getD [])) :
    ∃ calls st', c.untilDone st.argv.length calls st = .ok st' ∧
      st'.argv.drop st'.xoptind = c.options.reported (st.argv.drop 1) := by
  obtain ⟨begun, hcall, hargv, hscan, hcur⟩ := fresh_call (c := c) hfresh hargc
  have hpoint : Pointing begun (st.argv.drop 1) none := hcur
  let calls := load none (st.argv.drop 1)
  obtain ⟨st', hrun, hdrop⟩ := untilDone_scan (calls + 1) hflags hargv hscan hpoint (Nat.lt_succ_self _)
  refine ⟨calls + 1, st', ?_, ?_⟩
  · rw [Command.untilDone, hcall, ← Command.untilDone]
    exact hrun
  · rw [hdrop, firstAt_none]
    rfl

/-- At the end of the calls the elements from `xoptind` on are the operands of the command line, if and
only if the command line is regular. -/
theorem reports_operands_iff (c : Command) (st : State) (hfresh : Fresh st) (hargc : 1 ≤ st.argv.length)
    (hflags : Permutes (c.optstring.getD [])) :
    ∃ calls st', c.untilDone st.argv.length calls st = .ok st' ∧
      (st'.argv.drop st'.xoptind = c.options.operandsFrom 0 (st.argv.drop 1) ↔
        c.options.Regular 0 false (st.argv.drop 1)) := by
  obtain ⟨calls, st', hrun, hdrop⟩ := untilDone_reported hfresh hargc hflags
  refine ⟨calls, st', hrun, ?_⟩
  rw [hdrop]
  exact reported_iff (st.argv.drop 1)

/-- The elements of a command line, each in a buffer of its own. -/
def commandLine (texts : List String) (h : ∀ t ∈ texts, 0 ∉ chars t) : List Arg :=
  (texts.attach.zipIdx).map fun p => ⟨p.2, chars p.1.1, h p.1.1 p.1.2⟩

/-- The state in which a program starts. -/
def started (argv : List Arg) : State := ⟨0, 0, 1, 0, none, none, argv, none, fun _ => 0, []⟩

def mixedLine : List Arg := commandLine ["prog", "x", "-b", "v", "--", "-a"] (by decide)

theorem reports_operands_iff_mixed :
    ∃ calls st', (Command.xgetopt (some (chars "ab:"))).untilDone 6 calls (started mixedLine) = .ok st' ∧
      (st'.argv.drop st'.xoptind = (Command.xgetopt (some (chars "ab:"))).options.operandsFrom 0 (mixedLine.drop 1) ↔
        (Command.xgetopt (some (chars "ab:"))).options.Regular 0 false (mixedLine.drop 1)) :=
  reports_operands_iff (.xgetopt (some (chars "ab:"))) (started mixedLine) (.inr ⟨Nat.zero_le _, rfl⟩) (by decide)
    ⟨by decide, by decide⟩

def dashedLine : List Arg := commandLine ["prog", "--", "a", "-b"] (by decide)

/-- Of two operands behind the terminator the second one is taken for an option. -/
theorem operand_lost :
    ∃ st', (Command.xgetopt (some (chars "b"))).untilDone 4 3 (started dashedLine) = .ok st' ∧
      (st'.argv.drop st'.xoptind).map Arg.text = [chars "a"] ∧
      ((Command.xgetopt (some (chars "b"))).options.operandsFrom 0 (dashedLine.drop 1)).map Arg.text =
        [chars "a", chars "-b"] ∧
      st'.argv.drop st'.xoptind ≠ (Command.xgetopt (some (chars "b"))).options.operandsFrom 0 (dashedLine.drop 1) := by
  refine ⟨_, rfl, ?_, ?_, ?_⟩ <;> decide

end Calls
end LibXpf.Getopt
