import LibXpf.Getopt.Outcomes

/-! # The second scan

The second scan detaches the elements at which it stops. After it they stand behind
the others, in their order.
-/
namespace LibXpf.Getopt
open Buffers

section Detached
variable (o : Options)

/-- The elements that the second scan detaches: it skips some elements first, and where it has
stopped behind an element it detaches the next one whatever it is. -/
def Options.rescanFrom : (skip : ℕ) → (stopped : Bool) → List Arg → List Arg
  | _, _, [] => []
  | skip + 1, stopped, _ :: rest => rescanFrom skip stopped rest
  | 0, true, e :: rest => e :: rescanFrom 0 false rest
  | 0, false, e :: rest =>
    if e.plain then e :: rescanFrom 0 false rest
    else if e.dashes then rescanFrom 0 true rest
    else
      match o.fate e rest with
      | .passes taken => rescanFrom taken false rest
      | .stopsPast taken => rescanFrom taken true rest
      | .stopsWithin => e :: rescanFrom 0 false rest

/-- What is detached from an element with this fate on. -/
def Options.rescanAfter (fate : Fate) (e : Arg) (rest : List Arg) : List Arg :=
  match fate with
  | .passes taken => o.rescanFrom taken false rest
  | .stopsPast taken => o.rescanFrom taken true rest
  | .stopsWithin => e :: o.rescanFrom 0 false rest

/-- What is detached by a scan that is at a character of the first element, or at its start. -/
def Options.rescanAt : Option ℕ → List Arg → List Arg
  | some offset, e :: rest => o.rescanAfter (o.groupFate (e.text.drop offset) rest) e rest
  | _, s => o.rescanFrom 0 false s

variable {o} {e : Arg} {rest : List Arg}

theorem rescanFrom_drop (skip : ℕ) (stopped : Bool) (s : List Arg) :
    o.rescanFrom skip stopped s = o.rescanFrom 0 stopped (s.drop skip) := by
  induction skip generalizing s with
  | zero => rw [List.drop_zero]
  | succ skip ih =>
    cases s with
    | nil => cases stopped <;> rfl
    | cons e rest => rw [Options.rescanFrom, ih, List.drop_succ_cons]

theorem rescanFrom_plain (h : e.plain) : o.rescanFrom 0 false (e :: rest) = e :: o.rescanFrom 0 false rest := by
  rw [Options.rescanFrom, if_pos h]

theorem rescanFrom_dashes (hplain : ¬ e.plain) (h : e.dashes) :
    o.rescanFrom 0 false (e :: rest) = o.rescanFrom 0 true rest := by
  rw [Options.rescanFrom, if_neg hplain, if_pos h]

theorem rescanFrom_option (hplain : ¬ e.plain) (hdashes : ¬ e.dashes) :
    o.rescanFrom 0 false (e :: rest) = o.rescanAfter (o.fate e rest) e rest := by
  rw [Options.rescanFrom, if_neg hplain, if_neg hdashes]
  rfl

end Detached

section Calls
variable {o : Options} {st st' : State} {argc : ℕ} {e : Arg} {rest s : List Arg} {depth : ℕ} {only : Bool}
  {optstring : Option (List UInt8)} {longopts : Option (List Xoption)}

theorem rescanAt_option {offset : Option ℕ} (hoption : ¬ (offset = none ∧ (e.plain ∨ e.dashes))) :
    o.rescanAt offset (e :: rest) = o.rescanAfter (o.fateAt offset e rest) e rest := by
  cases offset with
  | none => exact rescanFrom_option (fun hp => hoption ⟨rfl, .inl hp⟩) (fun hd => hoption ⟨rfl, .inr hd⟩)
  | some offset => rfl

theorem rescanAt_none : o.rescanAt none s = o.rescanFrom 0 false s := by cases s <;> rfl

theorem rescanFrom_stopped : o.rescanFrom 0 true (e :: rest) = e :: o.rescanFrom 0 false rest := by
  rw [Options.rescanFrom]

/-- The scan goes on with another position in its elements, and detaches the same ones. -/
structure GoesOn (o : Options) (st' : State) (argc : ℕ) (offset : Option ℕ) (s : List Arg) : Prop where
  position : ∃ offset' s', Scanning st' argc s' ∧ Pointing st' s' offset' ∧
    o.rescanAt offset s = o.rescanAt offset' s' ∧ load offset' s' < load offset s

/-- The scan has stopped in front of the elements that are left, and the first of them is detached. -/
structure Stops (o : Options) (st' : State) (argc : ℕ) (offset : Option ℕ) (s : List Arg) : Prop where
  position : ∃ s', Scanning st' argc s' ∧ o.rescanAt offset s = o.rescanFrom 0 true s' ∧
    ∀ x r, s' = x :: r → load none r < load offset s

/-- Where an outcome leaves the second scan. -/
theorem Outcome.position {offset : Option ℕ} {code : Int32} (h : Outcome o st' argc offset e rest code)
    (hpoint : Pointing st (e :: rest) offset) (hoption : ¬ (offset = none ∧ (e.plain ∨ e.dashes))) :
    if code = -1 then Stops o st' argc offset (e :: rest) else GoesOn o st' argc offset (e :: rest) := by
  have hload := load_pos hpoint
  have hafter : o.rescanAt offset (e :: rest) = o.rescanAfter (o.fateAt offset e rest) e rest := rescanAt_option hoption
  cases h with
  | @passes code k hcode hfate hscan hcur =>
    have hdrop := load_drop k rest
    rw [if_neg hcode]
    refine ⟨none, rest.drop k, hscan, hcur, ?_, by omega⟩
    rw [hafter, hfate, Options.rescanAfter, rescanFrom_drop, rescanAt_none]
  | @stopsPast k hfate hscan =>
    have hdrop := load_drop k rest
    rw [if_pos rfl]
    refine ⟨rest.drop k, hscan, ?_, fun x r hr => ?_⟩
    · rw [hafter, hfate, Options.rescanAfter, rescanFrom_drop]
    · rw [hr, load_cons, Option.getD_none] at hdrop
      omega
  | stopsWithin hfate hscan =>
    rw [if_pos rfl]
    refine ⟨e :: rest, hscan, ?_, fun x r hr => ?_⟩
    · rw [hafter, hfate, Options.rescanAfter, rescanFrom_stopped]
    · obtain ⟨-, rfl⟩ := List.cons.inj hr
      exact hload
  | @stays code offset' hcode hfate hscan hpoint' hlt =>
    rw [if_neg hcode]
    refine ⟨some offset', e :: rest, hscan, hpoint', ?_, load_stays hlt hpoint'⟩
    rw [hafter, hfate]
    rfl

/-- A call of the second scan stops or goes on. -/
theorem plus_call (depth : ℕ) {offset : Option ℕ} (hpermute : (modeOf (optstring.getD [])).permute = false)
    (hargofone : (modeOf (optstring.getD [])).argofone = false) (h : Scanning st argc s) (hpoint : Pointing st s offset) :
    ∃ code st', xgetopt_impl (depth + 1) only optstring longopts argc st = .ok (code, st') ∧ st'.argv = st.argv ∧
      if code = -1 then Stops (scanOptions only optstring longopts) st' argc offset s
      else GoesOn (scanOptions only optstring longopts) st' argc offset s := by
  cases s with
  | nil =>
    obtain ⟨st₁, hadv, hrun⟩ := xgetopt_impl_end h
    rw [← h.end_iff.mp rfl] at hadv
    have hnone : (scanOptions only optstring longopts).rescanAt offset [] = [] := by cases offset <;> rfl
    refine ⟨-1, st₁, ?_, hadv.argv, ?_⟩
    · rw [hrun, finishScan, hpermute]
      rfl
    · rw [if_pos rfl]
      exact ⟨[], h.stay hadv, hnone, fun x r hr => absurd hr.symm (List.cons_ne_nil x r)⟩
  | cons e rest =>
    by_cases hoption : offset = none ∧ (e.plain ∨ e.dashes)
    · obtain ⟨rfl, hkind⟩ := hoption
      obtain ⟨st₁, program, hadv, hrun⟩ := xgetopt_impl_scan depth h hpoint
      have hscan := h.stay hadv
      have hcur : st₁.xoptcur = none := by rw [hadv.xoptcur, hpoint]
      have hload := load_pos hpoint
      by_cases hplain : e.plain
      · refine ⟨-1, st₁, ?_, hadv.argv, ?_⟩
        · rw [hrun, scanLoop_plain hscan.upcoming hcur hplain hargofone, hpermute]
          rfl
        · rw [if_pos rfl]
          refine ⟨e :: rest, hscan, ?_, fun x r hr => ?_⟩
          · rw [rescanFrom_stopped]
            exact rescanFrom_plain hplain
          · obtain ⟨-, rfl⟩ := List.cons.inj hr
            exact hload
      · have hdashes := hkind.resolve_left hplain
        let st₂ : State := { st₁ with xoptind := st₁.xoptind + 1 }
        have hadv₂ : Advanced st₁ st₂ (st₁.xoptind + 1 + 0) st₁.xoptcur := ⟨rfl, rfl, rfl, rfl⟩
        refine ⟨-1, st₂, ?_, hadv.argv, ?_⟩
        · rw [hrun, scanLoop_dashes hscan.upcoming hcur hdashes, ok_bind, conclude, finishScan, hpermute]
          rfl
        · rw [if_pos rfl]
          refine ⟨rest, hscan.advance (Nat.zero_le _) hadv₂, rescanFrom_dashes hplain hdashes, fun x r hr => ?_⟩
          have hrest : load none r < load none rest := by
            rw [hr, load_cons, Option.getD_none]
            omega
          omega
    · obtain ⟨st₁, program, hadv, hrun⟩ := xgetopt_impl_scan depth h hpoint
      have hpoint₁ := hpoint.advanced hadv
      obtain ⟨code, st', hloop, hargv, houtcome⟩ := scanLoop_reply (h.stay hadv) hpoint₁ hoption
      refine ⟨code, st', ?_, hargv.trans hadv.argv, houtcome.position hpoint hoption⟩
      rw [hrun, hloop]
      rfl

/-- The loop of the second scan moves the detached elements behind the others. -/
theorem permuteLoop_rescan (hpermute : (modeOf (optstring.getD [])).permute = false)
    (hargofone : (modeOf (optstring.getD [])).argofone = false) (fuel : ℕ) {nonopts : List Arg} {offset : Option ℕ}
    (h : Scanning st argc s) (hpoint : Pointing st s offset) (hlen : argc + nonopts.length = st.argv.length)
    (hfuel : load offset s < fuel) :
    ∃ st', permuteLoop (xgetopt_impl (depth + 1) only optstring longopts) fuel argc nonopts st = .ok st' ∧
      st'.argv.drop st'.xoptind = nonopts ++ (scanOptions only optstring longopts).rescanAt offset s := by
  induction fuel generalizing st argc s nonopts offset with
  | zero => omega
  | succ fuel ih =>
    obtain ⟨code, st₁, hrun, hargv, hposition⟩ := plus_call depth hpermute hargofone h hpoint
    rw [permuteLoop, hrun, ok_bind]
    simp only
    by_cases hcode : code = -1
    · rw [if_pos hcode] at hposition
      obtain ⟨s', hscan, hrescan, hload⟩ := hposition.position
      rw [if_pos hcode, hrescan]
      cases s' with
      | nil =>
        have hind := hscan.end_iff.mp rfl
        rw [if_neg (by omega)]
        refine ⟨_, rfl, ?_⟩
        have hbound := hscan.bound
        have htake : (st₁.argv.take argc).length = st₁.xoptind := by rw [List.length_take, hind, Nat.min_eq_left hbound]
        have hend : st₁.argv.drop (argc + nonopts.length) = [] := by rw [hlen, ← hargv, List.drop_length]
        simp only [hend, List.append_nil, List.drop_left' htake, Options.rescanFrom]
      | cons x r =>
        obtain ⟨hlt, hread, -⟩ := upcoming_cons hscan.upcoming
        have hload' := hload x r rfl
        have hlen' : argc - 1 + (nonopts ++ [x]).length = (st₁.detach argc).argv.length := by
          rw [List.length_append, List.length_singleton, State.detach, rotate_length hlt hscan.bound, hargv, ← hlen]
          omega
        have hnone : Pointing (st₁.detach argc) r none := rfl
        obtain ⟨st', hloop, hdrop⟩ := ih hscan.detach hnone hlen' (by omega)
        refine ⟨st', ?_, ?_⟩
        · rw [if_pos hlt, hread, ok_bind]
          exact hloop
        · rw [hdrop, rescanFrom_stopped, List.append_assoc, List.singleton_append]
          cases r <;> rfl
    · rw [if_neg hcode] at hposition
      obtain ⟨offset', s', hscan, hpoint', hrescan, hload⟩ := hposition.position
      rw [if_neg hcode, hrescan]
      exact ih hscan hpoint' (by rw [hargv, hlen]) (by omega)

end Calls

section Permutation

/-- The flags at the head of `optstring`. -/
def headFlag (c : UInt8) : Bool := c = ascii '+' || c = ascii '-' || c = ascii ':'

theorem parseHead_optstring (mode : Mode) (l : List UInt8) :
    (parseHead mode l).optstring = l.dropWhile headFlag := by
  induction l generalizing mode with
  | nil => rfl
  | cons p rest ih =>
    rw [parseHead, List.dropWhile_cons]
    split
    next hp =>
      rw [ih, if_pos]
      rcases hp with rfl | rfl <;> rfl
    next hp =>
      split
      next hcolon =>
        rw [ih, if_pos]
        rw [hcolon]
        rfl
      next hcolon =>
        rw [if_neg]
        simp only [headFlag, Bool.or_eq_true, decide_eq_true_eq]
        tauto

theorem parseHead_plain {mode : Mode} {l : List UInt8} (h : ∀ c ∈ l.head?, headFlag c = false) :
    parseHead mode l = { mode with optstring := l } := by
  cases l with
  | nil => rfl
  | cons p rest =>
    have hp := h p rfl
    simp only [headFlag, Bool.or_eq_false_iff, decide_eq_false_iff_not] at hp
    rw [parseHead, if_neg (by tauto), if_neg hp.2]

theorem head_dropWhile {p : UInt8 → Bool} {l : List UInt8} : ∀ c ∈ (l.dropWhile p).head?, p c = false := by
  intro c hc
  have hnot := List.head?_dropWhile_not p l
  rw [hc] at hnot
  simpa using hnot

/-- The second scan looks for the same options, and stops at operands. -/
theorem modeOf_plus (mode : Mode) (l : List UInt8) (h : mode.optstring = l.dropWhile headFlag) :
    modeOf (plusOptstring (some mode.optstring)) = ⟨false, false, false, mode.optstring⟩ := by
  have hhead : ∀ c ∈ mode.optstring.head?, headFlag c = false := h ▸ head_dropWhile
  have hkeep : mode.optstring.dropWhile (fun p => p = ascii '+' || p = ascii '-') = mode.optstring := by
    cases hlist : mode.optstring with
    | nil => rfl
    | cons p rest =>
      rw [hlist] at hhead
      have hp := hhead p rfl
      rw [headFlag, Bool.or_eq_false_iff] at hp
      rw [List.dropWhile_cons, if_neg (by rw [hp.1]; exact Bool.false_ne_true)]
  rw [plusOptstring, Option.getD_some, hkeep, modeOf, parseHead, if_pos (.inl rfl), parseHead_plain hhead]
  rfl

theorem xgetopt_impl_reset {depth argc : ℕ} {only : Bool} {optstring : Option (List UInt8)}
    {longopts : Option (List Xoption)} {st : State} (h : st.xoptreset ≠ 0) :
    xgetopt_impl (depth + 1) only optstring longopts argc st =
      xgetopt_impl (depth + 1) only optstring longopts argc
        { st with xoptreset := 0, xoptcur := none, xoptind := 1, xoptarg := none, xoptopt := 0 } := by
  rw [xgetopt_impl, if_pos h, xgetopt_impl, if_neg (not_not.mpr rfl)]
  rfl

/-- The state in which the loop of the second scan starts. -/
def State.rescanned (st : State) : State :=
  { st with xopterr := 0, xoptreset := 0, longindex := none, xoptcur := none, xoptind := 1, xoptarg := none, xoptopt := 0 }

theorem rescanned_scanning {st : State} (hpos : 1 ≤ st.argv.length) :
    Scanning st.rescanned st.argv.length (st.argv.drop 1) ∧ Pointing st.rescanned (st.argv.drop 1) none ∧
      load none (st.argv.drop 1) < (st.argv.map fun arg => arg.text.length + 1).sum + 1 := by
  refine ⟨scanning_at le_rfl hpos rfl, rfl, ?_⟩
  have hle := load_drop 1 st.argv
  simp only [load, Option.getD_none, Nat.sub_zero] at hle ⊢
  omega

/-- The second scan is its loop, from the state in which a scan starts again. -/
theorem xgetopt_permute_loop (depth : ℕ) (only : Bool) (optstring : Option (List UInt8))
    (longopts : Option (List Xoption)) {st st' : State}
    (h : permuteLoop (xgetopt_impl (depth + 1) only (some (plusOptstring optstring)) (longopts.map cloneLongopts))
      ((st.argv.map fun arg => arg.text.length + 1).sum + 1) st.argv.length [] st.rescanned = .ok st') :
    xgetopt_permute (fun pstr x => xgetopt_impl (depth + 1) only (some pstr) x) st.argv.length optstring longopts st =
      .ok { st' with xopterr := st.xopterr, longindex := st.longindex } := by
  let first : State := { st with xopterr := 0, xoptreset := 1, longindex := none }
  have hone : first.xoptreset ≠ 0 := show (1 : Int32) ≠ 0 by decide
  rw [permuteLoop] at h
  rw [xgetopt_permute, permuteLoop]
  change (xgetopt_impl _ _ _ _ _ first >>= _) >>= _ = _
  rw [xgetopt_impl_reset hone]
  exact congrArg (· >>= fun st' => Except.ok { st' with xopterr := st.xopterr, longindex := st.longindex }) h

/-- The second scan puts the elements that it detaches behind the others. -/
theorem xgetopt_permute_rescan (depth : ℕ) (only : Bool) (longopts : Option (List Xoption)) {mode : Mode}
    {l : List UInt8} {st : State} (hmode : mode.optstring = l.dropWhile headFlag) (hpos : 1 ≤ st.argv.length) :
    ∃ st', xgetopt_permute (fun pstr x => xgetopt_impl (depth + 1) only (some pstr) x) st.argv.length
        (some mode.optstring) longopts st = .ok st' ∧
      st'.argv.drop st'.xoptind =
        (⟨mode.optstring, longopts.map cloneLongopts, only, questionMark⟩ : Options).rescanFrom 0 false (st.argv.drop 1) := by
  have hplus := modeOf_plus mode l hmode
  obtain ⟨hscan, hpoint, hload⟩ := rescanned_scanning hpos
  let pstr := some (plusOptstring (some mode.optstring))
  have hpermute : (modeOf (pstr.getD [])).permute = false := congrArg Mode.permute hplus
  have hargofone : (modeOf (pstr.getD [])).argofone = false := congrArg Mode.argofone hplus
  have hlen : st.argv.length + ([] : List Arg).length = st.rescanned.argv.length := rfl
  obtain ⟨st', hloop, hdrop⟩ := permuteLoop_rescan hpermute hargofone _ hscan hpoint hlen hload
  refine ⟨_, xgetopt_permute_loop depth only (some mode.optstring) longopts hloop, ?_⟩
  have hoptions : scanOptions only pstr (longopts.map cloneLongopts) =
      ⟨mode.optstring, longopts.map cloneLongopts, only, questionMark⟩ := by
    rw [scanOptions]
    change (modeOf (plusOptstring (some mode.optstring))).options _ _ = _
    rw [hplus]
    rfl
  rw [List.nil_append, hoptions, rescanAt_none] at hdrop
  exact hdrop

end Permutation
end LibXpf.Getopt
