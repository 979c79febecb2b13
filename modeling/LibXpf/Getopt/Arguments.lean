import LibXpf.Foundation.GuardedRuns
import LibXpf.Getopt.FirstScan

/-! # The arguments of a program

Every call comes to its end and has moved on in `argv`, unless it returns -1. The second
scan takes elements out of `argv` and puts them back behind the others, so that `argv`
only ever is permuted.
-/
namespace LibXpf.Getopt
open Buffers GuardedRuns

section Places
variable {st st' : State} {argc n : ℕ} {e : Arg} {rest s : List Arg} {mode : Mode} {program : List UInt8} {only : Bool}
  {optstring : Option (List UInt8)} {longopts : Option (List Xoption)}

/-- A scan is at some place in `argv`, with so much ahead of it. -/
def Underway (st : State) (argc n : ℕ) : Prop :=
  ∃ offset s, Scanning st argc s ∧ Pointing st s offset ∧ load offset s = n

/-- Where a scan is after a call: it has something less ahead of it, unless the call returns -1. -/
structure Moved (argv : List Arg) (argc n : ℕ) (code : Int32) (st' : State) : Prop where
  argv : st'.argv = argv
  underway : ∃ m ≤ n, Underway st' argc m ∧ (code ≠ -1 → m < n)

theorem Moved.before {argv : List Arg} {m : ℕ} {code : Int32} (h : Moved argv argc m code st') (hm : m ≤ n) :
    Moved argv argc n code st' := by
  obtain ⟨hargv, k, hk, hplace, hlt⟩ := h
  exact ⟨hargv, k, hk.trans hm, hplace, fun hcode => (hlt hcode).trans_le hm⟩

/-- A reply moves the scan on, whatever its code is. -/
theorem Replied.moved {offset past : Option ℕ} {at' : ℕ} (code : Int32) (h : Scanning st argc (e :: rest))
    (hpoint : Pointing st (e :: rest) offset) (hreplied : Replied st st' e at' past) (hat : offset.getD 0 ≤ at')
    (hbounds : (past = none → at' + 1 < e.text.length) ∧ ∀ k, past = some k → k ≤ rest.length) :
    Moved st.argv argc (load offset (e :: rest)) code st' := by
  cases past with
  | some k =>
    have hload := (load_drop k rest).trans_lt (load_pos hpoint)
    exact ⟨hreplied.argv, _, hload.le, ⟨none, rest.drop k, h.advance (hbounds.2 k rfl) hreplied, hreplied.xoptcur, rfl⟩,
      fun _ => hload⟩
  | none =>
    have hpoint' : Pointing st' (e :: rest) (some (at' + 1)) :=
      ⟨e, rest, rfl, hreplied.xoptcur, Nat.succ_pos at', hbounds.1 rfl⟩
    have hload := load_stays (Nat.lt_succ_of_le hat) hpoint'
    exact ⟨hreplied.argv, _, hload.le, ⟨_, e :: rest, h.stay hreplied, hpoint', rfl⟩, fun _ => hload⟩

def Ended.code : Ended → Int32
  | .returned code _ => code
  | .left _ => -1

def Ended.state : Ended → State
  | .returned _ st => st
  | .left st => st

/-- The loop over the elements ends, and has moved on. -/
theorem scanLoop_moved {fuel : ℕ} (h : Underway st argc n) (hfuel : argc - st.xoptind < fuel) :
    ∃ ended, scanLoop mode argc program longopts only fuel st = .ok ended ∧
      Moved st.argv argc n ended.code ended.state := by
  obtain ⟨offset, s, hscan, hpoint, rfl⟩ := h
  induction fuel generalizing st offset s with
  | zero => exact absurd hfuel (Nat.not_lt_zero _)
  | succ fuel ih =>
    cases s with
    | nil =>
      exact ⟨.left st, scanLoop_nil hscan.bound hscan.upcoming, rfl, _, le_rfl, ⟨offset, [], hscan, hpoint, rfl⟩,
        fun hcode => absurd rfl hcode⟩
    | cons e rest =>
      have hlt := hscan.lt
      cases offset with
      | some offset =>
        obtain ⟨e', rest', hs, hcur, -, hlen⟩ := id hpoint
        obtain ⟨rfl, rfl⟩ := List.cons.inj hs
        obtain ⟨st', hloop, hreplied⟩ := scanLoop_within hscan.bound hscan.upcoming hcur hlen
        exact ⟨.returned _ st', hloop, hreplied.moved _ hscan hpoint le_rfl
          (replyFrom_bounds _ rest (List.drop_eq_getElem_cons hlen))⟩
      | none =>
        let st₁ : State := { st with xoptind := st.xoptind + 1 }
        have hnext : Scanning st₁ argc rest := hscan.advance (k := 0) (Nat.zero_le _) ⟨rfl, rfl, rfl, rfl⟩
        have hload := load_pos hpoint
        by_cases hplain : e.plain
        · by_cases hargofone : mode.argofone = true
          · exact ⟨.returned 1 _, scanLoop_argofone hscan.upcoming hpoint hplain hargofone, rfl, _, hload.le,
              ⟨none, rest, hscan.advance (k := 0) (Nat.zero_le _) ⟨rfl, rfl, rfl, rfl⟩, hpoint, rfl⟩, fun _ => hload⟩
          · rw [scanLoop_plain hscan.upcoming hpoint hplain (Bool.eq_false_iff.mpr hargofone)]
            by_cases hpermute : mode.permute = true
            · rw [if_pos hpermute]
              have hfuel₁ : argc - st₁.xoptind < fuel := by
                change argc - (st.xoptind + 1) < fuel
                omega
              obtain ⟨ended, hloop, hmoved⟩ := ih hfuel₁ none rest hnext hpoint
              exact ⟨ended, hloop, hmoved.before hload.le⟩
            · rw [if_neg hpermute]
              exact ⟨.returned (-1) st, rfl, rfl, _, le_rfl, ⟨none, e :: rest, hscan, hpoint, rfl⟩,
                fun hcode => absurd rfl hcode⟩
        by_cases hdashes : e.dashes
        · exact ⟨.left st₁, scanLoop_dashes hscan.upcoming hpoint hdashes, rfl, _, hload.le,
            ⟨none, rest, hnext, hpoint, rfl⟩, fun _ => hload⟩
        · obtain ⟨p, more, hp⟩ := option_text hplain hdashes
          obtain ⟨st', hloop, hreplied⟩ := scanLoop_option hscan.bound hscan.upcoming hpoint hplain hdashes
          exact ⟨.returned _ st', hloop, hreplied.moved _ hscan hpoint (Nat.zero_le _) (reply_bounds _ rest hp)⟩

/-- A call from some place has moved on, and is over unless the scan has come to its end. -/
theorem xgetopt_impl_moved (depth : ℕ) (only : Bool) (optstring : Option (List UInt8)) (longopts : Option (List Xoption)) (h : Underway st argc n) :
    ∃ code st', Moved st.argv argc n code st' ∧
      (xgetopt_impl (depth + 1) only optstring longopts argc st = .ok (code, st') ∨
        code = -1 ∧ xgetopt_impl (depth + 1) only optstring longopts argc st =
          finishScan (fun pstr x => xgetopt_impl depth only (some pstr) x) (modeOf (optstring.getD [])) longopts argc
            st') := by
  obtain ⟨offset, s, hscan, hpoint, hload⟩ := id h
  cases s with
  | nil =>
    obtain ⟨st₁, hadv, hrun⟩ := xgetopt_impl_end hscan
    rw [← hscan.end_iff.mp rfl] at hadv
    have hpoint₁ : Pointing st₁ [] offset := hpoint.advanced hadv
    exact ⟨-1, st₁, ⟨hadv.argv, n, le_rfl, ⟨offset, [], hscan.stay hadv, hpoint₁, hload⟩, fun hcode => absurd rfl hcode⟩,
      .inr ⟨rfl, hrun⟩⟩
  | cons e rest =>
    obtain ⟨st₁, program, hadv, hrun⟩ := xgetopt_impl_scan depth hscan hpoint
    have hplace : Underway st₁ argc n := ⟨offset, e :: rest, hscan.stay hadv, hpoint.advanced hadv, hload⟩
    obtain ⟨ended, hloop, hmoved⟩ := scanLoop_moved hplace (by rw [hadv.xoptind]; exact Nat.lt_succ_self _)
    rw [hadv.argv] at hmoved
    rw [hrun, hloop, ok_bind]
    cases ended with
    | returned code st' => exact ⟨code, st', hmoved, .inl rfl⟩
    | left st' => exact ⟨-1, st', hmoved, .inr ⟨rfl, rfl⟩⟩

end Places

section SecondScan
variable {st : State} {argc n depth : ℕ} {only : Bool} {optstring : Option (List UInt8)} {longopts : Option (List Xoption)}

/-- A call of the second scan moves on. -/
theorem plus_moved (depth : ℕ) (only : Bool) (longopts : Option (List Xoption)) (hpermute : (modeOf (optstring.getD [])).permute = false) (h : Underway st argc n) :
    ∃ code st', xgetopt_impl (depth + 1) only optstring longopts argc st = .ok (code, st') ∧
      Moved st.argv argc n code st' := by
  obtain ⟨code, st', hmoved, hrun | ⟨rfl, hrun⟩⟩ := xgetopt_impl_moved depth only optstring longopts h
  · exact ⟨code, st', hrun, hmoved⟩
  · refine ⟨-1, st', hrun.trans ?_, hmoved⟩
    rw [finishScan, hpermute]
    rfl

/-- An element that is detached moves from `argv` into the buffer of the second scan. -/
theorem detach_perm {x : Arg} (nonopts : List Arg) (hread : read Fault.outOfBounds st.argv st.xoptind = .ok x)
    (hlt : st.xoptind < argc) (hbound : argc ≤ st.argv.length) :
    ((st.detach argc).argv.take (argc - 1) ++ (nonopts ++ [x])).Perm (st.argv.take argc ++ nonopts) := by
  have hlen : st.xoptind < (st.argv.take argc).length := by
    rw [List.length_take]
    omega
  have hx : (st.argv.take argc)[st.xoptind] = x := by
    rw [read_lt (hlt.trans_le hbound)] at hread
    rw [List.getElem_take]
    exact Except.ok.inj hread
  have hsplit : st.argv.take argc = st.argv.take st.xoptind ++ x :: (st.argv.take argc).drop (st.xoptind + 1) := by
    have htake : (st.argv.take argc).take st.xoptind = st.argv.take st.xoptind := by
      rw [List.take_take, Nat.min_eq_left hlt.le]
    rw [← hx, ← htake, ← List.drop_eq_getElem_cons hlen, List.take_append_drop]
  have htaken : (st.detach argc).argv.take (argc - 1) =
      st.argv.take st.xoptind ++ (st.argv.take argc).drop (st.xoptind + 1) := rotate_take hlt hbound
  rw [htaken, ← List.append_assoc]
  refine (List.perm_append_singleton x _).trans ?_
  rw [← List.cons_append]
  apply List.Perm.append_right
  conv_rhs => rw [hsplit]
  exact List.perm_middle.symm

theorem detach_head (hpos : 1 ≤ st.xoptind) (hlt : st.xoptind < argc) (hbound : argc ≤ st.argv.length) :
    (st.detach argc).argv[0]? = st.argv[0]? := by
  have hlen : 0 < (st.argv.take st.xoptind).length := by
    rw [List.length_take]
    omega
  change (rotate st.argv st.xoptind argc)[0]? = _
  rw [rotate, List.append_assoc, List.getElem?_append_left hlen, List.getElem?_take_of_lt hpos]

/-- What the loop of the second scan leaves. -/
structure Rescanned (argv : List Arg) (argc : ℕ) (st' : State) : Prop where
  perm : st'.argv.Perm argv
  pos : 1 ≤ st'.xoptind
  le : st'.xoptind ≤ argc
  xoptcur : st'.xoptcur = none

/-- The loop of the second scan ends, and has put all the elements back. -/
theorem permuteLoop_perm (depth : ℕ) (only : Bool) (longopts : Option (List Xoption))
    (hpermute : (modeOf (optstring.getD [])).permute = false) (fuel : ℕ) {nonopts : List Arg} (h : Underway st argc n)
    (hlen : argc + nonopts.length = st.argv.length) (hfuel : n < fuel) :
    ∃ st', permuteLoop (xgetopt_impl (depth + 1) only optstring longopts) fuel argc nonopts st = .ok st' ∧
      st'.argv[0]? = st.argv[0]? ∧ Rescanned (st.argv.take argc ++ nonopts) argc st' := by
  induction fuel generalizing st argc n nonopts with
  | zero => exact absurd hfuel (Nat.not_lt_zero _)
  | succ fuel ih =>
    obtain ⟨code, st₁, hrun, hargv, m, hm, ⟨offset, s, hscan, hpoint, rfl⟩, hlt⟩ := plus_moved depth only longopts hpermute h
    rw [permuteLoop, hrun, ok_bind, ← hargv]
    simp only
    by_cases hcode : code = -1
    · rw [if_pos hcode]
      have hbound := hscan.bound
      cases s with
      | nil =>
        have hind := hscan.end_iff.mp rfl
        have hend : st₁.argv.drop (argc + nonopts.length) = [] := by rw [hlen, ← hargv, List.drop_length]
        have hzero : 0 < (st₁.argv.take argc).length := by
          rw [List.length_take]
          have := hscan.pos
          omega
        rw [if_neg (by omega), hend, List.append_nil]
        refine ⟨_, rfl, ?_, List.Perm.refl _, hscan.pos, hind.le, ?_⟩
        · rw [List.getElem?_append_left hzero, List.getElem?_take_of_lt (by have := hscan.pos; omega)]
        · cases offset with
          | none => exact hpoint
          | some offset =>
            obtain ⟨e, rest, hs, -⟩ := hpoint
            exact absurd hs.symm (List.cons_ne_nil e rest)
      | cons x r =>
        obtain ⟨hind, hread, -⟩ := upcoming_cons hscan.upcoming
        have hload := load_pos hpoint
        have hlen' : argc - 1 + (nonopts ++ [x]).length = (st₁.detach argc).argv.length := by
          rw [List.length_append, List.length_singleton, State.detach, rotate_length hind hbound, hargv, ← hlen]
          omega
        obtain ⟨st', hloop, hhead, hperm, hpos, hle, hcur⟩ :=
          ih ⟨none, r, hscan.detach, rfl, rfl⟩ hlen' (by omega)
        refine ⟨st', ?_, hhead.trans (detach_head hscan.pos hind hbound), hperm.trans (detach_perm nonopts hread hind hbound),
          hpos, by omega, hcur⟩
        rw [if_pos hind, hread, ok_bind]
        exact hloop
    · rw [if_neg hcode]
      exact ih ⟨offset, s, hscan, hpoint, rfl⟩ (by rw [hargv, hlen]) (by have := hlt hcode; omega)

end SecondScan

section Calls
variable {st : State} {argv : List Arg} {depth argc : ℕ} {only : Bool} {optstring : Option (List UInt8)}
  {longopts : Option (List Xoption)}

/-- The pointer into the middle of an element is not at its start. -/
def Inside (st : State) : Prop := ∀ q, st.xoptcur = some q → 0 < q.offset

theorem Underway.inside {n : ℕ} (h : Underway st argc n) : Inside st := by
  obtain ⟨offset, s, -, hpoint, -⟩ := h
  intro q hq
  cases offset with
  | none => exact absurd (hq.symm.trans hpoint) (Option.some_ne_none q)
  | some offset =>
    obtain ⟨e, rest, -, hcur, hpos, -⟩ := hpoint
    obtain rfl := Option.some.inj (hq.symm.trans hcur)
    exact hpos

theorem Underway.bounds {n : ℕ} (h : Underway st argc n) : 1 ≤ st.xoptind ∧ st.xoptind ≤ argc := by
  obtain ⟨offset, s, hscan, -⟩ := h
  exact ⟨hscan.pos, hscan.le⟩

/-- `argv` holds the arguments of the program, and its first element is in its place. -/
structure Holds (argv : List Arg) (st : State) : Prop where
  perm : st.argv.Perm argv
  head : st.argv[0]? = argv[0]?
  inside : Inside st

/-- What a call leaves. -/
structure Kept (argv : List Arg) (st : State) : Prop extends Holds argv st where
  pos : 1 ≤ st.xoptind
  le : st.xoptind ≤ argv.length

/-- The end of a scan keeps the arguments. -/
theorem finishScan_kept (depth : ℕ) (only : Bool) (optstring : Option (List UInt8)) (longopts : Option (List Xoption))
    (hinside : Inside st) (hpos : 1 ≤ st.xoptind) (hle : st.xoptind ≤ st.argv.length) :
    ∃ st', finishScan (fun pstr x => xgetopt_impl (depth + 1) only (some pstr) x) (modeOf (optstring.getD [])) longopts
        st.argv.length st = .ok (-1, st') ∧ Kept st.argv st' := by
  rw [finishScan]
  by_cases hpermute : (modeOf (optstring.getD [])).permute = true
  · rw [if_pos hpermute]
    have hargc : 1 ≤ st.argv.length := hpos.trans hle
    obtain ⟨hscan, hpoint, hload⟩ := rescanned_scanning hargc
    let pstr := some (plusOptstring (some (modeOf (optstring.getD [])).optstring))
    have hpermute' : (modeOf (pstr.getD [])).permute = false :=
      congrArg Mode.permute (modeOf_plus _ _ (parseHead_optstring ⟨true, false, false, []⟩ (optstring.getD [])))
    have hlen : st.argv.length + ([] : List Arg).length = st.rescanned.argv.length := rfl
    obtain ⟨st', hloop, hhead, hperm, hpos', hle', hcur⟩ := permuteLoop_perm depth only (longopts.map cloneLongopts) hpermute' _
      ⟨none, _, hscan, hpoint, rfl⟩ hlen hload
    rw [xgetopt_permute_loop depth only _ longopts hloop]
    refine ⟨_, rfl, ⟨?_, hhead, ?_⟩, hpos', hle'⟩
    · rw [List.append_nil] at hperm
      exact hperm.trans (by rw [State.rescanned, List.take_length])
    · intro q hq
      exact absurd (hq.symm.trans hcur) (Option.some_ne_none q)
  · rw [if_neg hpermute]
    exact ⟨st, rfl, ⟨List.Perm.refl _, rfl, hinside⟩, hpos, hle⟩

/-- A pointer that is kept for an element points into it. -/
theorem Inside.pointing (hinside : Inside st) {st₁ : State} {e : Arg} (rest : List Arg)
    (hcur : st₁.xoptcur = st.xoptcur.filter (inRange e)) : ∃ offset, Pointing st₁ (e :: rest) offset := by
  cases hkept : st.xoptcur.filter (inRange e) with
  | none => exact ⟨none, hcur.trans hkept⟩
  | some q =>
    obtain ⟨hsome, hrange⟩ := Option.filter_eq_some_iff.mp hkept
    rw [inRange, Bool.and_eq_true, decide_eq_true_eq, decide_eq_true_eq] at hrange
    refine ⟨some q.offset, e, rest, rfl, ?_, hinside q hsome, hrange.2⟩
    rw [hcur, hkept, ← hrange.1]

/-- The position that a call finds, with the pointer if it points into the element there. -/
def State.settled (st : State) (e : Arg) : State :=
  { st with xoptind := max st.xoptind 1, xoptcur := st.xoptcur.filter (inRange e) }

/-- The checks at the start of a call change nothing more the second time. -/
theorem xgetopt_impl_settled (depth : ℕ) (only : Bool) (optstring : Option (List UInt8)) (longopts : Option (List Xoption))
    (hreset : st.xoptreset = 0) (hargc : 1 ≤ st.argv.length) (hlt : max st.xoptind 1 < st.argv.length) :
    xgetopt_impl (depth + 1) only optstring longopts st.argv.length st =
      xgetopt_impl (depth + 1) only optstring longopts st.argv.length (st.settled st.argv[max st.xoptind 1]) := by
  have hread : read Fault.outOfBounds st.argv (max st.xoptind 1) = .ok st.argv[max st.xoptind 1] := read_lt hlt
  generalize st.argv[max st.xoptind 1] = e at hread ⊢
  have htwice : (st.xoptcur.filter (inRange e)).filter (inRange e) = st.xoptcur.filter (inRange e) := by
    rw [Option.filter_filter]
    simp only [Bool.and_self]
  have hmax : max (st.settled e).xoptind 1 = max st.xoptind 1 := max_eq_left (le_max_right _ _)
  have hread' : read Fault.outOfBounds (st.settled e).argv (max (st.settled e).xoptind 1) = .ok e := by
    rw [hmax]
    exact hread
  have hreset' : (st.settled e).xoptreset = 0 := hreset
  rw [xgetopt_impl_loop depth only optstring longopts hreset hargc hlt hread,
    xgetopt_impl_loop depth only optstring longopts hreset' hargc (hmax.trans_lt hlt) hread']
  simp only [State.settled, htwice, max_eq_left (le_max_right st.xoptind 1)]

/-- A call starts somewhere in `argv`, or at its end. -/
theorem xgetopt_impl_begin (depth : ℕ) (only : Bool) (optstring : Option (List UInt8)) (longopts : Option (List Xoption))
    (hinside : Inside st) (hargc : 1 ≤ st.argv.length) :
    ∃ st₁, st₁.argv = st.argv ∧
      ((∃ n ≤ load none (st.argv.drop 1), Underway st₁ st.argv.length n ∧
        xgetopt_impl (depth + 1) only optstring longopts st.argv.length st =
          xgetopt_impl (depth + 1) only optstring longopts st.argv.length st₁) ∨
      Inside st₁ ∧ st₁.xoptind = st.argv.length ∧ xgetopt_impl (depth + 1) only optstring longopts st.argv.length st =
        finishScan (fun pstr x => xgetopt_impl depth only (some pstr) x) (modeOf (optstring.getD [])) longopts
          st.argv.length st₁) := by
  by_cases hreset : st.xoptreset = 0
  · rcases Nat.lt_or_ge (max st.xoptind 1) st.argv.length with hlt | hge
    · let st₁ := st.settled st.argv[max st.xoptind 1]
      have hscan : Scanning st₁ st.argv.length (st.argv.drop (max st.xoptind 1)) :=
        scanning_at (le_max_right _ _) hlt.le hreset
      have hdrop : st.argv.drop (max st.xoptind 1) =
          st.argv[max st.xoptind 1] :: st.argv.drop (max st.xoptind 1 + 1) := List.drop_eq_getElem_cons hlt
      obtain ⟨offset, hpoint⟩ : ∃ offset, Pointing st₁ (st.argv.drop (max st.xoptind 1)) offset := by
        rw [hdrop]
        exact hinside.pointing _ rfl
      have hload : load offset (st.argv.drop (max st.xoptind 1)) ≤ load none (st.argv.drop 1) := by
        have hlater : (st.argv.drop 1).drop (max st.xoptind 1 - 1) = st.argv.drop (max st.xoptind 1) := by
          rw [List.drop_drop, Nat.add_sub_cancel' (le_max_right _ _)]
        rw [← hlater]
        exact (Nat.sub_le _ _).trans (load_drop _ _)
      exact ⟨st₁, rfl, .inl ⟨_, hload, ⟨offset, _, hscan, hpoint, rfl⟩,
        xgetopt_impl_settled depth only optstring longopts hreset hargc hlt⟩⟩
    · refine ⟨{ st with xoptind := st.argv.length, xoptarg := none }, rfl, .inr ⟨hinside, rfl, ?_⟩⟩
      rw [xgetopt_impl, read_lt (by omega), ok_bind, if_neg (not_not.mpr hreset)]
      exact if_pos hge
  · let begun : State := { st with xoptreset := 0, xoptcur := none, xoptind := 1, xoptarg := none, xoptopt := 0 }
    have hscan : Scanning begun st.argv.length (st.argv.drop 1) := scanning_at le_rfl hargc rfl
    exact ⟨begun, rfl, .inl ⟨_, le_rfl, ⟨none, _, hscan, rfl, rfl⟩, xgetopt_impl_reset hreset⟩⟩

/-- A call from some place comes to its end, and has moved on unless it returns -1. -/
theorem call_underway (c : Command) {n : ℕ} (h : Underway st st.argv.length n) :
    ∃ code st', c.call st.argv.length st = .ok (code, st') ∧ Kept st.argv st' ∧
      (code ≠ -1 → st'.argv = st.argv ∧ ∃ m < n, Underway st' st.argv.length m) := by
  rw [Command.call_eq]
  obtain ⟨code, st', ⟨hargv, m, hm, hplace, hlt⟩, hrun⟩ := xgetopt_impl_moved 1 c.only c.optstring c.longopts h
  obtain ⟨hpos, hle⟩ := hplace.bounds
  rcases hrun with hrun | ⟨rfl, hrun⟩
  · exact ⟨code, st', hrun, ⟨⟨by rw [hargv], by rw [hargv], hplace.inside⟩, hpos, hle⟩,
      fun hcode => ⟨hargv, m, hlt hcode, hplace⟩⟩
  · rw [← hargv] at hle hrun ⊢
    obtain ⟨st'', hfinish, hkept⟩ := finishScan_kept 0 c.only c.optstring c.longopts hplace.inside hpos hle
    exact ⟨-1, st'', hrun.trans hfinish, hkept, fun hcode => absurd rfl hcode⟩

/-- So does a call from any state, since it first finds its place. -/
theorem call_kept (c : Command) (hinside : Inside st) (hargc : 1 ≤ st.argv.length) :
    ∃ code st', c.call st.argv.length st = .ok (code, st') ∧ Kept st.argv st' ∧
      (code ≠ -1 → st'.argv = st.argv ∧ ∃ m < load none (st.argv.drop 1), Underway st' st.argv.length m) := by
  obtain ⟨st₁, hargv, ⟨n, hn, hplace, hrun⟩ | ⟨hinside₁, hind, hrun⟩⟩ :=
    xgetopt_impl_begin 1 c.only c.optstring c.longopts hinside hargc
  · rw [← hargv] at hplace hrun hn ⊢
    obtain ⟨code, st', hcall, hkept, hmoved⟩ := call_underway c hplace
    rw [Command.call_eq] at hcall ⊢
    refine ⟨code, st', hrun.trans hcall, hkept, fun hcode => ?_⟩
    obtain ⟨hsame, m, hm, hplace'⟩ := hmoved hcode
    exact ⟨hsame, m, hm.trans_le hn, hplace'⟩
  · rw [← hargv] at hind hrun hargc ⊢
    rw [Command.call_eq]
    obtain ⟨st', hfinish, hkept⟩ := finishScan_kept 0 c.only c.optstring c.longopts hinside₁ (hind ▸ hargc) hind.le
    exact ⟨-1, st', hrun.trans hfinish, hkept, fun hcode => absurd rfl hcode⟩

/-- The states that a program with these arguments reaches. Besides the calls it may write to the
public variables at any time. -/
inductive Reached (argv : List Arg) : State → Prop
  | start {st : State} (hargv : st.argv = argv) (hcur : st.xoptcur = none) : Reached argv st
  | write {st st' : State} (h : Reached argv st) (hargv : st'.argv = st.argv) (hcur : st'.xoptcur = st.xoptcur) :
      Reached argv st'
  | call {st st' : State} {code : Int32} (h : Reached argv st) (c : Command)
      (hcall : c.call argv.length st = .ok (code, st')) : Reached argv st'

theorem Reached.holds (h : Reached argv st) (hargc : 1 ≤ argv.length) : Holds argv st := by
  induction h with
  | start hargv hcur =>
    refine ⟨by rw [hargv], by rw [hargv], fun q hq => ?_⟩
    exact absurd (hcur.symm.trans hq) (Option.some_ne_none q).symm
  | write _ hargv hcur ih =>
    refine ⟨by rw [hargv]; exact ih.perm, by rw [hargv]; exact ih.head, fun q hq => ih.inside q ?_⟩
    rw [← hcur, hq]
  | @call st st' code _ c hcall ih =>
    have hlen := ih.perm.length_eq
    obtain ⟨code', st'', hcall', hkept, -⟩ := call_kept c ih.inside (hlen.symm ▸ hargc)
    rw [hlen] at hcall'
    obtain ⟨rfl, rfl⟩ := Prod.mk.inj (Except.ok.inj (hcall.symm.trans hcall'))
    exact ⟨hkept.perm.trans ih.perm, hkept.head.trans ih.head, hkept.inside⟩

/-- The calls of a sequence all return something else than -1. -/
def NeverDone (argc : ℕ) : List Command → State → Prop
  | [], _ => True
  | c :: calls, st => Returns (c.call argc st) fun r => r.1 ≠ -1 ∧ NeverDone argc calls r.2

/-- From some place on there are no more calls than characters and elements ahead. -/
theorem NeverDone.length_le {calls : List Command} {n : ℕ} (h : NeverDone st.argv.length calls st)
    (hplace : Underway st st.argv.length n) : calls.length ≤ n := by
  induction calls generalizing st n with
  | nil => exact Nat.zero_le n
  | cons c calls ih =>
    obtain ⟨code, st', hcall, -, hmoved⟩ := call_underway c hplace
    obtain ⟨r, hr, hcode, hrest⟩ := h
    obtain rfl := Except.ok.inj (hcall.symm.trans hr)
    obtain ⟨hsame, m, hm, hplace'⟩ := hmoved hcode
    rw [← hsame] at hrest hplace'
    have hle := ih hrest hplace'
    rw [List.length_cons]
    omega

theorem load_perm {s s' : List Arg} (h : s.Perm s') : load none s = load none s' := by
  rw [load, load, (h.map _).sum_nat]

theorem Holds.load_eq (h : Holds argv st) : load none (st.argv.drop 1) = load none (argv.drop 1) := by
  obtain ⟨hperm, hhead, -⟩ := h
  cases hst : st.argv with
  | nil => rw [hst, List.nil_perm] at hperm; rw [hperm]
  | cons a t =>
    cases argv with
    | nil => rw [hst] at hhead; cases hhead
    | cons a' t' =>
      rw [hst] at hhead hperm
      obtain rfl := Option.some.inj hhead
      exact load_perm (List.Perm.cons_inv hperm)

/-- Every call comes to its end and leaves the arguments of the program as they are, up to their order
behind the first one. -/
theorem calls_keep_arguments (argv : List Arg) (st : State) (hargc : 1 ≤ argv.length) (h : Reached argv st) :
    (∀ c : Command, Returns (c.call argv.length st) fun r =>
      r.2.argv.Perm argv ∧ r.2.argv[0]? = argv[0]? ∧ 1 ≤ r.2.xoptind ∧ r.2.xoptind ≤ argv.length) ∧
    ∀ calls, NeverDone argv.length calls st → calls.length ≤ load none (argv.drop 1) := by
  have hholds := h.holds hargc
  have hlen := hholds.perm.length_eq
  have hargc' : 1 ≤ st.argv.length := hlen.symm ▸ hargc
  constructor
  · intro c
    obtain ⟨code, st', hcall, hkept, -⟩ := call_kept c hholds.inside hargc'
    rw [hlen] at hcall
    exact ⟨(code, st'), hcall, hkept.perm.trans hholds.perm, hkept.head.trans hholds.head, hkept.pos,
      hkept.le.trans hlen.le⟩
  · intro calls hnever
    cases calls with
    | nil => exact Nat.zero_le _
    | cons c calls =>
      obtain ⟨code, st', hcall, -, hmoved⟩ := call_kept c hholds.inside hargc'
      obtain ⟨r, hr, hcode, hrest⟩ := hnever
      rw [hlen] at hcall
      obtain rfl := Except.ok.inj (hcall.symm.trans hr)
      obtain ⟨hsame, m, hm, hplace⟩ := hmoved hcode
      rw [← hlen, ← hsame] at hrest
      rw [← hsame] at hplace
      have hle := hrest.length_le hplace
      rw [hholds.load_eq] at hm
      rw [List.length_cons]
      omega

theorem calls_keep_arguments_mixed :
    (∀ c : Command, Returns (c.call 6 (started mixedLine)) fun r =>
      r.2.argv.Perm mixedLine ∧ r.2.argv[0]? = mixedLine[0]? ∧ 1 ≤ r.2.xoptind ∧ r.2.xoptind ≤ 6) ∧
    ∀ calls, NeverDone 6 calls (started mixedLine) → calls.length ≤ load none (mixedLine.drop 1) :=
  calls_keep_arguments mixedLine (started mixedLine) (by decide) (.start rfl rfl)

end Calls
end LibXpf.Getopt
