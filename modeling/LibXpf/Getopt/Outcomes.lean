import LibXpf.Getopt.Calls

/-! # The course of a scan

A scan in progress has the elements from `xoptind` on ahead of it. A call at an option
passes it, stops behind it or within it, or stays within it.
-/
namespace LibXpf.Getopt
open Buffers

section States

/-- A scan in progress: the elements from `xoptind` on are `s`. -/
structure Scanning (st : State) (argc : ℕ) (s : List Arg) : Prop where
  bound : argc ≤ st.argv.length
  pos : 1 ≤ st.xoptind
  le : st.xoptind ≤ argc
  xoptreset : st.xoptreset = 0
  upcoming : upcoming st argc = s

/-- The scan is at the start of an element, or at a character within it. -/
def Pointing (st : State) (s : List Arg) : Option ℕ → Prop
  | none => st.xoptcur = none
  | some offset => ∃ e rest, s = e :: rest ∧ st.xoptcur = some ⟨e.buffer, offset⟩ ∧ 0 < offset ∧
      offset < e.text.length

variable {st st' : State} {argc : ℕ} {e : Arg} {rest s : List Arg}

theorem scanning_at (hpos : 1 ≤ st.xoptind) (hle : st.xoptind ≤ st.argv.length) (hreset : st.xoptreset = 0) :
    Scanning st st.argv.length (st.argv.drop st.xoptind) :=
  ⟨le_rfl, hpos, hle, hreset, by rw [Getopt.upcoming, List.take_length]⟩

theorem Scanning.lt (h : Scanning st argc (e :: rest)) : st.xoptind < argc := (upcoming_cons h.upcoming).1

theorem Scanning.end_iff (h : Scanning st argc s) : s = [] ↔ st.xoptind = argc := by
  have hnil : LibXpf.Getopt.upcoming st argc = [] ↔ argc ≤ st.xoptind := upcoming_nil_iff h.bound
  have hle := h.le
  rw [h.upcoming] at hnil
  rw [hnil]
  omega

theorem Pointing.advanced {offset : Option ℕ} {ind : ℕ} (h : Pointing st s offset)
    (hadv : Advanced st st' ind st.xoptcur) : Pointing st' s offset := by
  cases offset with
  | none => exact hadv.xoptcur.trans h
  | some offset =>
    obtain ⟨e, rest, hs, hcur, hpos, hlen⟩ := h
    exact ⟨e, rest, hs, hadv.xoptcur.trans hcur, hpos, hlen⟩

theorem Scanning.advance (h : Scanning st argc (e :: rest)) {k : ℕ} {cur : Option Ptr}
    (hk : k ≤ rest.length) (hadv : Advanced st st' (st.xoptind + 1 + k) cur) :
    Scanning st' argc (rest.drop k) := by
  have hrest := (upcoming_cons h.upcoming).2.2
  have hlt := h.lt
  have hlen : rest.length = argc - (st.xoptind + 1) := by
    rw [← hrest, List.length_drop, List.length_take, Nat.min_eq_left h.bound]
  constructor
  · rw [hadv.argv]
    exact h.bound
  · rw [hadv.xoptind]
    omega
  · rw [hadv.xoptind]
    omega
  · rw [hadv.xoptreset, h.xoptreset]
  · rw [LibXpf.Getopt.upcoming, hadv.argv, hadv.xoptind, ← hrest, List.drop_drop]

theorem Scanning.stay (h : Scanning st argc s) {cur : Option Ptr} (hadv : Advanced st st' st.xoptind cur) :
    Scanning st' argc s := by
  constructor
  · rw [hadv.argv]
    exact h.bound
  · rw [hadv.xoptind]
    exact h.pos
  · rw [hadv.xoptind]
    exact h.le
  · rw [hadv.xoptreset, h.xoptreset]
  · rw [← h.upcoming, LibXpf.Getopt.upcoming, hadv.argv, hadv.xoptind, LibXpf.Getopt.upcoming]

theorem rotate_length {argv : List Arg} {i argc : ℕ} (hi : i < argc) (hargc : argc ≤ argv.length) :
    (rotate argv i argc).length = argv.length := by
  simp only [rotate, List.length_append, List.length_take, List.length_drop]
  omega

theorem rotate_take {argv : List Arg} {i argc : ℕ} (hi : i < argc) (hargc : argc ≤ argv.length) :
    (rotate argv i argc).take (argc - 1) = argv.take i ++ (argv.take argc).drop (i + 1) := by
  rw [rotate]
  apply List.take_left'
  simp only [List.length_append, List.length_take, List.length_drop]
  omega

/-- The state after the element at `xoptind` has been detached. -/
def State.detach (st : State) (argc : ℕ) : State :=
  { st with argv := rotate st.argv st.xoptind argc, xoptcur := none }

theorem Scanning.detach (h : Scanning st argc (e :: rest)) : Scanning (st.detach argc) (argc - 1) rest := by
  have hrest := (upcoming_cons h.upcoming).2.2
  have hlt := h.lt
  have hbound := h.bound
  constructor
  · rw [State.detach, rotate_length hlt hbound]
    omega
  · exact h.pos
  · change st.xoptind ≤ argc - 1
    omega
  · exact h.xoptreset
  · rw [← hrest]
    change ((rotate st.argv st.xoptind argc).take (argc - 1)).drop st.xoptind = _
    have htake : (st.argv.take st.xoptind).length = st.xoptind := by
      rw [List.length_take]
      omega
    rw [rotate_take hlt hbound, List.drop_left' htake]

/-- A call in front of the end of `argv` runs the loop over the elements. -/
theorem xgetopt_impl_loop (depth : ℕ) (only : Bool) (optstring : Option (List UInt8)) (longopts : Option (List Xoption))
    (hreset : st.xoptreset = 0) (hzero : 0 < st.argv.length) (hlt : max st.xoptind 1 < argc)
    (hread : read Fault.outOfBounds st.argv (max st.xoptind 1) = .ok e) :
    xgetopt_impl (depth + 1) only optstring longopts argc st =
      scanLoop (modeOf (optstring.getD [])) argc (progname st.argv[0].text) longopts only (argc - max st.xoptind 1 + 1)
          { st with xoptind := max st.xoptind 1, xoptarg := none, xoptcur := st.xoptcur.filter (inRange e) } >>=
        conclude (finishScan (fun pstr x => xgetopt_impl depth only (some pstr) x) (modeOf (optstring.getD []))
          longopts argc) := by
  rw [xgetopt_impl, read_lt hzero, ok_bind, if_neg (not_not.mpr hreset)]
  simp only
  rw [if_neg (Nat.not_le.mpr hlt), hread, ok_bind]

/-- A call that is not the first one of a scan goes on where the scan is. -/
theorem xgetopt_impl_scan (depth : ℕ) {only : Bool} {optstring : Option (List UInt8)}
    {longopts : Option (List Xoption)} (h : Scanning st argc (e :: rest)) {offset : Option ℕ}
    (hpoint : Pointing st (e :: rest) offset) :
    ∃ st₁ program, Advanced st st₁ st.xoptind st.xoptcur ∧
      xgetopt_impl (depth + 1) only optstring longopts argc st =
        scanLoop (modeOf (optstring.getD [])) argc program longopts only (argc - st.xoptind + 1) st₁ >>=
          conclude (finishScan (fun pstr x => xgetopt_impl depth only (some pstr) x) (modeOf (optstring.getD []))
            longopts argc) := by
  obtain ⟨hlt, hread, -⟩ := upcoming_cons h.upcoming
  have hpos := h.pos
  have hbound := h.bound
  have hzero : 0 < st.argv.length := by omega
  have hcur : st.xoptcur.filter (inRange e) = st.xoptcur := by
    cases offset with
    | none =>
      rw [Pointing] at hpoint
      rw [hpoint]
      rfl
    | some offset =>
      obtain ⟨e', rest', hs, hcur, -, hlen⟩ := hpoint
      obtain ⟨rfl, -⟩ := List.cons.inj hs
      rw [hcur, Option.filter_some, if_pos]
      simp only [inRange, decide_true, Bool.true_and, decide_eq_true_eq]
      exact hlen
  have hmax : max st.xoptind 1 = st.xoptind := max_eq_left hpos
  have hloop := xgetopt_impl_loop depth only optstring longopts h.xoptreset hzero (hmax.trans_lt hlt)
    (hmax.symm ▸ hread)
  rw [show argc - max st.xoptind 1 = argc - st.xoptind by rw [hmax]] at hloop
  exact ⟨{ st with xoptind := max st.xoptind 1, xoptarg := none, xoptcur := st.xoptcur.filter (inRange e) },
    progname st.argv[0].text, ⟨hmax, hcur, rfl, rfl⟩, hloop⟩

theorem xgetopt_impl_end {depth : ℕ} {only : Bool} {optstring : Option (List UInt8)}
    {longopts : Option (List Xoption)} (h : Scanning st argc []) :
    ∃ st₁, Advanced st st₁ argc st.xoptcur ∧ xgetopt_impl (depth + 1) only optstring longopts argc st =
      finishScan (fun pstr x => xgetopt_impl depth only (some pstr) x) (modeOf (optstring.getD [])) longopts argc st₁ := by
  have hind := h.end_iff.mp rfl
  have hpos := h.pos
  have hbound := h.bound
  have hzero : 0 < st.argv.length := by omega
  refine ⟨{ st with xoptind := argc, xoptarg := none }, ⟨rfl, rfl, rfl, rfl⟩, ?_⟩
  rw [xgetopt_impl, read_lt hzero, ok_bind, if_neg (not_not.mpr h.xoptreset)]
  simp only [max_eq_left hpos]
  rw [if_pos hind.ge]

end States

section Replies
variable {o : Options} {e : Arg} {rest : List Arg}

theorem longReply_le {code : Int32} {k : ℕ} (h : o.longReply e rest = some (code, k)) : k ≤ rest.length := by
  rw [Options.longReply] at h
  split at h
  · simp at h
  · simp only [Option.some.injEq, Prod.mk.injEq] at h
    omega
  · simp only [Option.some.injEq, Prod.mk.injEq] at h
    omega
  · have hanswer : (o.longAnswer _ _ rest).2 = k := congrArg Prod.snd (Option.some.inj h)
    rw [← hanswer]
    unfold Options.longAnswer
    split_ifs
    · exact Nat.zero_le _
    · exact Nat.zero_le _
    · cases rest with
      | nil => exact Nat.zero_le _
      | cons a rest => simp
    · exact Nat.zero_le _

theorem shortReply_le {p : UInt8} {more : List UInt8} {k : ℕ} (h : (o.shortReply p more rest).2 = some k) :
    k ≤ rest.length := by
  rw [Options.shortReply] at h
  unfold replyAt at h
  cases rest <;> grind

/-- A reply that stays within the element leaves characters of it. -/
theorem shortReply_within {p : UInt8} {more : List UInt8} (h : (o.shortReply p more rest).2 = none) :
    more ≠ [] := by
  rw [Options.shortReply] at h
  unfold replyAt at h
  cases rest <;> grind

end Replies

section Outcomes
variable {o : Options} {st st' : State} {argc : ℕ} {e : Arg} {rest s : List Arg} {depth : ℕ} {only : Bool}
  {optstring : Option (List UInt8)} {longopts : Option (List Xoption)}

/-- The characters and elements that a scan has ahead of it. -/
def load (offset : Option ℕ) (s : List Arg) : ℕ := (s.map fun e => e.text.length + 1).sum - offset.getD 0

theorem load_cons (offset : Option ℕ) : load offset (e :: rest) = e.text.length + 1 + load none rest - offset.getD 0 := by
  rw [load, List.map_cons, List.sum_cons, load, Option.getD_none, Nat.sub_zero]

theorem load_drop (k : ℕ) (s : List Arg) : load none (s.drop k) ≤ load none s := by
  simp only [load, Option.getD_none, Nat.sub_zero]
  conv_rhs => rw [← List.take_append_drop k s, List.map_append, List.sum_append]
  exact Nat.le_add_left _ _

/-- The options that the calls of a scan look for. -/
def scanOptions (only : Bool) (optstring : Option (List UInt8)) (longopts : Option (List Xoption)) : Options :=
  (modeOf (optstring.getD [])).options longopts only

/-- The reply to the characters that are left stays within the element only if there are more. -/
theorem replyFrom_bounds (o : Options) (rest : List Arg) {offset : ℕ} {p : UInt8} {more : List UInt8} (hp : e.text.drop offset = p :: more) :
    ((o.replyFrom (e.text.drop offset) rest).2 = none → offset + 1 < e.text.length) ∧
      ∀ k, (o.replyFrom (e.text.drop offset) rest).2 = some k → k ≤ rest.length := by
  rw [hp, Options.replyFrom]
  refine ⟨fun hnone => ?_, fun k hk => shortReply_le hk⟩
  have hmore := List.length_pos_iff.mpr (shortReply_within hnone)
  have hlen := congrArg List.length hp
  rw [List.length_drop, List.length_cons] at hlen
  omega

theorem reply_bounds (o : Options) (rest : List Arg) {p : UInt8} {more : List UInt8}
    (hp : e.text.drop (start e.text) = p :: more) :
    ((o.reply e rest).2 = none → start e.text + 1 < e.text.length) ∧
      ∀ k, (o.reply e rest).2 = some k → k ≤ rest.length := by
  rw [Options.reply]
  cases hlong : o.longReply e rest with
  | none => exact replyFrom_bounds o rest hp
  | some reply =>
    obtain ⟨code, taken⟩ := reply
    refine ⟨fun h => absurd h (Option.some_ne_none taken), fun k hk => ?_⟩
    obtain rfl : taken = k := Option.some.inj hk
    exact longReply_le hlong

/-- The fate of an element for a scan that is at its start or at a character within it. -/
def Options.fateAt (o : Options) : Option ℕ → Arg → List Arg → Fate
  | none, e, rest => o.fate e rest
  | some offset, e, rest => o.groupFate (e.text.drop offset) rest

/-- What a call at an option comes to, by the code that it returns. -/
inductive Outcome (o : Options) (st' : State) (argc : ℕ) (offset : Option ℕ) (e : Arg) (rest : List Arg) :
    Int32 → Prop
  | passes {code : Int32} {k : ℕ} (hcode : code ≠ -1) (hfate : o.fateAt offset e rest = .passes k)
      (hscan : Scanning st' argc (rest.drop k)) (hcur : st'.xoptcur = none) : Outcome o st' argc offset e rest code
  | stopsPast {k : ℕ} (hfate : o.fateAt offset e rest = .stopsPast k) (hscan : Scanning st' argc (rest.drop k)) :
      Outcome o st' argc offset e rest (-1)
  | stopsWithin (hfate : o.fateAt offset e rest = .stopsWithin) (hscan : Scanning st' argc (e :: rest)) :
      Outcome o st' argc offset e rest (-1)
  | stays {code : Int32} {offset' : ℕ} (hcode : code ≠ -1)
      (hfate : o.fateAt offset e rest = o.fateAt (some offset') e rest) (hscan : Scanning st' argc (e :: rest))
      (hpoint : Pointing st' (e :: rest) (some offset')) (hlt : offset.getD 0 < offset') :
      Outcome o st' argc offset e rest code

/-- What follows from a reply. -/
theorem outcome_reply {offset : Option ℕ} {at' : ℕ} {reply : Int32 × Option ℕ} (h : Scanning st argc (e :: rest))
    (hreplied : Replied st st' e at' reply.2) (hat : offset.getD 0 ≤ at')
    (hbounds : (reply.2 = none → at' + 1 < e.text.length) ∧ ∀ k, reply.2 = some k → k ≤ rest.length)
    (hfate : o.fateAt offset e rest = settle reply (o.groupFate (e.text.drop (at' + 1)) rest)) :
    st'.argv = st.argv ∧ Outcome o st' argc offset e rest reply.1 := by
  obtain ⟨code, past⟩ := reply
  cases past with
  | some k =>
    have hscan : Scanning st' argc (rest.drop k) := h.advance (hbounds.2 k rfl) hreplied
    refine ⟨hreplied.argv, ?_⟩
    by_cases hcode : code = -1
    · subst hcode
      exact .stopsPast (by rw [hfate, settle, if_pos rfl]) hscan
    · exact .passes hcode (by rw [hfate, settle, if_neg hcode]) hscan hreplied.xoptcur
  | none =>
    have hscan : Scanning st' argc (e :: rest) := h.stay hreplied
    refine ⟨hreplied.argv, ?_⟩
    by_cases hcode : code = -1
    · subst hcode
      exact .stopsWithin (by rw [hfate, settle, if_pos rfl]) hscan
    · exact .stays hcode (by rw [hfate, settle, if_neg hcode, Options.fateAt]) hscan
        ⟨e, rest, rfl, hreplied.xoptcur, Nat.succ_pos at', hbounds.1 rfl⟩ (Nat.lt_succ_of_le hat)

/-- The loop over the elements, at an option or within it. -/
theorem scanLoop_reply {mode : Mode} {program : List UInt8} {offset : Option ℕ} {fuel : ℕ}
    (h : Scanning st argc (e :: rest)) (hpoint : Pointing st (e :: rest) offset)
    (hoption : ¬ (offset = none ∧ (e.plain ∨ e.dashes))) :
    ∃ code st', scanLoop mode argc program longopts only (fuel + 1) st = .ok (.returned code st') ∧
      st'.argv = st.argv ∧ Outcome (mode.options longopts only) st' argc offset e rest code := by
  cases offset with
  | none =>
    have hplain : ¬ e.plain := fun hp => hoption ⟨rfl, .inl hp⟩
    have hdashes : ¬ e.dashes := fun hd => hoption ⟨rfl, .inr hd⟩
    obtain ⟨p, more, hp⟩ := option_text hplain hdashes
    obtain ⟨st', hloop, hreplied⟩ := scanLoop_option h.bound h.upcoming hpoint hplain hdashes
    exact ⟨_, st', hloop, outcome_reply h hreplied (Nat.zero_le _) (reply_bounds _ rest hp) rfl⟩
  | some offset =>
    obtain ⟨e', rest', hs, hcur, hpos, hlen⟩ := hpoint
    obtain ⟨rfl, rfl⟩ := List.cons.inj hs
    obtain ⟨st', hloop, hreplied⟩ := scanLoop_within h.bound h.upcoming hcur hlen
    have hp := List.drop_eq_getElem_cons hlen
    refine ⟨_, st', hloop, outcome_reply h hreplied le_rfl (replyFrom_bounds _ rest hp) ?_⟩
    rw [Options.fateAt, hp, Options.groupFate, Options.replyFrom]

theorem load_pos {offset : Option ℕ} (hpoint : Pointing st (e :: rest) offset) :
    load none rest < load offset (e :: rest) := by
  rw [load_cons]
  cases offset with
  | none =>
    rw [Option.getD_none]
    omega
  | some offset =>
    obtain ⟨e', rest', hs, -, -, hlen⟩ := hpoint
    obtain ⟨rfl, -⟩ := List.cons.inj hs
    rw [Option.getD_some]
    omega

theorem load_stays {offset : Option ℕ} {offset' : ℕ} (hlt : offset.getD 0 < offset')
    (hpoint : Pointing st (e :: rest) (some offset')) : load (some offset') (e :: rest) < load offset (e :: rest) := by
  obtain ⟨e', rest', hs, -, -, hlen⟩ := hpoint
  obtain ⟨rfl, -⟩ := List.cons.inj hs
  rw [load_cons, load_cons, Option.getD_some]
  omega

end Outcomes
end LibXpf.Getopt
