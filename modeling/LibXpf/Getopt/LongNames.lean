import LibXpf.Foundation.Abbreviations
import LibXpf.Foundation.GuardedRuns
import LibXpf.Getopt.FirstScan

/-! # The names of long options

The search of a table goes on behind an abbreviated name and ends at an exact one. So it
finds the option that a given name designates, wherever it stands in the table.
-/
namespace LibXpf.Getopt
open Buffers GuardedRuns Abbreviations

section Search
variable {given : List UInt8} {entries rest : List Xoption} {x : Xoption}

/-- The options of a table that ends with `{0, 0, 0, 0}`, under distinct names. -/
structure Lists (table entries : List Xoption) : Prop where
  ends : ∃ xend tail, table = entries ++ xend :: tail ∧ xend.terminates = true
  before : ∀ x ∈ entries, x.terminates = false
  names : (entries.filterMap Xoption.name).Nodup

/-- In front of an exact hit and of the end the search counts the hits and keeps the last one. -/
theorem matchLong_hits (more : List Xoption) (hbefore : ∀ x ∈ entries, x.terminates = false)
    (hother : ∀ x ∈ entries, x.name ≠ some given) (index : ℕ) (xo : Option (ℕ × Xoption)) (hitcnt : ℕ) :
    matchLong given (entries ++ more) index xo hitcnt =
      matchLong given more (index + entries.length)
        (((hits Xoption.name given entries index).getLast?.map Prod.swap).or xo)
        (hitcnt + (hits Xoption.name given entries index).length) := by
  induction entries generalizing index xo hitcnt with
  | nil => rfl
  | cons x rest ih =>
    have hrest := ih (fun y hy => hbefore y (List.mem_cons_of_mem x hy)) (fun y hy => hother y (List.mem_cons_of_mem x hy))
    rw [List.cons_append, matchLong, hbefore x List.mem_cons_self, if_neg Bool.false_ne_true, hits_cons, abbreviates]
    cases hname : x.name with
    | none =>
      simp only [Option.any_none, Bool.false_eq_true, if_false]
      rw [hrest, List.length_cons, Nat.add_assoc index, Nat.add_comm 1]
    | some name =>
      simp only [Option.any_some]
      by_cases hstarts : given.isPrefixOf name = true
      · have hshort : ¬ given.length = name.length := by
          intro hlen
          have heq := (List.isPrefixOf_iff_prefix.mp hstarts).eq_of_length hlen
          exact hother x List.mem_cons_self (by rw [hname, heq])
        rw [if_pos hstarts, if_neg hshort, if_pos hstarts, hrest, List.getLast?_cons, List.length_cons, List.length_cons]
        have hlast : ((hits Xoption.name given rest (index + 1)).getLast?.map Prod.swap).or (some (index, x)) =
            ((some ((hits Xoption.name given rest (index + 1)).getLast?.getD (x, index))).map Prod.swap).or xo := by
          cases (hits Xoption.name given rest (index + 1)).getLast? <;> rfl
        rw [hlast, Nat.add_assoc index, Nat.add_assoc hitcnt, Nat.add_comm 1, Nat.add_comm 1]
      · rw [if_neg hstarts, if_neg hstarts, hrest, List.length_cons, Nat.add_assoc index, Nat.add_comm 1]

theorem matchLong_exact (more : List Xoption) (hx : x.terminates = false) (hname : x.name = some given) (index : ℕ)
    (xo : Option (ℕ × Xoption)) (hitcnt : ℕ) : matchLong given (x :: more) index xo hitcnt = (some (index, x), 1) := by
  have hprefix : given.isPrefixOf given = true := List.isPrefixOf_iff_prefix.mpr (List.prefix_refl given)
  rw [matchLong, hx, if_neg Bool.false_ne_true, hname]
  simp only
  rw [if_pos hprefix, if_pos trivial]

/-- What the hits of a search mean. -/
def resolution : Option (ℕ × Xoption) × ℕ → Resolution
  | (none, _) => .unrecognized
  | (some (index, xo), hitcnt) => if hitcnt > 1 then .ambiguous else .selected index xo

/-- Without an exact hit the search selects the only hit. -/
theorem resolution_hits (hs : List (Xoption × ℕ)) (i : ℕ) (xo : Xoption) :
    resolution ((hs.getLast?.map Prod.swap).or none, 0 + hs.length) = .selected i xo ↔ hs = [(xo, i)] := by
  match hs with
  | [] => simp [resolution]
  | [(y, j)] => simp [resolution, and_comm]
  | p :: q :: hs => simp [resolution, List.getLast?_cons]

theorem matchLong_selected_iff {table : List Xoption} (htable : Lists table entries) (i : ℕ) (xo : Xoption) :
    resolution (matchLong given table 0 none 0) = .selected i xo ↔
      entries[i]? = some xo ∧ Designates Xoption.name given entries xo := by
  obtain ⟨⟨xend, tail, rfl, hend⟩, hbefore, hnames⟩ := htable
  by_cases hexact : ∃ x ∈ entries, x.name = some given
  · obtain ⟨pre, x, post, rfl, hx, hpre⟩ : ∃ pre x post, entries = pre ++ x :: post ∧ x.name = some given ∧
        ∀ y ∈ pre, y.name ≠ some given := by
      obtain ⟨y, hy, hname⟩ := hexact
      have hfound : (entries.find? fun z => z.name = some given).isSome = true :=
        List.find?_isSome.mpr ⟨y, hy, decide_eq_true hname⟩
      obtain ⟨x, hx⟩ := Option.isSome_iff_exists.mp hfound
      obtain ⟨hname, pre, post, heq, hpre⟩ := List.find?_eq_some_iff_append.mp hx
      exact ⟨pre, x, post, heq, of_decide_eq_true hname, fun z hz => by simpa using hpre z hz⟩
    have hplace : (pre ++ x :: post)[pre.length]? = some x := by simp
    rw [List.append_assoc, matchLong_hits _ (fun y hy => hbefore y (List.mem_append_left _ hy)) hpre, List.cons_append,
      matchLong_exact _ (hbefore x (by simp)) hx, Nat.zero_add, resolution]
    constructor
    · intro h
      obtain ⟨rfl, rfl⟩ : pre.length = i ∧ x = xo := by simpa using h
      exact ⟨hplace, List.mem_of_getElem? hplace, .inl hx⟩
    · rintro ⟨hi, -, hname | ⟨hother, -⟩⟩
      · obtain rfl := place_unique hnames hi hplace hname hx
        obtain rfl := Option.some.inj (hi.symm.trans hplace)
        exact if_neg (lt_irrefl 1)
      · exact absurd hx (hother x (List.mem_of_getElem? hplace))
  · have hother : ∀ x ∈ entries, x.name ≠ some given := fun x hx hname => hexact ⟨x, hx, hname⟩
    rw [matchLong_hits _ hbefore hother, matchLong, if_pos hend, resolution_hits, hits_eq_singleton_iff hnames]
    constructor
    · rintro ⟨hi, hstarts, honly⟩
      exact ⟨hi, List.mem_of_getElem? hi, .inr ⟨hother, hstarts, honly⟩⟩
    · rintro ⟨hi, -, hname | ⟨-, hstarts, honly⟩⟩
      · exact absurd hname (hother xo (List.mem_of_getElem? hi))
      · exact ⟨hi, hstarts, honly⟩

end Search

section Spelling
variable {e : Arg} {name : List UInt8}

/-- The element gives the name of a long option, perhaps with a value. -/
def Spells (e : Arg) (name : List UInt8) : Prop :=
  ascii '=' ∉ name ∧
    (e.text = chars "--" ++ name ∧ name ≠ [] ∨ ∃ value, e.text = chars "--" ++ name ++ ascii '=' :: value)

theorem Spells.text (h : Spells e name) :
    ∃ more, e.text = chars "--" ++ (name ++ more) ∧ name ++ more ≠ [] ∧ ∀ c ∈ more.head?, c = ascii '=' := by
  obtain ⟨-, ⟨htext, hname⟩ | ⟨value, htext⟩⟩ := h
  · exact ⟨[], by rw [htext, List.append_nil], by rw [List.append_nil]; exact hname, fun c hc => by simp at hc⟩
  · refine ⟨ascii '=' :: value, by rw [htext, List.append_assoc], by simp, fun c hc => ?_⟩
    simpa using hc.symm

theorem Spells.option (h : Spells e name) : ¬ e.plain ∧ ¬ e.dashes := by
  obtain ⟨more, htext, hne, -⟩ := h.text
  have htext' : e.text = ascii '-' :: ascii '-' :: (name ++ more) := htext
  constructor
  · rw [Arg.plain, htext']
    exact not_not.mpr rfl
  · rintro (hdash | hdashes)
    · rw [htext'] at hdash
      exact absurd (congrArg List.length hdash) (by simp [chars])
    · rw [htext'] at hdashes
      exact hne (by simpa [chars] using hdashes)

theorem Spells.resolve_eq (h : Spells e name) (table : List Xoption) :
    resolve (some table) false e.text = resolution (matchLong name table 0 none 0) := by
  obtain ⟨more, htext, -, hmore⟩ := h.text
  have htext' : e.text = ascii '-' :: ascii '-' :: (name ++ more) := htext
  have hone : charAt e.text 1 = ascii '-' := by rw [htext']; rfl
  have hstart : start e.text = 2 := if_pos hone
  have hgiven : (e.text.drop 2).takeWhile (· ≠ ascii '=') = name := by
    have hname : ∀ c ∈ name, decide (c ≠ ascii '=') = true := by
      intro c hc
      exact decide_eq_true (fun heq => h.1 (heq ▸ hc))
    rw [htext', List.drop_succ_cons, List.drop_succ_cons, List.drop_zero, List.takeWhile_append_of_pos hname]
    cases more with
    | nil => exact List.append_nil name
    | cons c more =>
      obtain rfl := hmore c rfl
      rw [List.takeWhile_cons_of_neg (by simp), List.append_nil]
  simp only [resolve, hstart, hgiven, hone]
  rw [if_neg (fun hshort => hshort.1 rfl)]
  obtain ⟨xo, hitcnt⟩ := matchLong name table 0 none 0
  cases xo with
  | none => rfl
  | some xo => rfl

theorem Spells.resolve_ne_short (h : Spells e name) {table : List Xoption} : resolve (some table) false e.text ≠ .short := by
  rw [h.resolve_eq]
  obtain ⟨xo, hitcnt⟩ := matchLong name table 0 none 0
  cases xo with
  | none => exact Resolution.noConfusion
  | some xo =>
    rw [resolution]
    split
    · exact Resolution.noConfusion
    · exact Resolution.noConfusion

end Spelling

section Examination
variable {mode : Mode} {program : List UInt8} {st : State} {argc : ℕ} {e : Arg} {skipped rest : List Arg} {only : Bool}
  {optstring : Option (List UInt8)} {longopts : Option (List Xoption)}

/-- The element at which a call starts. -/
def State.first (st : State) : ℕ := if st.xoptreset ≠ 0 then 1 else max st.xoptind 1

/-- A call examines an element from its start: it starts there, or skips the operands in front of it. -/
structure Examines (mode : Mode) (st : State) (argc : ℕ) (skipped : List Arg) (e : Arg) (rest : List Arg) : Prop where
  bound : argc ≤ st.argv.length
  ahead : (st.argv.take argc).drop st.first = skipped ++ e :: rest
  operands : ∀ x ∈ skipped, mode.permute = true ∧ x.plain
  start : st.xoptreset ≠ 0 ∨ ∀ x ∈ (skipped ++ [e]).head?, st.xoptcur.filter (inRange x) = none

/-- The state in which the element at an index is examined. -/
def State.examining (st : State) (i : ℕ) : State :=
  { st with xoptreset := 0, xoptcur := none, xoptind := i, xoptarg := none,
            xoptopt := if st.xoptreset ≠ 0 then 0 else st.xoptopt }

theorem parseHead_argofone {mode : Mode} {l : List UInt8} (h : mode.permute = true → mode.argofone = false) :
    (parseHead mode l).permute = true → (parseHead mode l).argofone = false := by
  induction l generalizing mode with
  | nil => exact h
  | cons p rest ih =>
    rw [parseHead]
    split
    · exact ih (fun hpermute => absurd hpermute Bool.false_ne_true)
    · split
      · exact ih h
      · exact h

/-- The loop over the elements skips operands if it permutes. -/
theorem scanLoop_skipped (fuel : ℕ) (hahead : upcoming st argc = skipped ++ e :: rest) (hcur : st.xoptcur = none)
    (hargofone : mode.permute = true → mode.argofone = false) (hskipped : ∀ x ∈ skipped, mode.permute = true ∧ x.plain) :
    scanLoop mode argc program longopts only (fuel + skipped.length) st =
      scanLoop mode argc program longopts only fuel { st with xoptind := st.xoptind + skipped.length } := by
  induction skipped generalizing st with
  | nil => rfl
  | cons x skipped ih =>
    obtain ⟨hpermute, hplain⟩ := hskipped x List.mem_cons_self
    let st₁ : State := { st with xoptind := st.xoptind + 1 }
    have hnext : upcoming st₁ argc = skipped ++ e :: rest := (upcoming_cons hahead).2.2
    rw [List.length_cons, ← Nat.add_assoc, scanLoop_plain hahead hcur hplain (hargofone hpermute), if_pos hpermute]
    refine (ih hnext hcur fun y hy => hskipped y (List.mem_cons_of_mem x hy)).trans ?_
    simp only [st₁, Nat.add_assoc, Nat.add_comm 1]

/-- A call that examines an element runs the loop from there. -/
theorem Examines.loop_of_scanning (depth : ℕ) (only : Bool) (longopts : Option (List Xoption)) {path : Arg}
    (hreset : st.xoptreset = 0) (h : Examines (modeOf (optstring.getD [])) st argc skipped e rest) (hpath : st.argv[0]? = some path) :
    ∃ fuel, xgetopt_impl (depth + 1) only optstring longopts argc st =
      scanLoop (modeOf (optstring.getD [])) argc (progname path.text) longopts only (fuel + 1)
          (st.examining (st.first + skipped.length)) >>=
        conclude (finishScan (fun pstr x => xgetopt_impl depth only (some pstr) x) (modeOf (optstring.getD []))
          longopts argc) := by
  have hfirst : st.first = max st.xoptind 1 := if_neg (not_not.mpr hreset)
  obtain ⟨x, more, hhead, hstart⟩ : ∃ x more, skipped ++ e :: rest = x :: more ∧ st.xoptcur.filter (inRange x) = none := by
    have hnone := h.start.resolve_left (not_not.mpr hreset)
    cases hskipped : skipped with
    | nil =>
      rw [hskipped] at hnone
      exact ⟨e, rest, rfl, hnone e rfl⟩
    | cons x skipped =>
      rw [hskipped] at hnone
      exact ⟨x, skipped ++ e :: rest, rfl, hnone x rfl⟩
  let st₁ : State := { st with xoptind := max st.xoptind 1, xoptarg := none, xoptcur := none }
  have hahead : upcoming st₁ argc = skipped ++ e :: rest := by
    rw [← h.ahead, hfirst]
    rfl
  obtain ⟨hlt, hread, -⟩ := upcoming_cons (hahead.trans hhead)
  have hzero : 0 < st.argv.length := (Nat.zero_lt_of_lt hlt).trans_le h.bound
  have hpath' : st.argv[0] = path := by
    rw [List.getElem?_eq_getElem hzero] at hpath
    exact Option.some.inj hpath
  have hfuel : argc - max st.xoptind 1 + 1 = rest.length + 1 + 1 + skipped.length := by
    have hlen := congrArg List.length h.ahead
    rw [hfirst, List.length_drop, List.length_take, Nat.min_eq_left h.bound, List.length_append, List.length_cons] at hlen
    omega
  refine ⟨rest.length + 1, ?_⟩
  rw [xgetopt_impl_loop depth only optstring longopts hreset hzero hlt hread, hpath', hstart, hfuel]
  refine congrArg (· >>= _) ((scanLoop_skipped _ hahead rfl ?_ h.operands).trans ?_)
  · exact parseHead_argofone (fun _ => rfl)
  · rw [State.examining, hfirst, if_neg (not_not.mpr hreset), ← hreset]

/-- Where the scanner is told to start again, it does so first. -/
theorem Examines.loop (depth : ℕ) (only : Bool) (longopts : Option (List Xoption)) {path : Arg}
    (h : Examines (modeOf (optstring.getD [])) st argc skipped e rest) (hpath : st.argv[0]? = some path) :
    ∃ fuel, xgetopt_impl (depth + 1) only optstring longopts argc st =
      scanLoop (modeOf (optstring.getD [])) argc (progname path.text) longopts only (fuel + 1)
          (st.examining (st.first + skipped.length)) >>=
        conclude (finishScan (fun pstr x => xgetopt_impl depth only (some pstr) x) (modeOf (optstring.getD []))
          longopts argc) := by
  by_cases hreset : st.xoptreset = 0
  · exact h.loop_of_scanning depth only longopts hreset hpath
  · let begun : State := { st with xoptreset := 0, xoptcur := none, xoptind := 1, xoptarg := none, xoptopt := 0 }
    have hfirst : st.first = 1 := if_pos hreset
    have hbegun : Examines (modeOf (optstring.getD [])) begun argc skipped e rest :=
      ⟨h.bound, by rw [← h.ahead, hfirst]; rfl, h.operands, .inr fun x _ => rfl⟩
    obtain ⟨fuel, hrun⟩ := hbegun.loop_of_scanning depth only longopts rfl hpath
    have hsame : st.examining (st.first + skipped.length) = begun.examining (begun.first + skipped.length) := by
      rw [hfirst, State.examining, if_pos hreset]
      rfl
    exact ⟨fuel, (xgetopt_impl_reset hreset).trans (hsame ▸ hrun)⟩

theorem Examines.upcoming (h : Examines mode st argc skipped e rest) :
    upcoming (st.examining (st.first + skipped.length)) argc = e :: rest := by
  change (st.argv.take argc).drop (st.first + skipped.length) = e :: rest
  rw [← List.drop_drop, h.ahead, List.drop_left]

theorem Examines.path (h : Examines mode st argc skipped e rest) : ∃ path, st.argv[0]? = some path := by
  have hlt := (upcoming_cons h.upcoming).1
  exact ⟨_, List.getElem?_eq_getElem ((Nat.zero_lt_of_lt hlt).trans_le h.bound)⟩

end Examination

section LongOption
variable {st : State} {argc : ℕ} {e : Arg} {skipped rest : List Arg} {optstring : Option (List UInt8)}
  {table entries : List Xoption} {name : List UInt8}

/-- An option that is selected is delivered, and its argument is looked for. -/
theorem selected_call {path : Arg} (hname : Spells e name) {i : ℕ} {xo : Xoption}
    (hselected : resolve (some table) false e.text = .selected i xo)
    (h : Examines (modeOf (optstring.getD [])) st argc skipped e rest) (hpath : st.argv[0]? = some path) :
    (Command.xgetopt_long optstring (some table)).call argc st =
      longArgument (modeOf (optstring.getD [])) argc (progname path.text) e xo (start e.text)
        { st.examining (st.first + skipped.length) with longindex := st.longindex.map fun _ => Int32.ofNat i } := by
  obtain ⟨fuel, hrun⟩ := h.loop 1 false (some table) hpath
  obtain ⟨hlt, hread, -⟩ := upcoming_cons h.upcoming
  obtain ⟨hplain, hdashes⟩ := hname.option
  have hlong : longOption (modeOf (optstring.getD [])) argc (progname path.text) (some table) false e
      (st.examining (st.first + skipped.length)) =
      longArgument (modeOf (optstring.getD [])) argc (progname path.text) e xo (start e.text)
        { st.examining (st.first + skipped.length) with longindex := st.longindex.map fun _ => Int32.ofNat i } >>=
        fun reply => Except.ok (some reply) := by
    rw [longOption, if_neg (not_not.mpr (show (st.examining (st.first + skipped.length)).xoptcur = none from rfl)), hselected]
    rfl
  rw [Command.call, hrun, scanLoop, if_pos hlt, hread, ok_bind, if_neg (fun hp => hplain hp.2),
    if_neg (fun hd => hdashes hd.2), hlong]
  generalize longArgument (modeOf (optstring.getD [])) argc (progname path.text) e xo (start e.text) _ = reply
  cases reply with
  | error fault => rfl
  | ok reply => rfl

/-- Without a selected option the call passes the element. -/
theorem unselected_call (hname : Spells e name) (hnone : ∀ i xo, resolve (some table) false e.text ≠ .selected i xo)
    (h : Examines (modeOf (optstring.getD [])) st argc skipped e rest) :
    Returns ((Command.xgetopt_long optstring (some table)).call argc st) fun r =>
      r.1 = questionMark ∧ r.2.xoptind = st.first + skipped.length + 1 := by
  obtain ⟨path, hpath⟩ := h.path
  obtain ⟨fuel, hrun⟩ := h.loop 1 false (some table) hpath
  obtain ⟨hplain, hdashes⟩ := hname.option
  have hbound : argc ≤ (st.examining (st.first + skipped.length)).argv.length := h.bound
  obtain ⟨st', hloop, hreplied⟩ := scanLoop_option hbound h.upcoming rfl hplain hdashes
  have hreply : ((modeOf (optstring.getD [])).options (some table) false).reply e rest = (questionMark, some 0) := by
    have hlong : ((modeOf (optstring.getD [])).options (some table) false).longReply e rest = some (questionMark, 0) := by
      rw [Options.longReply, Mode.options]
      simp only
      cases hresolve : resolve (some table) false e.text with
      | short => exact absurd hresolve hname.resolve_ne_short
      | unrecognized => rfl
      | ambiguous => rfl
      | selected i xo => exact absurd hresolve (hnone i xo)
    rw [Options.reply, hlong]
  rw [hreply] at hloop hreplied
  refine ⟨(questionMark, st'), ?_, rfl, hreplied.xoptind⟩
  rw [Command.call, hrun, hloop]
  rfl

/-- A call that examines a long option selects the entry that its name designates, whatever the order of the
table is. Without one it returns `?` behind the element. -/
theorem long_option_resolved (optstring : Option (List UInt8)) (table entries : List Xoption) (st : State) (argc : ℕ)
    (skipped rest : List Arg) (e : Arg) (name : List UInt8) (htable : Lists table entries) (hname : Spells e name)
    (h : Examines (modeOf (optstring.getD [])) st argc skipped e rest) :
    (∀ i xo, resolve (some table) false e.text = .selected i xo ↔
      entries[i]? = some xo ∧ Designates Xoption.name name entries xo) ∧
    (∀ i xo path, resolve (some table) false e.text = .selected i xo → st.argv[0]? = some path →
      (Command.xgetopt_long optstring (some table)).call argc st =
        longArgument (modeOf (optstring.getD [])) argc (progname path.text) e xo (start e.text)
          { st.examining (st.first + skipped.length) with longindex := st.longindex.map fun _ => Int32.ofNat i }) ∧
    ((∀ xo, ¬ Designates Xoption.name name entries xo) →
      Returns ((Command.xgetopt_long optstring (some table)).call argc st) fun r =>
        r.1 = questionMark ∧ r.2.xoptind = st.first + skipped.length + 1) ∧
    ∀ table' entries', Lists table' entries' → entries'.Perm entries → ∀ xo,
      (∃ i, resolve (some table') false e.text = .selected i xo) ↔ ∃ i, resolve (some table) false e.text = .selected i xo := by
  have hiff : ∀ table entries, Lists table entries → ∀ i xo, resolve (some table) false e.text = .selected i xo ↔
      entries[i]? = some xo ∧ Designates Xoption.name name entries xo := by
    intro table entries htable i xo
    rw [hname.resolve_eq, matchLong_selected_iff htable]
  refine ⟨hiff table entries htable, fun i xo path hselected hpath => selected_call hname hselected h hpath,
    fun hnone => unselected_call hname ?_ h, fun table' entries' htable' hperm xo => ?_⟩
  · intro i xo hselected
    exact hnone xo ((hiff table entries htable i xo).mp hselected).2
  · constructor
    · rintro ⟨i, hi⟩
      have hxo := (designates_perm hperm).mp ((hiff table' entries' htable' i xo).mp hi).2
      obtain ⟨j, hj⟩ := List.getElem?_of_mem hxo.1
      exact ⟨j, (hiff table entries htable j xo).mpr ⟨hj, hxo⟩⟩
    · rintro ⟨i, hi⟩
      have hxo := (designates_perm hperm).mpr ((hiff table entries htable i xo).mp hi).2
      obtain ⟨j, hj⟩ := List.getElem?_of_mem hxo.1
      exact ⟨j, (hiff table' entries' htable' j xo).mpr ⟨hj, hxo⟩⟩

def nestedNames : List Xoption :=
  [⟨some (chars "verbose"), 0, none, 2⟩, ⟨none, 1, none, 0⟩, ⟨some (chars "verb"), 1, none, 3⟩]

def nestedLine : List Arg := commandLine ["prog", "x", "--verb=1"] (by decide)

theorem long_option_resolved_nested :
    (∀ i xo, resolve (some (nestedNames ++ [⟨none, 0, none, 0⟩])) false (chars "--verb=1") = .selected i xo ↔
      nestedNames[i]? = some xo ∧ Designates Xoption.name (chars "verb") nestedNames xo) ∧
    (∀ i xo path, resolve (some (nestedNames ++ [⟨none, 0, none, 0⟩])) false (chars "--verb=1") = .selected i xo →
      nestedLine[0]? = some path →
      (Command.xgetopt_long none (some (nestedNames ++ [⟨none, 0, none, 0⟩]))).call 3 (started nestedLine) =
        longArgument (modeOf []) 3 (progname path.text) nestedLine[2] xo 2
          { (started nestedLine).examining 2 with longindex := none }) ∧
    ((∀ xo, ¬ Designates Xoption.name (chars "verb") nestedNames xo) →
      Returns ((Command.xgetopt_long none (some (nestedNames ++ [⟨none, 0, none, 0⟩]))).call 3 (started nestedLine)) fun r =>
        r.1 = questionMark ∧ r.2.xoptind = 3) ∧
    ∀ table' entries', Lists table' entries' → entries'.Perm nestedNames → ∀ xo,
      (∃ i, resolve (some table') false (chars "--verb=1") = .selected i xo) ↔
        ∃ i, resolve (some (nestedNames ++ [⟨none, 0, none, 0⟩])) false (chars "--verb=1") = .selected i xo :=
  long_option_resolved none (nestedNames ++ [⟨none, 0, none, 0⟩]) nestedNames (started nestedLine) 3 [nestedLine[1]] []
    nestedLine[2] (chars "verb") ⟨⟨⟨none, 0, none, 0⟩, [], rfl, rfl⟩, by decide, by decide⟩
    ⟨by decide, .inr ⟨chars "1", by decide⟩⟩ ⟨by decide, by decide, by decide, .inr fun x _ => rfl⟩

end LongOption
end LibXpf.Getopt
