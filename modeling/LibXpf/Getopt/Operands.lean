import LibXpf.Getopt.Rescan

/-! # The operands of a command line

The operands are the elements that are not options, not taken as arguments, and not the
terminator; behind the terminator every element is one. The scanner reports them under
an exact condition.
-/
namespace LibXpf.Getopt

section Operands
variable (o : Options)

/-- How many elements the option characters that are left take. -/
def Options.groupTaken : List UInt8 → List Arg → ℕ
  | [], _ => 0
  | p :: more, rest =>
    match (o.shortReply p more rest).2 with
    | some k => k
    | none => groupTaken more rest

/-- How many elements an option takes. -/
def Options.taken (e : Arg) (rest : List Arg) : ℕ :=
  match (o.reply e rest).2 with
  | some k => k
  | none => o.groupTaken (e.text.drop (start e.text + 1)) rest

/-- The operands among some elements, of which the first ones are taken as arguments. -/
def Options.operandsFrom : (skip : ℕ) → List Arg → List Arg
  | _, [] => []
  | skip + 1, _ :: rest => operandsFrom skip rest
  | 0, e :: rest =>
    if e.text = chars "--" then rest
    else if e.plain ∨ e.text = chars "-" then e :: operandsFrom 0 rest
    else operandsFrom (o.taken e rest) rest

/-- The options as the second scan sees them. -/
def Options.clone : Options := ⟨o.optstring, o.longopts.map cloneLongopts, o.only, questionMark⟩

/-- How the first scan ends: by itself, or with -1 for an option and some elements left. -/
inductive Scanned where
  | finished
  | early (left : List Arg)

def Options.firstFrom : (skip : ℕ) → List Arg → Scanned
  | _, [] => .finished
  | skip + 1, _ :: rest => firstFrom skip rest
  | 0, e :: rest =>
    if e.plain then firstFrom 0 rest
    else if e.dashes then .finished
    else
      match o.fate e rest with
      | .passes taken => firstFrom taken rest
      | .stopsPast taken => .early (rest.drop taken)
      | .stopsWithin => .early (e :: rest)

/-- The elements from `xoptind` on after a first scan that has ended so. -/
def Options.ending (args : List Arg) : Scanned → List Arg
  | .finished => o.clone.rescanFrom 0 false args
  | .early left => left

/-- The elements from `xoptind` on at the end of all the calls. -/
def Options.reported (args : List Arg) : List Arg := o.ending args (o.firstFrom 0 args)

/-- The second scan detaches the element when it is at its start. -/
def Options.Detached (e : Arg) : Prop := e.plain ∨ ¬ e.dashes ∧ o.clone.fate e [] = .stopsWithin

/-- No solitary dash is met, and every element behind the one that follows the terminator is detached
by the second scan. An option for which -1 is returned is the last one, and no operand is before it. -/
def Options.Regular : (skip : ℕ) → (seen : Bool) → List Arg → Prop
  | _, _, [] => True
  | skip + 1, seen, _ :: rest => Regular skip seen rest
  | 0, seen, e :: rest =>
    if e.plain then Regular 0 true rest
    else if e.text = chars "-" then False
    else if e.text = chars "--" then ∀ x ∈ rest.tail, o.Detached x
    else
      match o.fate e rest with
      | .passes taken => Regular taken seen rest
      | .stopsPast taken => seen = false ∧ ∀ x ∈ rest.drop taken, x.plain ∨ x.text = chars "-"
      | .stopsWithin => False

end Operands

section Clones
variable {o : Options} {e : Arg} {rest : List Arg}

/-- The copy of an option. -/
def Xoption.clone (x : Xoption) : Xoption := ⟨x.name, x.has_arg, none, 0x5299⟩

/-- The copied table has the same hits. -/
theorem matchLong_clone (given : List UInt8) (table : List Xoption) (index : ℕ) (xo : Option (ℕ × Xoption))
    (hitcnt : ℕ) :
    matchLong given (cloneLongopts table) index (xo.map fun hit => (hit.1, hit.2.clone)) hitcnt =
      (((matchLong given table index xo hitcnt).1.map fun hit => (hit.1, hit.2.clone)),
        (matchLong given table index xo hitcnt).2) := by
  induction table generalizing index xo hitcnt with
  | nil => rfl
  | cons x rest ih =>
    by_cases hend : x.terminates = true
    · have hnil : cloneLongopts (x :: rest) = [] := by
        rw [cloneLongopts, List.takeWhile_cons, if_neg (by rw [hend]; exact Bool.false_ne_true), List.map_nil]
      rw [hnil, matchLong, matchLong, if_pos hend]
    · have hcons : cloneLongopts (x :: rest) = x.clone :: cloneLongopts rest := by
        have hgo : (!x.terminates) = true := by rw [Bool.not_eq_true']; exact Bool.not_eq_true _ ▸ hend
        rw [cloneLongopts, List.takeWhile_cons, if_pos hgo, List.map_cons, cloneLongopts]
        rfl
      have hclone : ¬ x.clone.terminates = true := by
        rw [Xoption.terminates, Xoption.clone]
        simp
      have hname : x.clone.name = x.name := rfl
      rw [hcons, matchLong, matchLong, if_neg hend, if_neg hclone, hname]
      cases x.name with
      | none => exact ih (index + 1) xo hitcnt
      | some name =>
        simp only
        split
        · split
          · rfl
          · exact ih (index + 1) (some (index, x)) (hitcnt + 1)
        · exact ih (index + 1) xo hitcnt

/-- The resolution by the copied table. -/
def Resolution.clone : Resolution → Resolution
  | .selected index xo => .selected index xo.clone
  | r => r

theorem resolve_clone (longopts : Option (List Xoption)) (only : Bool) (text : List UInt8) :
    resolve (longopts.map cloneLongopts) only text = (resolve longopts only text).clone := by
  cases longopts with
  | none => rfl
  | some table =>
    rw [Option.map_some, resolve, resolve]
    split
    · rfl
    · have hmatch := matchLong_clone ((text.drop (start text)).takeWhile (· ≠ ascii '=')) table 0 none 0
      rw [Option.map_none] at hmatch
      rw [hmatch]
      cases matchLong ((text.drop (start text)).takeWhile (· ≠ ascii '=')) table 0 none 0 with
      | mk found hitcnt =>
        cases found with
        | none =>
          simp only [Option.map_none]
          split <;> rfl
        | some found =>
          simp only [Option.map_some]
          split <;> rfl

theorem questionMark_ne : questionMark ≠ -1 := by decide

theorem longAnswer_clone (o : Options) (rest : List Arg) (xo : Xoption) (inline : Prop) [Decidable inline] :
    (o.clone.longAnswer xo.clone inline rest).2 = (o.longAnswer xo inline rest).2 ∧
      (o.clone.longAnswer xo.clone inline rest).1 ≠ -1 := by
  have hvalue : xo.clone.value ≠ -1 := by
    rw [Xoption.value, Xoption.clone, if_pos rfl]
    change (0x5299 : Int32) ≠ -1
    decide
  have harg : xo.clone.has_arg = xo.has_arg := rfl
  unfold Options.longAnswer
  rw [harg]
  split_ifs
  · exact ⟨rfl, hvalue⟩
  · exact ⟨rfl, hvalue⟩
  · cases rest with
    | nil => exact ⟨rfl, questionMark_ne⟩
    | cons a rest => exact ⟨rfl, hvalue⟩
  · exact ⟨rfl, hvalue⟩

/-- The second scan moves in the same way, and gets -1 only where the first one does. -/
def Follows (first second : Int32 × Option ℕ) : Prop := second.2 = first.2 ∧ (first.1 ≠ -1 → second.1 ≠ -1)

theorem shortReply_clone (p : UInt8) (more : List UInt8) :
    Follows (o.shortReply p more rest) (o.clone.shortReply p more rest) := by
  have hmark := questionMark_ne
  rw [Options.shortReply, Options.shortReply, Options.clone]
  simp only
  unfold Follows replyAt
  cases rest <;> grind

theorem replyFrom_clone (cs : List UInt8) : Follows (o.replyFrom cs rest) (o.clone.replyFrom cs rest) := by
  cases cs with
  | nil => exact ⟨rfl, id⟩
  | cons p more => exact shortReply_clone p more

theorem reply_clone (e : Arg) : Follows (o.reply e rest) (o.clone.reply e rest) := by
  have hresolve : resolve o.clone.longopts o.clone.only e.text = (resolve o.longopts o.only e.text).clone :=
    resolve_clone o.longopts o.only e.text
  rw [Options.reply, Options.reply, Options.longReply, Options.longReply, hresolve]
  cases resolve o.longopts o.only e.text with
  | short => exact replyFrom_clone _
  | unrecognized => exact ⟨rfl, fun h => h⟩
  | ambiguous => exact ⟨rfl, fun h => h⟩
  | selected index xo =>
    obtain ⟨hpast, hcode⟩ := longAnswer_clone o rest xo (ascii '=' ∈ e.text.drop (start e.text))
    exact ⟨congrArg some hpast, fun _ => hcode⟩

theorem groupTaken_clone (cs : List UInt8) : o.clone.groupTaken cs rest = o.groupTaken cs rest := by
  induction cs with
  | nil => rfl
  | cons p more ih =>
    have hpast : (o.clone.shortReply p more rest).2 = (o.shortReply p more rest).2 := (shortReply_clone p more).1
    rw [Options.groupTaken, Options.groupTaken, hpast, ih]

theorem taken_clone (e : Arg) : o.clone.taken e rest = o.taken e rest := by
  have hpast : (o.clone.reply e rest).2 = (o.reply e rest).2 := (reply_clone e).1
  rw [Options.taken, Options.taken, hpast, groupTaken_clone]

/-- How many elements a fate leaves behind the element that is passed. -/
def Fate.taken? : Fate → Option ℕ
  | .passes k => some k
  | .stopsPast k => some k
  | .stopsWithin => none

theorem settle_passes {first second : Int32 × Option ℕ} {next next' : Fate} {k : ℕ} (h : Follows first second)
    (hnext : next = .passes k → next' = .passes k) (hfirst : settle first next = .passes k) :
    settle second next' = .passes k := by
  obtain ⟨code, past⟩ := first
  obtain ⟨code', past'⟩ := second
  obtain ⟨rfl, hcode⟩ : past' = past ∧ (code ≠ -1 → code' ≠ -1) := h
  cases past' with
  | some j =>
    rw [settle] at hfirst ⊢
    split at hfirst
    · exact absurd hfirst (by simp)
    next hne => rw [if_neg (hcode hne), hfirst]
  | none =>
    rw [settle] at hfirst ⊢
    split at hfirst
    · exact absurd hfirst (by simp)
    next hne => rw [if_neg (hcode hne), hnext hfirst]

/-- What the first scan passes, the second one passes as well. -/
theorem fate_clone {k : ℕ} (h : o.fate e rest = .passes k) : o.clone.fate e rest = .passes k := by
  have hgroup : ∀ cs, o.groupFate cs rest = .passes k → o.clone.groupFate cs rest = .passes k := by
    intro cs
    induction cs with
    | nil => exact id
    | cons p more ih => exact settle_passes (shortReply_clone p more) ih
  exact settle_passes (reply_clone e) (hgroup _) h

theorem settle_taken {reply : Int32 × Option ℕ} {next : Fate} {k n : ℕ} (hnext : next.taken? = some k → n = k)
    (h : (settle reply next).taken? = some k) : (match reply.2 with | some k => k | none => n) = k := by
  obtain ⟨code, past⟩ := reply
  cases past with
  | some j =>
    rw [settle] at h
    split at h <;> exact Option.some.inj h
  | none =>
    rw [settle] at h
    split at h
    · exact absurd h (by simp [Fate.taken?])
    · exact hnext h

theorem fate_taken {k : ℕ} (h : (o.fate e rest).taken? = some k) : o.taken e rest = k := by
  have hgroup : ∀ cs, (o.groupFate cs rest).taken? = some k → o.groupTaken cs rest = k := by
    intro cs
    induction cs with
    | nil => exact fun h => Option.some.inj h
    | cons p more ih =>
      intro h
      rw [Options.groupTaken]
      exact settle_taken ih h
  exact settle_taken (hgroup _) h

end Clones

section Reported
variable {o : Options} {e : Arg} {rest s : List Arg}

theorem operandsFrom_drop (skip : ℕ) (s : List Arg) : o.operandsFrom skip s = o.operandsFrom 0 (s.drop skip) := by
  induction skip generalizing s with
  | zero => rw [List.drop_zero]
  | succ skip ih =>
    cases s with
    | nil => rfl
    | cons e rest => rw [Options.operandsFrom, ih, List.drop_succ_cons]

theorem operandsFrom_length (skip : ℕ) (s : List Arg) : (o.operandsFrom skip s).length ≤ s.length := by
  induction s generalizing skip with
  | nil => exact Nat.zero_le _
  | cons e rest ih =>
    cases skip with
    | succ skip => exact (ih skip).trans (Nat.le_succ _)
    | zero =>
      rw [Options.operandsFrom]
      split_ifs
      · exact Nat.le_succ _
      · exact Nat.succ_le_succ (ih 0)
      · exact (ih _).trans (Nat.le_succ _)

theorem rescanFrom_length (skip : ℕ) (stopped : Bool) (s : List Arg) :
    (o.rescanFrom skip stopped s).length ≤ s.length := by
  induction s generalizing skip stopped with
  | nil => exact Nat.zero_le _
  | cons e rest ih =>
    cases skip with
    | succ skip => exact (ih skip stopped).trans (Nat.le_succ _)
    | zero =>
      cases stopped with
      | true => exact Nat.succ_le_succ (ih 0 false)
      | false =>
        rw [Options.rescanFrom]
        split_ifs
        · exact Nat.succ_le_succ (ih 0 false)
        · exact (ih 0 true).trans (Nat.le_succ _)
        · split
          · exact (ih _ false).trans (Nat.le_succ _)
          · exact (ih _ true).trans (Nat.le_succ _)
          · exact Nat.succ_le_succ (ih 0 false)

theorem plain_ne {e : Arg} (h : e.plain) : e.text ≠ chars "-" ∧ e.text ≠ chars "--" := by
  constructor <;> exact fun htext => h (by rw [htext]; rfl)

theorem operandsFrom_plain (h : e.plain ∨ e.text = chars "-") :
    o.operandsFrom 0 (e :: rest) = e :: o.operandsFrom 0 rest := by
  have hne : e.text ≠ chars "--" := by
    rcases h with hplain | htext
    · exact (plain_ne hplain).2
    · rw [htext]
      decide
  rw [Options.operandsFrom, if_neg hne, if_pos h]

theorem operandsFrom_option (hplain : ¬ e.plain) (hdashes : ¬ e.dashes) :
    o.operandsFrom 0 (e :: rest) = o.operandsFrom (o.taken e rest) rest := by
  rw [Arg.dashes, not_or] at hdashes
  rw [Options.operandsFrom, if_neg hdashes.2, if_neg (by rw [not_or]; exact ⟨hplain, hdashes.1⟩)]

/-- All the elements are operands. -/
theorem operandsFrom_eq_iff : o.operandsFrom 0 s = s ↔ ∀ x ∈ s, x.plain ∨ x.text = chars "-" := by
  induction s with
  | nil => exact iff_of_true rfl (fun x hx => absurd hx List.not_mem_nil)
  | cons e rest ih =>
    rw [List.forall_mem_cons]
    by_cases h : e.plain ∨ e.text = chars "-"
    · rw [operandsFrom_plain h, List.cons_inj_right, ih, and_iff_right h]
    · refine iff_of_false (fun heq => ?_) (fun hall => h hall.1)
      rw [Options.operandsFrom] at heq
      have hlen := congrArg List.length heq
      rw [if_neg h] at hlen
      split at hlen
      · rw [List.length_cons] at hlen
        omega
      · have hle := operandsFrom_length (o := o) (o.taken e rest) rest
        rw [List.length_cons] at hlen
        omega

theorem operandsFrom_append {E : List Arg} (hE : ∀ x ∈ E, x.plain) :
    o.operandsFrom 0 (E ++ s) = E ++ o.operandsFrom 0 s := by
  induction E with
  | nil => rfl
  | cons e E ih =>
    rw [List.forall_mem_cons] at hE
    rw [List.cons_append, operandsFrom_plain (.inl hE.1), ih hE.2, List.cons_append]

/-- Operands in front cannot make up for elements that are not operands. -/
theorem eq_append_operandsFrom {E : List Arg} (hE : ∀ x ∈ E, x.plain) (h : s = E ++ o.operandsFrom 0 s) : E = [] := by
  induction hlen : s.length using Nat.strong_induction_on generalizing s with
  | _ n ih =>
    by_contra hne
    have hpos := List.length_pos_iff.mpr hne
    have hinner : o.operandsFrom 0 s = E ++ o.operandsFrom 0 (o.operandsFrom 0 s) := by
      conv_lhs => rw [h, operandsFrom_append hE]
    have hlength := congrArg List.length h
    rw [List.length_append] at hlength
    exact hne (ih _ (by omega) hinner rfl)

theorem shortReply_rest {p : UInt8} {more : List UInt8} (h : (o.shortReply p more rest).2 = none) (rest' : List Arg) :
    o.shortReply p more rest' = o.shortReply p more rest := by
  rw [Options.shortReply] at h
  rw [Options.shortReply, Options.shortReply]
  unfold replyAt at h ⊢
  cases rest <;> grind

theorem settle_within {reply reply' : Int32 × Option ℕ} {next next' : Fate} (hreply : reply.2 = none → reply' = reply)
    (hnext : next = .stopsWithin → next' = .stopsWithin) (h : settle reply next = .stopsWithin) :
    settle reply' next' = .stopsWithin := by
  obtain ⟨code, past⟩ := reply
  cases past with
  | some k =>
    rw [settle] at h
    split at h <;> exact absurd h (by simp)
  | none =>
    rw [hreply rfl]
    rw [settle] at h ⊢
    split at h
    next hcode => rw [if_pos hcode]
    next hcode => rw [if_neg hcode, hnext h]

/-- Whether a scan stops within an element does not depend on the elements behind it. -/
theorem fate_within (rest' : List Arg) (h : o.fate e rest = .stopsWithin) : o.fate e rest' = .stopsWithin := by
  have hgroup : ∀ cs, o.groupFate cs rest = .stopsWithin → o.groupFate cs rest' = .stopsWithin := by
    intro cs
    induction cs with
    | nil => exact id
    | cons p more ih => exact settle_within (fun hnone => shortReply_rest hnone rest') ih
  have hreply : (o.reply e rest).2 = none → o.reply e rest' = o.reply e rest := by
    rw [Options.reply, Options.reply, Options.longReply, Options.longReply]
    cases resolve o.longopts o.only e.text with
    | short =>
      intro hnone
      change o.replyFrom _ rest' = o.replyFrom _ rest
      change (o.replyFrom _ rest).2 = none at hnone
      cases hcs : e.text.drop (start e.text) with
      | nil => rfl
      | cons p more =>
        rw [hcs] at hnone
        exact shortReply_rest hnone rest'
    | unrecognized => exact fun hnone => absurd hnone (Option.some_ne_none _)
    | ambiguous => exact fun hnone => absurd hnone (Option.some_ne_none _)
    | selected index xo => exact fun hnone => absurd hnone (Option.some_ne_none _)
  exact settle_within hreply (hgroup _) h

/-- The second scan detaches all the elements. -/
theorem rescanFrom_eq_iff : o.clone.rescanFrom 0 false s = s ↔ ∀ x ∈ s, o.Detached x := by
  induction s with
  | nil => exact iff_of_true rfl (fun x hx => absurd hx List.not_mem_nil)
  | cons e rest ih =>
    have hshort : ∀ skip stopped, o.clone.rescanFrom skip stopped rest ≠ e :: rest := by
      intro skip stopped heq
      have hle := rescanFrom_length (o := o.clone) skip stopped rest
      rw [heq, List.length_cons] at hle
      omega
    rw [List.forall_mem_cons]
    by_cases hplain : e.plain
    · rw [rescanFrom_plain hplain, List.cons_inj_right, ih, and_iff_right (.inl hplain)]
    by_cases hdashes : e.dashes
    · rw [rescanFrom_dashes hplain hdashes]
      exact iff_of_false (hshort 0 true) fun hall => hall.1.elim hplain fun h => h.1 hdashes
    rw [rescanFrom_option hplain hdashes]
    cases hfate : o.clone.fate e rest with
    | passes k =>
      refine iff_of_false (hshort k false) fun hall => hall.1.elim hplain fun h => ?_
      exact absurd ((fate_within rest h.2).symm.trans hfate) (by simp)
    | stopsPast k =>
      refine iff_of_false (hshort k true) fun hall => hall.1.elim hplain fun h => ?_
      exact absurd ((fate_within rest h.2).symm.trans hfate) (by simp)
    | stopsWithin =>
      have hdetached : o.Detached e := .inr ⟨hdashes, fate_within [] hfate⟩
      rw [Options.rescanAfter, List.cons_inj_right, ih, and_iff_right hdetached]

theorem rescanFrom_true_iff : o.clone.rescanFrom 0 true s = s ↔ ∀ x ∈ s.tail, o.Detached x := by
  cases s with
  | nil => exact iff_of_true rfl (fun x hx => absurd hx List.not_mem_nil)
  | cons e rest => rw [rescanFrom_stopped, List.cons_inj_right, rescanFrom_eq_iff, List.tail_cons]

/-- The elements of a list are solitary dashes, and there is one. -/
def Solitary (D : List Arg) : Prop := D ≠ [] ∧ ∀ d ∈ D, d.text = chars "-"

theorem Solitary.head {d : Arg} {D : List Arg} (h : Solitary (d :: D)) : d.dashes ∧ ∀ x ∈ D, x.text = chars "-" := by
  have hall := List.forall_mem_cons.mp h.2
  exact ⟨.inl hall.1, hall.2⟩

theorem solitary_push {D : List Arg} (hD : ∀ x ∈ D, x.text = chars "-") {e : Arg} (he : e.text = chars "-") :
    Solitary (D ++ [e]) :=
  ⟨List.append_ne_nil_of_right_ne_nil D (List.cons_ne_nil e []),
    List.forall_mem_append.mpr ⟨hD, List.forall_mem_singleton.mpr he⟩⟩

/-- A solitary dash that the second scan leaves out is not made up for. -/
theorem rescanFrom_ne_dashes (skip : ℕ) {D : List Arg} (hD : Solitary D) :
    o.clone.rescanFrom skip false s ≠ D ++ o.operandsFrom skip s ∧
      o.clone.rescanFrom skip true s ≠ D ++ o.operandsFrom skip s := by
  induction hlen : s.length using Nat.strong_induction_on generalizing s skip D with
  | _ n ih =>
    obtain ⟨d, D, rfl⟩ := List.exists_cons_of_ne_nil hD.1
    obtain ⟨hd, hdashes⟩ := hD.head
    cases s with
    | nil => exact ⟨List.cons_ne_nil _ _ |>.symm, List.cons_ne_nil _ _ |>.symm⟩
    | cons e rest =>
      have hrest : rest.length < n := by
        rw [← hlen, List.length_cons]
        omega
      cases skip with
      | succ skip => exact ih _ hrest skip hD rfl
      | zero =>
        have hstopped : o.clone.rescanFrom 0 true (e :: rest) ≠ d :: D ++ o.operandsFrom 0 (e :: rest) := by
          intro heq
          rw [rescanFrom_stopped] at heq
          obtain ⟨rfl, htail⟩ := List.cons.inj heq
          have htext : e.text = chars "-" := hD.2 e List.mem_cons_self
          refine (ih _ hrest 0 (solitary_push hdashes htext) rfl).1 ?_
          rw [List.append_assoc, List.singleton_append, ← operandsFrom_plain (.inr htext)]
          exact htail
        refine ⟨fun heq => ?_, hstopped⟩
        by_cases hplain : e.plain
        · rw [rescanFrom_plain hplain] at heq
          obtain ⟨rfl, -⟩ := List.cons.inj heq
          rcases hd with htext | htext
          · exact (plain_ne hplain).1 htext
          · exact (plain_ne hplain).2 htext
        by_cases hdash : e.text = chars "-"
        · refine (ih _ hrest 0 (solitary_push hD.2 hdash) rfl).2 ?_
          rw [rescanFrom_dashes hplain (.inl hdash), operandsFrom_plain (.inr hdash)] at heq
          rw [heq, List.append_assoc, List.singleton_append]
        by_cases hterm : e.text = chars "--"
        · rw [rescanFrom_dashes hplain (.inr hterm), Options.operandsFrom, if_pos hterm] at heq
          have hle := rescanFrom_length (o := o.clone) 0 true rest
          rw [heq, List.length_append, List.length_cons] at hle
          omega
        · have hoption : ¬ e.dashes := fun h => h.elim hdash hterm
          rw [rescanFrom_option hplain hoption, operandsFrom_option hplain hoption, ← taken_clone] at heq
          cases hfate : o.clone.fate e rest with
          | passes k =>
            rw [fate_taken (o := o.clone) (by rw [hfate]; rfl), hfate] at heq
            exact (ih _ hrest k hD rfl).1 heq
          | stopsPast k =>
            rw [fate_taken (o := o.clone) (by rw [hfate]; rfl), hfate] at heq
            exact (ih _ hrest k hD rfl).2 heq
          | stopsWithin =>
            rw [hfate] at heq
            obtain ⟨rfl, -⟩ := List.cons.inj heq
            exact hoption hd

/-- An option is not reported with all that follows it. -/
theorem cons_ne_append_operandsFrom {E : List Arg} (hE : ∀ x ∈ E, x.plain) (hplain : ¬ e.plain) (skip : ℕ) :
    e :: rest ≠ E ++ o.operandsFrom skip rest := by
  intro heq
  cases E with
  | nil =>
    have hle := operandsFrom_length (o := o) skip rest
    rw [← List.nil_append (o.operandsFrom skip rest), ← heq, List.length_cons] at hle
    omega
  | cons x E =>
    obtain ⟨rfl, -⟩ := List.cons.inj heq
    exact hplain (hE e List.mem_cons_self)

/-- The elements reported are the operands if and only if the command line is regular. -/
theorem reportedFrom_iff (skip : ℕ) {E : List Arg} (hE : ∀ x ∈ E, x.plain) :
    (match o.firstFrom skip s with
      | .finished => E ++ o.clone.rescanFrom skip false s
      | .early left => left) = E ++ o.operandsFrom skip s ↔ o.Regular skip (!E.isEmpty) s := by
  induction s generalizing skip E with
  | nil =>
    cases skip with
    | zero => exact iff_of_true rfl trivial
    | succ skip => exact iff_of_true rfl trivial
  | cons e rest ih =>
    cases skip with
    | succ skip => exact ih skip hE
    | zero =>
      by_cases hplain : e.plain
      · have hE' : ∀ x ∈ E ++ [e], x.plain := by
          intro x hx
          rcases List.mem_append.mp hx with hx | hx
          · exact hE x hx
          · rwa [List.mem_singleton.mp hx]
        have hrest := ih 0 hE'
        have hseen : (!(E ++ [e]).isEmpty) = true := by simp
        rw [Options.firstFrom, if_pos hplain, Options.Regular, if_pos hplain, rescanFrom_plain hplain,
          operandsFrom_plain (.inl hplain), ← hseen, ← hrest]
        simp only [List.append_assoc, List.singleton_append]
      by_cases hdashes : e.dashes
      · rw [Options.firstFrom, if_neg hplain, if_pos hdashes, rescanFrom_dashes hplain hdashes, Options.Regular,
          if_neg hplain]
        by_cases hdash : e.text = chars "-"
        · have hD : Solitary [e] := solitary_push (fun x hx => absurd hx List.not_mem_nil) hdash
          rw [if_pos hdash, operandsFrom_plain (.inr hdash), List.append_cancel_left_eq]
          exact iff_of_false (rescanFrom_ne_dashes 0 hD).2 id
        · have hterm : e.text = chars "--" := hdashes.resolve_left hdash
          rw [if_neg hdash, if_pos hterm, Options.operandsFrom, if_pos hterm, List.append_cancel_left_eq]
          exact rescanFrom_true_iff
      · have hne : e.text ≠ chars "-" ∧ e.text ≠ chars "--" := not_or.mp hdashes
        rw [Options.firstFrom, if_neg hplain, if_neg hdashes, rescanFrom_option hplain hdashes, Options.Regular,
          if_neg hplain, if_neg hne.1, if_neg hne.2, operandsFrom_option hplain hdashes]
        cases hfate : o.fate e rest with
        | passes k =>
          rw [fate_clone hfate, fate_taken (by rw [hfate]; rfl)]
          exact ih k hE
        | stopsPast k =>
          rw [fate_taken (by rw [hfate]; rfl), operandsFrom_drop]
          change rest.drop k = _ ↔ (!E.isEmpty) = false ∧ _
          rw [Bool.not_eq_false', List.isEmpty_iff, ← operandsFrom_eq_iff (o := o)]
          constructor
          · intro heq
            have hnil : E = [] := eq_append_operandsFrom hE heq
            rw [hnil, List.nil_append] at heq
            exact ⟨hnil, heq.symm⟩
          · rintro ⟨rfl, heq⟩
            rw [List.nil_append, heq]
        | stopsWithin =>
          refine iff_of_false (fun heq => ?_) id
          change e :: rest = _ at heq
          exact cons_ne_append_operandsFrom hE hplain _ heq

/-- The elements reported are the operands if and only if the command line is regular. -/
theorem reported_iff (args : List Arg) : o.reported args = o.operandsFrom 0 args ↔ o.Regular 0 false args :=
  reportedFrom_iff 0 (fun _ hx => absurd hx List.not_mem_nil)

end Reported
end LibXpf.Getopt
