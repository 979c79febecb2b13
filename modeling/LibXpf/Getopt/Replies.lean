import LibXpf.Getopt.Scanner
import Mathlib.Tactic.Ring

/-! # What a call does with an option

A call that examines an option depends on the characters of its element and on the
elements behind it. It returns a code, and either stays within the element or moves
past it and past an argument.
-/
namespace LibXpf.Getopt
open Buffers

section Replies

/-- The characters that options have, and the ways of writing them, that hold for a whole scan. -/
structure Options where
  /-- The option characters, without the head of `optstring`. -/
  optstring : List UInt8
  longopts : Option (List Xoption)
  only : Bool
  /-- What is returned for a missing argument. -/
  missing : Int32

/-- The answer to the option character `p` that is found at `d`, and how many elements are taken if the
element ends. -/
def replyAt (d : List UInt8) (missing : Int32) (p : UInt8) (more : List UInt8) (rest : List Arg) :
    Int32 × Option ℕ :=
  if d ≠ [] ∧ charAt d 1 = ascii ':' then
    if more ≠ [] then (promote p, some 0)
    else
      match rest with
      | argument :: _ =>
        if charAt d 2 ≠ ascii ':' ∨ charAt argument.text 0 ≠ ascii '-' then (promote p, some 1)
        else (promote p, some 0)
      | [] => (if charAt d 2 ≠ ascii ':' then missing else promote p, some 0)
  else (if d = [] then questionMark else promote p, if more = [] then some 0 else none)

def Options.shortReply (o : Options) (p : UInt8) (more : List UInt8) (rest : List Arg) : Int32 × Option ℕ :=
  replyAt (o.optstring.dropWhile (· ≠ p)) o.missing p more rest

def Xoption.value (xo : Xoption) : Int32 := if xo.flag = none then xo.val else 0

/-- The answer to a long option that is selected, and how many elements are taken. -/
def Options.longAnswer (o : Options) (xo : Xoption) (inline : Prop) [Decidable inline] (rest : List Arg) : Int32 × ℕ :=
  if xo.has_arg = xrequired_argument ∨ xo.has_arg = xoptional_argument then
    if inline then (xo.value, 0)
    else if xo.has_arg = xoptional_argument then (xo.value, 0)
    else
      match rest with
      | _ :: _ => (xo.value, 1)
      | [] => (o.missing, 0)
  else (xo.value, 0)

/-- The answer to a long option, and how many elements are taken, unless the short options are tried. -/
def Options.longReply (o : Options) (e : Arg) (rest : List Arg) : Option (Int32 × ℕ) :=
  match resolve o.longopts o.only e.text with
  | .short => none
  | .unrecognized => some (questionMark, 0)
  | .ambiguous => some (questionMark, 0)
  | .selected _ xo => some (o.longAnswer xo (ascii '=' ∈ e.text.drop (start e.text)) rest)

end Replies

section Upcoming

/-- The elements from `xoptind` on. -/
def upcoming (st : State) (argc : ℕ) : List Arg := (st.argv.take argc).drop st.xoptind

variable {st : State} {argc : ℕ} {e : Arg} {rest : List Arg}

theorem upcoming_nil_iff (hargc : argc ≤ st.argv.length) : upcoming st argc = [] ↔ argc ≤ st.xoptind := by
  rw [upcoming, List.drop_eq_nil_iff, List.length_take, Nat.min_eq_left hargc]

theorem upcoming_cons (h : upcoming st argc = e :: rest) :
    st.xoptind < argc ∧ read Fault.outOfBounds st.argv st.xoptind = .ok e ∧
      (st.argv.take argc).drop (st.xoptind + 1) = rest := by
  have hhead : ((st.argv.take argc).drop st.xoptind)[0]? = some e := by
    rw [← upcoming, h]
    rfl
  rw [List.getElem?_drop, Nat.add_zero] at hhead
  obtain ⟨hlt, hval⟩ := List.getElem?_eq_some_iff.mp hhead
  rw [List.length_take] at hlt
  have hbuf : st.xoptind < st.argv.length := by omega
  refine ⟨by omega, ?_, ?_⟩
  · rw [read_lt hbuf, ← hval, List.getElem_take]
  · rw [← List.tail_drop, ← upcoming, h, List.tail_cons]

end Upcoming

section Effects

/-- A call has moved on in `argv` and has left `argv` itself alone. -/
structure Advanced (st st' : State) (ind : ℕ) (cur : Option Ptr) : Prop where
  xoptind : st'.xoptind = ind
  xoptcur : st'.xoptcur = cur
  argv : st'.argv = st.argv
  xoptreset : st'.xoptreset = st.xoptreset

@[simp] theorem complain_xoptind (st : State) (message : List UInt8) :
    (st.complain message).xoptind = st.xoptind := by
  unfold State.complain
  split <;> rfl

@[simp] theorem complain_xoptcur (st : State) (message : List UInt8) :
    (st.complain message).xoptcur = st.xoptcur := by
  unfold State.complain
  split <;> rfl

@[simp] theorem complain_argv (st : State) (message : List UInt8) : (st.complain message).argv = st.argv := by
  unfold State.complain
  split <;> rfl

@[simp] theorem complain_xoptreset (st : State) (message : List UInt8) :
    (st.complain message).xoptreset = st.xoptreset := by
  unfold State.complain
  split <;> rfl

theorem deliver_advanced (xo : Xoption) {st st₁ : State} {ind : ℕ} {cur : Option Ptr}
    (h : Advanced st st₁ ind cur) :
    ∃ st', (Except.ok (deliver xo st₁) : Except Fault (Int32 × State)) = .ok (xo.value, st') ∧
      Advanced st st' ind cur := by
  rw [deliver, Xoption.value]
  cases xo.flag with
  | none => exact ⟨st₁, rfl, h⟩
  | some flag => exact ⟨_, rfl, h.xoptind, h.xoptcur, h.argv, h.xoptreset⟩

variable {st : State} {argc : ℕ} {e : Arg} {rest : List Arg} {mode : Mode} {program : List UInt8}

/-- What is returned for a missing argument. -/
def Mode.missing (mode : Mode) : Int32 := if mode.missingarg then colon else questionMark

/-- The options of a mode. -/
def Mode.options (mode : Mode) (longopts : Option (List Xoption)) (only : Bool) : Options :=
  ⟨mode.optstring, longopts, only, mode.missing⟩

theorem charAt_drop {text more : List UInt8} {offset : ℕ} {p : UInt8} (h : text.drop offset = p :: more) :
    charAt text offset = p ∧ charAt text (offset + 1) = charAt more 0 := by
  have hget : ∀ k, text[offset + k]? = (p :: more)[k]? := by
    intro k
    rw [← List.getElem?_drop, h]
  have hzero := hget 0
  have hone := hget 1
  rw [Nat.add_zero] at hzero
  constructor
  · rw [charAt, List.getD_eq_getElem?_getD, hzero]
    rfl
  · rw [charAt, List.getD_eq_getElem?_getD, hone, charAt, List.getD_eq_getElem?_getD, List.getElem?_cons_succ]

/-- The character behind `p` is the null if and only if `p` ends its element. -/
theorem more_iff {more : List UInt8} {offset : ℕ} {p : UInt8} (hp : e.text.drop offset = p :: more) :
    charAt e.text (offset + 1) ≠ 0 ↔ more ≠ [] := by
  have hmem : ∀ c ∈ more, c ∈ e.text := fun c hc =>
    List.mem_of_mem_drop (hp ▸ List.mem_cons_of_mem p hc)
  rw [(charAt_drop hp).2]
  cases more with
  | nil => simp [charAt]
  | cons c more =>
    refine iff_of_true ?_ (List.cons_ne_nil c more)
    rintro rfl
    exact e.nulFree (hmem _ List.mem_cons_self)

/-- Whether an argument is there, and what it is. -/
theorem argument_cases (h : upcoming st argc = e :: rest) (hargc : argc ≤ st.argv.length) :
    (rest = [] ∧ ¬ st.xoptind + 1 < argc) ∨
      ∃ argument tail, rest = argument :: tail ∧ st.xoptind + 1 < argc ∧
        read Fault.outOfBounds st.argv (st.xoptind + 1) = .ok argument := by
  let st' : State := { st with xoptind := st.xoptind + 1 }
  have hargc' : argc ≤ st'.argv.length := hargc
  have hrest : upcoming st' argc = rest := (upcoming_cons h).2.2
  cases rest with
  | nil => exact .inl ⟨rfl, Nat.not_lt.mpr ((upcoming_nil_iff hargc').mp hrest)⟩
  | cons argument tail =>
    obtain ⟨hlt, hread, -⟩ := upcoming_cons hrest
    exact .inr ⟨argument, tail, rfl, hlt, hread⟩

theorem shortOption_eq (mode : Mode) (program : List UInt8) (longopts : Option (List Xoption)) (only : Bool) {offset : ℕ} {p : UInt8}
    {more : List UInt8} (h : upcoming st argc = e :: rest) (hargc : argc ≤ st.argv.length)
    (hp : e.text.drop offset = p :: more) :
    ∃ st', shortOption mode argc program e offset st =
        .ok (((mode.options longopts only).shortReply p more rest).1, st') ∧
      match ((mode.options longopts only).shortReply p more rest).2 with
      | some k => Advanced st st' (st.xoptind + 1 + k) none
      | none => Advanced st st' st.xoptind (some ⟨e.buffer, offset + 1⟩) := by
  have hmore := more_iff hp
  rw [Options.shortReply, Mode.options]
  unfold shortOption replyAt
  simp only [(charAt_drop hp).1]
  generalize mode.optstring.dropWhile (· ≠ p) = d
  by_cases hd : d ≠ [] ∧ charAt d 1 = ascii ':'
  · simp only [if_pos hd]
    by_cases hm : more ≠ []
    · simp only [if_pos (hmore.mpr hm), if_pos hm]
      exact ⟨_, rfl, rfl, rfl, rfl, rfl⟩
    · simp only [if_neg (mt hmore.mp hm), if_neg hm]
      rcases argument_cases h hargc with ⟨rfl, hlt⟩ | ⟨argument, tail, rfl, hlt, hread⟩
      · simp only [if_neg hlt]
        split
        · exact ⟨_, rfl, by simp, by simp, by simp, by simp⟩
        · exact ⟨_, rfl, rfl, rfl, rfl, rfl⟩
      · simp only [if_pos hlt, hread, ok_bind]
        split
        · exact ⟨_, rfl, rfl, rfl, rfl, rfl⟩
        · exact ⟨_, rfl, rfl, rfl, rfl, rfl⟩
  · simp only [if_neg hd]
    by_cases hm : more = []
    · simp only [if_neg (mt hmore.mp (not_not.mpr hm)), if_pos hm]
      split
      · refine ⟨_, rfl, ?_⟩
        split <;> exact ⟨by simp, by simp, by simp, by simp⟩
      · exact ⟨_, rfl, rfl, rfl, rfl, rfl⟩
    · simp only [if_pos (hmore.mpr hm), if_neg hm]
      split
      · refine ⟨_, rfl, ?_⟩
        split <;> exact ⟨by simp, by simp, by simp, by simp⟩
      · exact ⟨_, rfl, rfl, rfl, rfl, rfl⟩

theorem longArgument_eq (mode : Mode) (program : List UInt8) (longopts : Option (List Xoption)) (only : Bool) (xo : Xoption)
    (h : upcoming st argc = e :: rest) (hargc : argc ≤ st.argv.length) (hcur : st.xoptcur = none) :
    ∃ st', longArgument mode argc program e xo (start e.text) st =
        .ok (((mode.options longopts only).longAnswer xo (ascii '=' ∈ e.text.drop (start e.text)) rest).1, st') ∧
      Advanced st st' (st.xoptind + 1 +
        ((mode.options longopts only).longAnswer xo (ascii '=' ∈ e.text.drop (start e.text)) rest).2) none := by
  unfold longArgument Options.longAnswer
  by_cases harg : xo.has_arg = xrequired_argument ∨ xo.has_arg = xoptional_argument
  · simp only [if_pos harg]
    by_cases hinline : ascii '=' ∈ e.text.drop (start e.text)
    · simp only [if_pos hinline]
      exact deliver_advanced xo ⟨rfl, hcur, rfl, rfl⟩
    simp only [if_neg hinline]
    by_cases hoptional : xo.has_arg = xoptional_argument
    · simp only [if_pos hoptional]
      exact deliver_advanced xo ⟨rfl, hcur, rfl, rfl⟩
    simp only [if_neg hoptional]
    rcases argument_cases h hargc with ⟨rfl, hlt⟩ | ⟨argument, tail, rfl, hlt, hread⟩
    · simp only [if_neg hlt]
      exact ⟨_, rfl, by simp, by simp [hcur], by simp, by simp⟩
    · simp only [if_pos hlt, hread, ok_bind]
      exact deliver_advanced xo ⟨rfl, hcur, rfl, rfl⟩
  · simp only [if_neg harg]
    exact deliver_advanced xo ⟨rfl, hcur, rfl, rfl⟩

theorem longOption_eq (mode : Mode) (program : List UInt8) (longopts : Option (List Xoption)) (only : Bool)
    (h : upcoming st argc = e :: rest) (hargc : argc ≤ st.argv.length) (hcur : st.xoptcur = none) :
    match (mode.options longopts only).longReply e rest with
    | none => longOption mode argc program longopts only e st = .ok none
    | some (code, k) => ∃ st', longOption mode argc program longopts only e st = .ok (some (code, st')) ∧
        Advanced st st' (st.xoptind + 1 + k) none := by
  have hgo : ¬ st.xoptcur ≠ none := not_not.mpr hcur
  rw [longOption, if_neg hgo, Options.longReply, Mode.options]
  simp only
  cases resolve longopts only e.text with
  | short => rfl
  | unrecognized => exact ⟨_, rfl, by simp, by simp [hcur], by simp, by simp⟩
  | ambiguous => exact ⟨_, rfl, by simp, by simp [hcur], by simp, by simp⟩
  | selected index xo =>
    let st₁ : State := { st with longindex := st.longindex.map fun _ => Int32.ofNat index }
    have h₁ : upcoming st₁ argc = e :: rest := h
    have hargc₁ : argc ≤ st₁.argv.length := hargc
    obtain ⟨st', harg, hadv⟩ := longArgument_eq mode program longopts only xo h₁ hargc₁ hcur
    refine ⟨st', ?_, hadv.xoptind, hadv.xoptcur, hadv.argv, hadv.xoptreset⟩
    exact congrArg (fun reply => reply >>= fun r => Except.ok (some r)) harg

end Effects
end LibXpf.Getopt
