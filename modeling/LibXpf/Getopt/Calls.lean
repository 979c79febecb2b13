import LibXpf.Getopt.Replies

/-! # Calls of the scanner

A call at an element that is an option gives the reply to it, and what becomes of an
element in a whole scan follows from the replies to its characters.
-/
namespace LibXpf.Getopt
open Buffers

section Fates
variable (o : Options)

/-- The reply to the option characters that are left in an element. -/
def Options.replyFrom (cs : List UInt8) (rest : List Arg) : Int32 × Option ℕ :=
  match cs with
  | [] => (questionMark, some 0)
  | p :: more => o.shortReply p more rest

/-- The reply to an element that is an option. -/
def Options.reply (e : Arg) (rest : List Arg) : Int32 × Option ℕ :=
  match o.longReply e rest with
  | some (code, k) => (code, some k)
  | none => o.replyFrom (e.text.drop (start e.text)) rest

/-- What becomes of an element that is an option. -/
inductive Fate where
  /-- The scan passes it and the given number of elements behind it. -/
  | passes (taken : ℕ)
  /-- A call that passes it returns -1. -/
  | stopsPast (taken : ℕ)
  /-- A call that stays within it returns -1. -/
  | stopsWithin
  deriving DecidableEq

/-- The fate after a reply, where `next` is the fate of the characters behind. -/
def settle (reply : Int32 × Option ℕ) (next : Fate) : Fate :=
  match reply with
  | (code, some k) => if code = -1 then .stopsPast k else .passes k
  | (code, none) => if code = -1 then .stopsWithin else next

def Options.groupFate : List UInt8 → List Arg → Fate
  | [], _ => .passes 0
  | p :: more, rest => settle (o.shortReply p more rest) (groupFate more rest)

def Options.fate (e : Arg) (rest : List Arg) : Fate :=
  settle (o.reply e rest) (o.groupFate (e.text.drop (start e.text + 1)) rest)

end Fates

section Elements

/-- The element does not start with a dash. -/
def Arg.plain (e : Arg) : Prop := charAt e.text 0 ≠ ascii '-'

/-- The element is a solitary dash, or two of them. -/
def Arg.dashes (e : Arg) : Prop := e.text = chars "-" ∨ e.text = chars "--"

instance (e : Arg) : Decidable e.plain := inferInstanceAs (Decidable (_ ≠ _))

instance (e : Arg) : Decidable e.dashes := inferInstanceAs (Decidable (_ ∨ _))

theorem plain_text {e : Arg} (h : ¬ e.plain) : ∃ more, e.text = ascii '-' :: more := by
  rw [Arg.plain, not_not, charAt] at h
  cases htext : e.text with
  | nil =>
    rw [htext] at h
    exact absurd h (by decide)
  | cons c more =>
    rw [htext] at h
    exact ⟨more, congrArg (· :: more) h⟩

theorem option_text {e : Arg} (hplain : ¬ e.plain) (hdashes : ¬ e.dashes) :
    ∃ p more, e.text.drop (start e.text) = p :: more := by
  obtain ⟨more, htext⟩ := plain_text hplain
  cases more with
  | nil => exact absurd (.inl htext) hdashes
  | cons c more =>
    by_cases hc : c = ascii '-'
    · cases more with
      | nil => exact absurd (.inr (by rw [htext, hc]; rfl)) hdashes
      | cons d more => exact ⟨d, more, by rw [htext, hc]; rfl⟩
    · refine ⟨c, more, ?_⟩
      have hstart : start (ascii '-' :: c :: more) = 1 := if_neg hc
      rw [htext, hstart, List.drop_succ_cons, List.drop_zero]

end Elements

section Loop
variable {st : State} {argc : ℕ} {e : Arg} {rest : List Arg} {mode : Mode} {program : List UInt8}
  {longopts : Option (List Xoption)} {only : Bool} {fuel : ℕ}

/-- Where a reply leaves the scan. -/
def Replied (st st' : State) (e : Arg) (offset : ℕ) : Option ℕ → Prop
  | some k => Advanced st st' (st.xoptind + 1 + k) none
  | none => Advanced st st' st.xoptind (some ⟨e.buffer, offset + 1⟩)

theorem scanLoop_nil (hargc : argc ≤ st.argv.length) (h : upcoming st argc = []) :
    scanLoop mode argc program longopts only (fuel + 1) st = .ok (.left st) := by
  rw [scanLoop, if_neg (Nat.not_lt.mpr ((upcoming_nil_iff hargc).mp h))]

theorem scanLoop_plain (h : upcoming st argc = e :: rest) (hcur : st.xoptcur = none) (hplain : e.plain)
    (hmode : mode.argofone = false) :
    scanLoop mode argc program longopts only (fuel + 1) st =
      if mode.permute then
        scanLoop mode argc program longopts only fuel { st with xoptind := st.xoptind + 1 }
      else .ok (.returned (-1) st) := by
  obtain ⟨hlt, hread, -⟩ := upcoming_cons h
  rw [scanLoop, if_pos hlt, hread, ok_bind, if_pos ⟨hcur, hplain⟩, hmode]
  rfl

/-- With the flag `-` an operand is the argument of an option with the code 1. -/
theorem scanLoop_argofone (h : upcoming st argc = e :: rest) (hcur : st.xoptcur = none) (hplain : e.plain)
    (hmode : mode.argofone = true) :
    scanLoop mode argc program longopts only (fuel + 1) st =
      .ok (.returned 1 { st with xoptarg := some ⟨e.buffer, 0⟩, xoptind := st.xoptind + 1 }) := by
  obtain ⟨hlt, hread, -⟩ := upcoming_cons h
  rw [scanLoop, if_pos hlt, hread, ok_bind, if_pos ⟨hcur, hplain⟩, hmode]
  rfl

theorem scanLoop_dashes (h : upcoming st argc = e :: rest) (hcur : st.xoptcur = none) (hdashes : e.dashes) :
    scanLoop mode argc program longopts only (fuel + 1) st =
      .ok (.left { st with xoptind := st.xoptind + 1 }) := by
  obtain ⟨hlt, hread, -⟩ := upcoming_cons h
  have hplain : ¬ (st.xoptcur = none ∧ e.plain) := by
    rintro ⟨-, hplain⟩
    rcases hdashes with htext | htext <;> exact hplain (by rw [htext]; rfl)
  rw [scanLoop, if_pos hlt, hread, ok_bind]
  exact (if_neg hplain).trans (if_pos ⟨hcur, hdashes⟩)

/-- A call at the start of an option gives the reply to it. -/
theorem scanLoop_option (hargc : argc ≤ st.argv.length) (h : upcoming st argc = e :: rest) (hcur : st.xoptcur = none)
    (hplain : ¬ e.plain) (hdashes : ¬ e.dashes) :
    ∃ st', scanLoop mode argc program longopts only (fuel + 1) st =
        .ok (.returned ((mode.options longopts only).reply e rest).1 st') ∧
      Replied st st' e (start e.text) ((mode.options longopts only).reply e rest).2 := by
  obtain ⟨hlt, hread, -⟩ := upcoming_cons h
  have hfirst : ¬ (st.xoptcur = none ∧ charAt e.text 0 ≠ ascii '-') := fun hp => hplain hp.2
  have hsecond : ¬ (st.xoptcur = none ∧ (e.text = chars "-" ∨ e.text = chars "--")) := fun hd => hdashes hd.2
  rw [scanLoop, if_pos hlt, hread, ok_bind, if_neg hfirst, if_neg hsecond, Options.reply]
  have hlong := longOption_eq mode program longopts only h hargc hcur
  cases hreply : (mode.options longopts only).longReply e rest with
  | some reply =>
    obtain ⟨code, k⟩ := reply
    rw [hreply] at hlong
    obtain ⟨st', hrun, hadv⟩ := hlong
    exact ⟨st', by rw [hrun]; rfl, hadv⟩
  | none =>
    rw [hreply] at hlong
    obtain ⟨p, more, hp⟩ := option_text hplain hdashes
    obtain ⟨st', hrun, hadv⟩ := shortOption_eq mode program longopts only h hargc hp
    rw [hlong, ok_bind, hp, Options.replyFrom, hcur]
    simp only
    exact ⟨st', by rw [hrun]; rfl, hadv⟩

/-- A call in the middle of an option gives the reply to the next character. -/
theorem scanLoop_within (hargc : argc ≤ st.argv.length) (h : upcoming st argc = e :: rest) {offset : ℕ}
    (hcur : st.xoptcur = some ⟨e.buffer, offset⟩) (hoffset : offset < e.text.length) :
    ∃ st', scanLoop mode argc program longopts only (fuel + 1) st =
        .ok (.returned ((mode.options longopts only).replyFrom (e.text.drop offset) rest).1 st') ∧
      Replied st st' e offset ((mode.options longopts only).replyFrom (e.text.drop offset) rest).2 := by
  obtain ⟨hlt, hread, -⟩ := upcoming_cons h
  have hsome : st.xoptcur ≠ none := by
    rw [hcur]
    exact Option.some_ne_none _
  have hlong : longOption mode argc program longopts only e st = .ok none := by rw [longOption, if_pos hsome]
  have hp := List.drop_eq_getElem_cons hoffset
  obtain ⟨st', hrun, hadv⟩ := shortOption_eq mode program longopts only h hargc hp
  rw [scanLoop, if_pos hlt, hread, ok_bind, if_neg (fun hn => hsome hn.1), if_neg (fun hn => hsome hn.1), hlong,
    ok_bind, hp, Options.replyFrom, hcur]
  simp only
  exact ⟨st', by rw [hrun]; rfl, hadv⟩

end Loop
end LibXpf.Getopt
