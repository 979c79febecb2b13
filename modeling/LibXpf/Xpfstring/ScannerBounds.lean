import LibXpf.Xpfstring.Scanning

/-! # The scanner within its format

Four states move the pointer back and one looks ahead, so what the scanner has done is
measured by the characters that are left and by the state. Within a specification the
pointer is behind the percent sign, and no state but the text is entered at the start.
-/
namespace LibXpf.Xpfstring
open Buffers StepLoops

/-- A failure that is not one of the scanner: it comes from the arguments or the text of one. -/
def Trap.OfArguments (e : Trap) : Prop := e ≠ .diverges ∧ e ≠ .formatBounds

section Arguments
variable {t : CharType}

theorem takeInt_failsIn (ap : List (VaArg t)) : FailsIn Trap.OfArguments (takeInt ap) := by
  unfold takeInt
  split
  · exact .ok _
  · exact .error ⟨nofun, nofun⟩

theorem takeLongLong_failsIn (ap : List (VaArg t)) : FailsIn Trap.OfArguments (takeLongLong ap) := by
  unfold takeLongLong
  split
  · exact .ok _
  · exact .error ⟨nofun, nofun⟩

theorem takeDouble_failsIn (ap : List (VaArg t)) : FailsIn Trap.OfArguments (takeDouble ap) := by
  unfold takeDouble
  split
  · exact .ok _
  · exact .error ⟨nofun, nofun⟩

theorem takeString_failsIn (ap : List (VaArg t)) : FailsIn Trap.OfArguments (takeString ap) := by
  unfold takeString
  split
  · exact .ok _
  · exact .error ⟨nofun, nofun⟩

theorem takeNumber_failsIn (flag : Flags) (c : UInt8) (ap : List (VaArg t)) :
    FailsIn Trap.OfArguments (takeNumber flag c ap) := by
  refine .ite (fun _ => ?_) fun _ => .ite (fun _ => ?_) fun _ => ?_
  · exact (takeLongLong_failsIn ap).bind fun _ => .ok _
  · exact (takeDouble_failsIn ap).bind fun _ => .ok _
  · exact (takeInt_failsIn ap).bind fun _ => .ok _

theorem readParams_failsIn (m : Machine t) : FailsIn Trap.OfArguments m.readParams := by
  have hparam : ∀ star n (ap : List (VaArg t)), FailsIn Trap.OfArguments (param star n ap) := fun star n ap =>
    .ite (fun _ => takeInt_failsIn ap) fun _ => .ok _
  exact (hparam _ _ _).bind fun _ => (hparam _ _ _).bind fun _ => .ok _

end Arguments

section Texts
variable (t : CharType)

theorem ofDecimal_failsIn (size : ℕ) (negative : Bool) (val : ℤ) : FailsIn Trap.OfArguments (ofDecimal t size negative val) := by
  refine .ite (fun _ => .ok _) fun _ => .ite (fun _ => ?_) fun _ => .ok _
  exact .ite (fun _ => .error ⟨nofun, nofun⟩) fun _ => .ok _

theorem valstr_failsIn (c : UInt8) (n : Number) : FailsIn Trap.OfArguments (n.valstr t c) := by
  cases n with
  | s32 v => exact .ite (fun _ => ofDecimal_failsIn t _ _ _) fun _ => ofDecimal_failsIn t _ _ _
  | u32 v => exact .ite (fun _ => .ok _) fun _ => .ite (fun _ => .ok _) fun _ => ofDecimal_failsIn t _ _ _
  | s64 v => exact .ite (fun _ => ofDecimal_failsIn t _ _ _) fun _ => ofDecimal_failsIn t _ _ _
  | u64 v => exact .ite (fun _ => .ok _) fun _ => .ite (fun _ => .ok _) fun _ => ofDecimal_failsIn t _ _ _
  | f64 v => exact .ite (fun _ => .ok _) fun _ => .error ⟨nofun, nofun⟩

variable {t}

theorem countUnits_failsIn (flag : Flags) (percision : ℤ) (buf : List t.ValueType) (cnt : Int32) :
    FailsIn Trap.OfArguments (countUnits flag percision buf cnt) := by
  induction buf generalizing cnt with
  | nil => exact .error ⟨nofun, nofun⟩
  | cons u rest ih => exact .ite (fun _ => .ok _) fun _ => .ite (fun _ => .ok _) fun _ => ih _

theorem stringText_failsIn (flag : Flags) (width percision : ℤ) (buf : List t.ValueType) :
    FailsIn Trap.OfArguments (stringText flag width percision buf) := by
  have hcount := countUnits_failsIn flag percision buf 0
  have happended : ∀ cnt, FailsIn Trap.OfArguments (appended buf cnt) := fun cnt =>
    .ite (fun _ => .error ⟨nofun, nofun⟩) fun _ => .ok _
  refine .ite (fun _ => ?_) fun _ => ?_
  · exact hcount.bind fun cnt => .ite (fun _ => happended cnt) fun _ => .ok _
  · exact hcount.bind fun cnt => (happended cnt).bind fun _ => .ok _

end Texts

section Scanner
variable {t : CharType} {body : List t.ValueType} {m m' : Machine t} {c : UInt8}

theorem number_failsIn (m : Machine t) (c : UInt8) : FailsIn Trap.OfArguments (m.number c) :=
  (readParams_failsIn m).bind fun _ => (takeNumber_failsIn _ _ _).bind fun _ => (valstr_failsIn t _ _).bind fun _ => .ok _

theorem spec_failsIn (m : Machine t) (c : UInt8) : FailsIn Trap.OfArguments (m.spec c) := by
  refine .ite (fun _ => ?_) fun _ => .ite (fun _ => ?_) fun _ => .ite (fun _ => ?_) fun _ => .ite (fun _ => ?_) fun _ =>
    .ite (fun _ => ?_) fun _ => .ite (fun _ => ?_) fun _ => .ok _
  · exact (readParams_failsIn m).bind fun _ => (takeInt_failsIn _).bind fun _ => .ok _
  · exact (readParams_failsIn m).bind fun _ => .ok _
  · exact number_failsIn _ _
  · exact number_failsIn _ _
  · exact number_failsIn _ _
  · exact (readParams_failsIn m).bind fun _ => (takeString_failsIn _).bind fun _ => (stringText_failsIn _ _ _ _).bind fun _ => .ok _

/-- The pointer is not behind the null, and behind a character within a specification. -/
structure Within (body : List t.ValueType) (m : Machine t) : Prop where
  place : m.p ≤ body.length
  state : m.state ≠ .ST_TEXT → 0 < m.p

theorem back_failsIn (state : ParseState) (hp : 0 < m.p) : FailsIn Trap.OfArguments (m.back state) := by
  rw [Machine.back, if_neg hp.ne']
  exact .ok _

/-- The place behind a character of the format can be read. -/
theorem read_next_failsIn (h : m.p < body.length) : FailsIn Trap.OfArguments (read Trap.formatBounds (body ++ [0]) (m.p + 1)) := by
  rw [read_lt (by rw [List.length_append, List.length_singleton]; omega)]
  exact .ok _

theorem subspec_failsIn (h : m.p < body.length) (hp : 0 < m.p) (c : UInt8) :
    FailsIn Trap.OfArguments (m.subspec (body ++ [0]) c) := by
  refine .ite (fun _ => ?_) fun _ => .ite (fun _ => ?_) fun _ => .ite (fun _ => .ok _) fun _ => back_failsIn .ST_SPEC hp
  · exact (read_next_failsIn h).bind fun _ => .ite (fun _ => .ok _) fun _ => .ok _
  · exact (read_next_failsIn h).bind fun _ => .ite (fun _ => .ok _) fun _ => .ok _

theorem examine_failsIn (hm : Within body m) (h : m.p < body.length) (ch : t.ValueType) :
    FailsIn Trap.OfArguments (m.examine (body ++ [0]) ch) := by
  rw [Machine.examine]
  cases hstate : m.state with
  | ST_TEXT => exact .ite (fun _ => .ok _) fun _ => .ok _
  | ST_FLAGS =>
    have hp : 0 < m.p := hm.state (by rw [hstate]; rintro ⟨⟩)
    simp only [Machine.flags]
    split
    · exact .ok _
    · exact back_failsIn .ST_WIDTH hp
  | ST_WIDTH =>
    have hp : 0 < m.p := hm.state (by rw [hstate]; rintro ⟨⟩)
    exact .ite (fun _ => .ok _) fun _ => .ite (fun _ => .ok _) fun _ => .ite (fun _ => .ok _) fun _ => back_failsIn .ST_SUBSPEC hp
  | ST_PERCISION =>
    have hp : 0 < m.p := hm.state (by rw [hstate]; rintro ⟨⟩)
    exact .ite (fun _ => .ok _) fun _ => .ite (fun _ => .ok _) fun _ => back_failsIn .ST_SUBSPEC hp
  | ST_SUBSPEC => exact subspec_failsIn h (hm.state (by rw [hstate]; rintro ⟨⟩)) _
  | ST_SPEC => exact spec_failsIn m _

/-- The scanner reads at its place, and at the next one if there is one. -/
theorem step_failsIn (hm : Within body m) : FailsIn Trap.OfArguments (m.step (body ++ [0])) := by
  have hlt : m.p < (body ++ [0]).length := by
    have hplace := hm.place
    rw [List.length_append, List.length_singleton]
    omega
  rw [Machine.step, read_lt hlt]
  refine .ite (fun _ => .ok _) fun hch => ?_
  have hp : m.p < body.length := by
    by_contra hend
    have hplace : m.p = body.length := le_antisymm hm.place (Nat.not_lt.mp hend)
    refine hch ?_
    rw [List.getElem_append_right (Nat.not_lt.mp hend)]
    simp only [hplace, Nat.sub_self, List.getElem_cons_zero]
  exact (examine_failsIn hm hp _).bind fun _ => .ok _

/-- No more than one character is passed, unless a letter stands there twice. -/
theorem next_passed (state : ParseState) (c : UInt8) (repeated : Bool) :
    (state.next c repeated).2 ≤ 1 ∨ (state.next c repeated).2 = 2 ∧ c ≠ 0 ∧ repeated = true := by
  cases state with
  | ST_SUBSPEC =>
    rw [ParseState.next]
    split
    next hletter =>
      cases repeated with
      | false => exact .inl le_rfl
      | true =>
        refine .inr ⟨rfl, ?_, rfl⟩
        rintro rfl
        exact absurd hletter (by decide)
    next => split <;> exact .inl (by decide)
  | ST_SPEC => exact .inl le_rfl
  | _ =>
    refine .inl ?_
    simp only [ParseState.next]
    split_ifs <;> decide

theorem next_text (c : UInt8) (repeated : Bool) : (ParseState.ST_TEXT.next c repeated).2 = 1 := by
  rw [ParseState.next]
  split <;> rfl

theorem getElem?_null (body : List t.ValueType) : (body ++ [0])[body.length]? = some 0 := by
  rw [List.getElem?_append_right le_rfl, Nat.sub_self, List.getElem?_cons_zero]

theorem step_within (hm : Within body m) (h : Leads (Machine.step (body ++ [0])) m m') : Within body m' := by
  obtain ⟨ch, hget, hch, -, hp, -⟩ := step_moves h
  have hlt : m.p < body.length := by
    refine lt_of_le_of_ne hm.place fun hend => ?_
    rw [hend, getElem?_null] at hget
    exact hch (Option.some.inj hget).symm
  have hpassed := next_passed m.state (t.narrow ch) (repeatedAt (body ++ [0]) m.p (t.narrow ch))
  have hbound : m'.p ≤ body.length := by
    rcases hpassed with hone | ⟨htwo, hletter, hrepeated⟩
    · omega
    · have hnext : (body ++ [0])[m.p + 1]? = some (t.ofChar (t.narrow ch)) := of_decide_eq_true hrepeated
      have hne : m.p + 1 ≠ body.length := by
        intro hend
        rw [hend, getElem?_null, Option.some_inj] at hnext
        exact hletter (CharType.ofChar_eq_zero.mp hnext.symm)
      omega
  refine ⟨hbound, fun _ => ?_⟩
  by_cases htext : m.state = .ST_TEXT
  · rw [htext, next_text] at hp
    omega
  · have hpos := hm.state htext
    omega

/-- The scanner comes to its end, stays between the start of the format and the null, and reads no further. -/
theorem scanner_in_bounds (t : CharType) (body : List t.ValueType) (ap : List (VaArg t)) :
    (∀ m, Visits (Machine.step (body ++ [0])) (Machine.start ap) m →
        m.p ≤ body.length ∧ m.step (body ++ [0]) ≠ .error .formatBounds) ∧
      (¬ ∃ run : ℕ → Machine t, ∀ i, Leads (Machine.step (body ++ [0])) (run i) (run (i + 1))) ∧
      printf (body ++ [0]) ap ≠ .error .diverges ∧ printf (body ++ [0]) ap ≠ .error .formatBounds := by
  have hkeep : ∀ m m', Within body m → Leads (Machine.step (body ++ [0])) m m' → Within body m' := fun _ _ => step_within
  have hstart : Within body (Machine.start ap) := ⟨Nat.zero_le _, fun h => absurd rfl h⟩
  have hfuel : (Machine.start ap).size (body ++ [0]) < 6 * (body ++ [0]).length + 1 := Nat.lt_succ_self _
  have hprintf : FailsIn Trap.OfArguments (printf (body ++ [0]) ap) :=
    (loop_failsIn hkeep (fun _ => step_failsIn) (fun _ _ => step_size) hstart hfuel).bind fun _ => .ok _
  refine ⟨fun m hvisits => ?_, ?_, fun h => (hprintf _ h).1 rfl, fun h => (hprintf _ h).2 rfl⟩
  · have hm : Within body m := visits_keeps hkeep hstart hvisits
    exact ⟨hm.place, fun h => (step_failsIn hm _ h).2 rfl⟩
  · rintro ⟨run, hrun⟩
    exact no_endless_run (fun _ _ => step_size) run hrun

end Scanner
end LibXpf.Xpfstring
