import LibXpf.Xpfstring.Interpretation
import LibXpf.Xpfstring.ScannerBounds

/-! # The arguments that a format takes

A format takes arguments of some kinds, which can be read off its items. With other arguments
a call goes wrong, and what stands behind them does not matter.
-/
namespace LibXpf.Xpfstring
open StepLoops

section Kinds
variable {t : CharType}

inductive ArgKind where
  | int
  | longlong
  | double
  | string
  deriving DecidableEq

def VaArg.kind : VaArg t → ArgKind
  | .int _ => .int
  | .longlong _ => .longlong
  | .double _ => .double
  | .string _ => .string

def stars (flag : Flags) : List ArgKind :=
  (if flag.WIDTH_PARAM then [.int] else []) ++ if flag.PERCISION_PARAM then [.int] else []

def numberKind (flag : Flags) (c : UInt8) : ArgKind :=
  if flag.FMT_LONGLONG then .longlong else if isFloat c then .double else .int

def conversionKinds (flag : Flags) (c : UInt8) : List ArgKind :=
  if c = ascii 'c' then stars flag ++ [.int]
  else if c = ascii '%' then stars flag
  else if c = ascii 'p' then stars flag.pointer ++ [numberKind flag.pointer (ascii 'x')]
  else if c ∈ chars "FgGeEAa" then stars flag ++ [numberKind flag (ascii 'f')]
  else if c ∈ chars "fxXodiu" then stars flag ++ [numberKind flag c]
  else if c = ascii 's' then stars flag ++ [.string]
  else []

/-- The kinds of the arguments that some items take. -/
def Item.kinds : Item t → List ArgKind
  | .text _ => []
  | .specification s => conversionKinds s.flag s.conversion

end Kinds

section Takes
variable {t : CharType} {α β : Type} {ks ks' : List ArgKind} {f : List (VaArg t) → Except Trap (α × List (VaArg t))}
  {g : α → List (VaArg t) → Except Trap (β × List (VaArg t))} {ap front rest : List (VaArg t)}

/-- A computation takes arguments of some kinds. It does not look behind them, and does not miss one. -/
structure Takes (ks : List ArgKind) (f : List (VaArg t) → Except Trap (α × List (VaArg t))) : Prop where
  here : ∀ front : List (VaArg t), front.map VaArg.kind = ks →
    ∃ x : Except Trap α, x ≠ .error .argument ∧ ∀ rest, f (front ++ rest) = x.map fun a => (a, rest)
  needed : ∀ ap r, f ap = .ok r → ks <+: ap.map VaArg.kind

theorem front_of_kinds (h : ks <+: ap.map VaArg.kind) : ∃ front rest, ap = front ++ rest ∧ front.map VaArg.kind = ks := by
  obtain ⟨more, hmore⟩ := h
  obtain ⟨front, rest, hap, hfront, -⟩ := List.map_eq_append_iff.mp hmore.symm
  exact ⟨front, rest, hap, hfront⟩

theorem takes_of_failsIn {x : Except Trap α} (h : FailsIn (· ≠ .argument) x) :
    Takes [] fun ap : List (VaArg t) => x.map fun a => (a, ap) := by
  refine ⟨fun front hfront => ⟨x, fun hx => h _ hx rfl, fun rest => ?_⟩, fun _ _ _ => List.nil_prefix⟩
  rw [List.map_eq_nil_iff.mp hfront, List.nil_append]

theorem takes_ok (a : α) : Takes [] fun ap : List (VaArg t) => .ok (a, ap) := takes_of_failsIn (x := .ok a) (by rintro e ⟨⟩)

theorem Takes.bind (hf : Takes ks f) (hg : ∀ a, Takes ks' (g a)) : Takes (ks ++ ks') fun ap => f ap >>= fun r => g r.1 r.2 := by
  constructor
  · intro front hfront
    obtain ⟨front₁, front₂, rfl, h₁, h₂⟩ := List.map_eq_append_iff.mp hfront
    obtain ⟨x, hx, hread⟩ := hf.here front₁ h₁
    cases x with
    | error e =>
      refine ⟨.error e, fun he => hx (congrArg Except.error (Except.error.inj he)), fun rest => ?_⟩
      rw [List.append_assoc, hread]
      rfl
    | ok a =>
      obtain ⟨y, hy, hmore⟩ := (hg a).here front₂ h₂
      refine ⟨y, hy, fun rest => ?_⟩
      rw [List.append_assoc, hread]
      exact hmore rest
  · intro ap r h
    obtain ⟨⟨a, rest⟩, hfirst, hsecond⟩ := ok_of_bind h
    obtain ⟨front, rest', rfl, hfront⟩ := front_of_kinds (hf.needed ap _ hfirst)
    obtain ⟨x, -, hread⟩ := hf.here front hfront
    rw [hread] at hfirst
    cases x with
    | error e => exact absurd hfirst (by rintro ⟨⟩)
    | ok a' =>
      obtain ⟨rfl, rfl⟩ := Prod.mk.inj (Except.ok.inj hfirst)
      rw [List.map_append, hfront]
      exact (List.prefix_append_right_inj ks).mpr ((hg _).needed _ r hsecond)

/-- An argument that stands at the front. -/
theorem takes_one {k : ArgKind} (hread : ∀ v : VaArg t, v.kind = k → ∃ a, ∀ rest, f (v :: rest) = .ok (a, rest))
    (hneeded : ∀ ap r, f ap = .ok r → ∃ v rest, ap = v :: rest ∧ v.kind = k) : Takes [k] f := by
  constructor
  · intro front hfront
    obtain ⟨v, rest, rfl, hv, hrest⟩ := List.map_eq_cons_iff.mp hfront
    obtain rfl := List.map_eq_nil_iff.mp hrest
    obtain ⟨a, ha⟩ := hread v hv
    exact ⟨.ok a, by rintro ⟨⟩, ha⟩
  · intro ap r h
    obtain ⟨v, rest, rfl, rfl⟩ := hneeded ap r h
    exact List.prefix_append _ _

theorem takes_int : Takes [.int] (takeInt (t := t)) := by
  refine takes_one (fun v hv => ?_) fun ap r h => ?_
  · cases v with
    | int v => exact ⟨v, fun _ => rfl⟩
    | _ => cases hv
  · rcases ap with _ | ⟨v, ap⟩
    · cases h
    · cases v with
      | int v => exact ⟨_, ap, rfl, rfl⟩
      | _ => cases h

theorem takes_longlong : Takes [.longlong] (takeLongLong (t := t)) := by
  refine takes_one (fun v hv => ?_) fun ap r h => ?_
  · cases v with
    | longlong v => exact ⟨v, fun _ => rfl⟩
    | _ => cases hv
  · rcases ap with _ | ⟨v, ap⟩
    · cases h
    · cases v with
      | longlong v => exact ⟨_, ap, rfl, rfl⟩
      | _ => cases h

theorem takes_double : Takes [.double] (takeDouble (t := t)) := by
  refine takes_one (fun v hv => ?_) fun ap r h => ?_
  · cases v with
    | double v => exact ⟨v, fun _ => rfl⟩
    | _ => cases hv
  · rcases ap with _ | ⟨v, ap⟩
    · cases h
    · cases v with
      | double v => exact ⟨_, ap, rfl, rfl⟩
      | _ => cases h

theorem takes_string : Takes [.string] (takeString (t := t)) := by
  refine takes_one (fun v hv => ?_) fun ap r h => ?_
  · cases v with
    | string buf => exact ⟨buf, fun _ => rfl⟩
    | _ => cases hv
  · rcases ap with _ | ⟨v, ap⟩
    · cases h
    · cases v with
      | string buf => exact ⟨_, ap, rfl, rfl⟩
      | _ => cases h

theorem takes_param (star : Bool) (n : Int32) : Takes (if star then [.int] else []) (param (t := t) star n) := by
  cases star with
  | true => exact takes_int
  | false => exact takes_ok n

/-- The stars come before what a conversion takes itself. -/
theorem takes_params (flag : Flags) (width percision : Int32)
    {g : Int32 → Int32 → List (VaArg t) → Except Trap (β × List (VaArg t))}
    (hg : ∀ width percision, Takes ks (g width percision)) :
    Takes (stars flag ++ ks) fun ap => params flag width percision ap >>= fun r => g r.1 r.2.1 r.2.2 := by
  have hsplit : (fun ap => params flag width percision ap >>= fun r => g r.1 r.2.1 r.2.2) = fun ap : List (VaArg t) =>
      param flag.WIDTH_PARAM width ap >>= fun r => param flag.PERCISION_PARAM percision r.2 >>= fun q => g r.1 q.1 q.2 := by
    funext ap
    rw [params]
    cases param flag.WIDTH_PARAM width ap with
    | error e => rfl
    | ok r =>
      change (((param flag.PERCISION_PARAM percision r.2 >>= _) : Except _ _) >>= _) = param flag.PERCISION_PARAM percision r.2 >>= _
      cases param flag.PERCISION_PARAM percision r.2 <;> rfl
  rw [hsplit, stars, List.append_assoc]
  exact (takes_param _ _).bind fun width => (takes_param _ _).bind fun percision => hg width percision

theorem takes_map {g : α → Except Trap β} (hf : Takes ks f) (hg : ∀ a, FailsIn (· ≠ .argument) (g a)) :
    Takes ks fun ap => f ap >>= fun r => (g r.1).map fun b => (b, r.2) :=
  List.append_nil ks ▸ hf.bind fun a => takes_of_failsIn (hg a)

/-- A function of an argument takes it. -/
theorem takes_fun (hf : Takes ks f) (g : α → β) : Takes ks fun ap => f ap >>= fun r => .ok (g r.1, r.2) :=
  takes_map (g := fun a => .ok (g a)) hf fun _ => .ok _

theorem takes_number (flag : Flags) (c : UInt8) : Takes [numberKind flag c] (takeNumber (t := t) flag c) := by
  unfold takeNumber numberKind
  by_cases hlonglong : flag.FMT_LONGLONG = true
  · simp only [if_pos hlonglong]
    exact takes_fun takes_longlong fun v => if isSigned c then Number.s64 v else .u64 v.toUInt64
  simp only [if_neg hlonglong]
  by_cases hfloat : isFloat c
  · simp only [if_pos hfloat]
    exact takes_fun takes_double Number.f64
  · simp only [if_neg hfloat]
    exact takes_fun takes_int fun v => if isSigned c then Number.s32 (shrink flag v) else .u32 (shrink flag v).toUInt32

end Takes

section Failures
variable (t : CharType)

theorem ofDecimal_argument (size : ℕ) (negative : Bool) (val : ℤ) : FailsIn (· ≠ .argument) (ofDecimal t size negative val) :=
  .ite (fun _ => .ok _) fun _ => .ite (fun _ => .ite (fun _ => .error (by rintro ⟨⟩)) fun _ => .ok _) fun _ => .ok _

theorem valstr_argument (c : UInt8) (n : Number) : FailsIn (· ≠ .argument) (n.valstr t c) := by
  cases n with
  | s32 v => exact .ite (fun _ => ofDecimal_argument t _ _ _) fun _ => ofDecimal_argument t _ _ _
  | u32 v => exact .ite (fun _ => .ok _) fun _ => .ite (fun _ => .ok _) fun _ => ofDecimal_argument t _ _ _
  | s64 v => exact .ite (fun _ => ofDecimal_argument t _ _ _) fun _ => ofDecimal_argument t _ _ _
  | u64 v => exact .ite (fun _ => .ok _) fun _ => .ite (fun _ => .ok _) fun _ => ofDecimal_argument t _ _ _
  | f64 v => exact .ite (fun _ => .ok _) fun _ => .error (by rintro ⟨⟩)

variable {t}

theorem countUnits_argument (flag : Flags) (percision : ℤ) (buf : List t.ValueType) (cnt : Int32) :
    FailsIn (· ≠ .argument) (countUnits flag percision buf cnt) := by
  induction buf generalizing cnt with
  | nil => exact .error (by rintro ⟨⟩)
  | cons u rest ih => exact .ite (fun _ => .ok _) fun _ => .ite (fun _ => .ok _) fun _ => ih _

theorem stringText_argument (flag : Flags) (width percision : ℤ) (buf : List t.ValueType) :
    FailsIn (· ≠ .argument) (stringText flag width percision buf) := by
  have hcount := countUnits_argument flag percision buf 0
  have happended : ∀ cnt, FailsIn (· ≠ .argument) (appended buf cnt) := fun cnt =>
    .ite (fun _ => .error (by rintro ⟨⟩)) fun _ => .ok _
  refine .ite (fun _ => ?_) fun _ => ?_
  · exact hcount.bind fun cnt => .ite (fun _ => happended cnt) fun _ => .ok _
  · exact hcount.bind fun cnt => (happended cnt).bind fun _ => .ok _

end Failures

section Formats
variable {t : CharType}

theorem map_of_bind {α β γ : Type} (x : Except Trap α) (g : α → β) (h : β → γ) :
    (x >>= fun a => .ok (g a)).map h = x >>= fun a => .ok (h (g a)) := by cases x <;> rfl

theorem map_eq_bind {α β : Type} (x : Except Trap α) (h : α → β) : x.map h = x >>= fun a => .ok (h a) := by cases x <;> rfl

theorem takes_printNumber (flag : Flags) (width percision : Int32) (c : UInt8) :
    Takes (stars flag ++ [numberKind flag c]) (printNumber (t := t) flag width percision c) := by
  have htakes := takes_params flag width percision fun width percision =>
    takes_map (takes_number (t := t) flag c) fun number => (valstr_argument t c number).bind fun valstr =>
      .ok (layout t.ofChar t.keeps flag width.toInt percision.toInt c valstr)
  simp only [map_of_bind] at htakes
  exact htakes

theorem takes_printString (flag : Flags) (width percision : Int32) :
    Takes (stars flag ++ [.string]) (printString (t := t) flag width percision) := by
  have htakes := takes_params flag width percision fun width percision =>
    takes_map (takes_string (t := t)) fun buf => stringText_argument flag width.toInt percision.toInt buf
  simp only [map_eq_bind] at htakes
  exact htakes

theorem takes_printChar (flag : Flags) (width percision : Int32) :
    Takes (stars flag ++ [.int]) (printChar (t := t) flag width percision) :=
  takes_params flag width percision fun width _ => takes_fun takes_int (charText t flag width.toInt)

theorem takes_printPercent (flag : Flags) (width percision : Int32) :
    Takes (stars flag) (printPercent (t := t) flag width percision) :=
  List.append_nil (stars flag) ▸ takes_params flag width percision fun _ _ => takes_ok [t.ofChar (ascii '%')]

theorem takes_convert (flag : Flags) (width percision : Int32) (c : UInt8) :
    Takes (conversionKinds flag c) (convert (t := t) flag width percision c) := by
  unfold convert conversionKinds
  by_cases hc : c = ascii 'c'
  · simp only [if_pos hc]
    exact takes_printChar flag width percision
  simp only [if_neg hc]
  by_cases hpercent : c = ascii '%'
  · simp only [if_pos hpercent]
    exact takes_printPercent flag width percision
  simp only [if_neg hpercent]
  by_cases hp : c = ascii 'p'
  · simp only [if_pos hp]
    exact takes_printNumber flag.pointer width _ (ascii 'x')
  simp only [if_neg hp]
  by_cases hfloat : c ∈ chars "FgGeEAa"
  · simp only [if_pos hfloat]
    exact takes_printNumber flag width percision (ascii 'f')
  simp only [if_neg hfloat]
  by_cases hnumber : c ∈ chars "fxXodiu"
  · simp only [if_pos hnumber]
    exact takes_printNumber flag width percision c
  simp only [if_neg hnumber]
  by_cases hs : c = ascii 's'
  · simp only [if_pos hs]
    exact takes_printString flag width percision
  · simp only [if_neg hs]
    exact takes_ok []

/-- The items take the arguments of their kinds, one item after the other. -/
theorem takes_interpret (xs : List (Item t)) : Takes (xs.flatMap Item.kinds) (interpret xs) := by
  induction xs with
  | nil => exact takes_ok []
  | cons x xs ih =>
    cases x with
    | text ch =>
      have htakes := takes_fun ih fun more => ch :: more
      exact htakes
    | specification s =>
      have htakes := (takes_convert s.flag (Specification.number s.width) (Specification.number (s.percision.getD [])) s.conversion).bind
        fun text => takes_fun ih fun more => text ++ more
      exact htakes

/-- A call that returns was given arguments of the kinds that its format takes. With such arguments no call
misses one, and no call looks at those behind them. -/
theorem printf_arguments (t : CharType) (body : List t.ValueType) (ap : List (VaArg t)) :
    (∀ r, printf (body ++ [0]) ap = .ok r → (items (body.takeWhile (· ≠ 0))).flatMap Item.kinds <+: ap.map VaArg.kind) ∧
      ((items (body.takeWhile (· ≠ 0))).flatMap Item.kinds <+: ap.map VaArg.kind →
        printf (body ++ [0]) ap ≠ .error .argument ∧
          printf (body ++ [0]) ap =
            printf (body ++ [0]) (ap.take ((items (body.takeWhile (· ≠ 0))).flatMap Item.kinds).length)) := by
  have htakes := takes_interpret (items (body.takeWhile (· ≠ 0)))
  generalize (items (body.takeWhile (· ≠ 0))).flatMap Item.kinds = ks at htakes ⊢
  constructor
  · intro r h
    rw [printf_interprets] at h
    cases hx : interpret (items (body.takeWhile (· ≠ 0))) ap with
    | error e =>
      rw [hx] at h
      exact absurd h (by rintro ⟨⟩)
    | ok q => exact htakes.needed ap q hx
  · intro hkinds
    obtain ⟨front, rest, rfl, hfront⟩ := front_of_kinds hkinds
    obtain ⟨x, hx, hread⟩ := htakes.here front hfront
    have hlength : front.length = ks.length := by rw [← hfront, List.length_map]
    have hfirst := hread []
    rw [List.append_nil] at hfirst
    rw [← hlength, List.take_left, printf_interprets, printf_interprets, hread, hfirst]
    cases x with
    | error e => exact ⟨fun he => hx (congrArg Except.error (Except.error.inj he)), rfl⟩
    | ok a => exact ⟨by rintro ⟨⟩, rfl⟩

end Formats
end LibXpf.Xpfstring
