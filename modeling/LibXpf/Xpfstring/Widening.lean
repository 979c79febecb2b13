import LibXpf.Xpfstring.CanonicalNumerals
import LibXpf.Xpfstring.Layouts
import LibXpf.Xpfstring.Scanning

/-! # A call over a wider type of characters

The machine over any type takes the same steps as the one over `c8`, and appends the same
characters in every step, unless the text of a zero vanishes or a character is too wide.
-/
namespace LibXpf.Xpfstring
open Buffers StepLoops

section Characters
variable {t : CharType}

/-- A character of `c8` as one of another type. -/
def CharType.widen (t : CharType) (u : CharType.c8.ValueType) : t.ValueType := t.ofChar (CharType.c8.narrow u)

theorem widen_comp (t : CharType) : t.widen ∘ CharType.c8.ofChar = t.ofChar := by
  funext c
  rw [Function.comp_apply, CharType.widen, CharType.narrow_ofChar]

@[simp] theorem widen_ofChar (t : CharType) (c : UInt8) : t.widen (CharType.c8.ofChar c) = t.ofChar c :=
  congrFun (widen_comp t) c

@[simp] theorem narrow_widen (t : CharType) (u : CharType.c8.ValueType) : t.narrow (t.widen u) = CharType.c8.narrow u :=
  t.narrow_ofChar _

theorem widen_eq_ofChar (t : CharType) (u : CharType.c8.ValueType) (c : UInt8) :
    t.widen u = t.ofChar c ↔ u = CharType.c8.ofChar c := by
  rw [CharType.widen, CharType.ofChar_inj, ← CharType.ofChar_inj (t := .c8), CharType.ofChar_c8]

theorem widen_eq_zero (t : CharType) (u : CharType.c8.ValueType) : t.widen u = 0 ↔ u = 0 := by
  rw [← t.ofChar_zero, widen_eq_ofChar, CharType.ofChar_zero]

def VaArg.widen (t : CharType) : VaArg .c8 → VaArg t
  | .int v => .int v
  | .longlong v => .longlong v
  | .double v => .double v
  | .string buf => .string (buf.map t.widen)

/-- The machine over the type in the state of the one over `c8`, with a string of its own. -/
def Machine.over (t : CharType) (m : Machine .c8) (str : List t.ValueType) : Machine t :=
  ⟨m.p, m.state, m.width, m.percision, m.flag, m.ap.map (VaArg.widen t), str⟩

end Characters

section Arguments
variable {t : CharType} {ap : List (VaArg .c8)} {flag : Flags} {c : UInt8}

/-- What is taken from the arguments, over the other type. -/
def overRest {γ : Type} (t : CharType) (r : γ × List (VaArg .c8)) : γ × List (VaArg t) := (r.1, r.2.map (VaArg.widen t))

theorem takeInt_widen (ap : List (VaArg .c8)) : takeInt (ap.map (VaArg.widen t)) = (takeInt ap).map (overRest t) := by
  cases ap with
  | nil => rfl
  | cons arg ap => cases arg <;> rfl

theorem takeLongLong_widen (ap : List (VaArg .c8)) :
    takeLongLong (ap.map (VaArg.widen t)) = (takeLongLong ap).map (overRest t) := by
  cases ap with
  | nil => rfl
  | cons arg ap => cases arg <;> rfl

theorem takeDouble_widen (ap : List (VaArg .c8)) :
    takeDouble (ap.map (VaArg.widen t)) = (takeDouble ap).map (overRest t) := by
  cases ap with
  | nil => rfl
  | cons arg ap => cases arg <;> rfl

theorem takeString_widen (ap : List (VaArg .c8)) :
    takeString (ap.map (VaArg.widen t)) = (takeString ap).map fun r => (r.1.map t.widen, r.2.map (VaArg.widen t)) := by
  cases ap with
  | nil => rfl
  | cons arg ap => cases arg <;> rfl

theorem takeNumber_widen (ap : List (VaArg .c8)) :
    takeNumber flag c (ap.map (VaArg.widen t)) = (takeNumber flag c ap).map (overRest t) := by
  rw [takeNumber, takeNumber, takeLongLong_widen, takeDouble_widen, takeInt_widen]
  by_cases hlong : flag.FMT_LONGLONG
  · rw [if_pos hlong, if_pos hlong]
    cases takeLongLong ap <;> rfl
  by_cases hfloat : isFloat c
  · rw [if_neg hlong, if_pos hfloat, if_neg hlong, if_pos hfloat]
    cases takeDouble ap <;> rfl
  · rw [if_neg hlong, if_neg hfloat, if_neg hlong, if_neg hfloat]
    cases takeInt ap <;> rfl

theorem param_widen (star : Bool) (n : Int32) (ap : List (VaArg .c8)) :
    param star n (ap.map (VaArg.widen t)) = (param star n ap).map (overRest t) := by
  rw [param, param]
  split
  · exact takeInt_widen ap
  · rfl

theorem readParams_over (m : Machine .c8) (str : List t.ValueType) :
    (m.over t str).readParams = m.readParams.map fun m' => m'.over t str := by
  rw [Machine.readParams, Machine.readParams, Machine.over]
  simp only
  rw [param_widen]
  cases param m.flag.WIDTH_PARAM m.width m.ap with
  | error e => rfl
  | ok r =>
    obtain ⟨width, ap⟩ := r
    change (param m.flag.PERCISION_PARAM m.percision (ap.map (VaArg.widen t)) >>= _) =
      (param m.flag.PERCISION_PARAM m.percision ap >>= _).map _
    rw [param_widen]
    cases param m.flag.PERCISION_PARAM m.percision ap <;> rfl

end Arguments

section Matching
variable {t : CharType} {m m' : Machine .c8} {str : List t.ValueType} {c : UInt8}

/-- What a part of a step comes to over the other type. The text that it appends is not shorter, and it is
the same one if and only if the part is a good one. -/
def Matches (t : CharType) (good : Prop) (m : Machine .c8) (str : List t.ValueType) (r8 : Except Trap (Machine .c8))
    (r : Except Trap (Machine t)) : Prop :=
  match r8 with
  | .error e => r = .error e
  | .ok m' => ∃ x8 x, m'.str = m.str ++ x8 ∧ r = .ok (m'.over t (str ++ x)) ∧ x8.length ≤ x.length ∧
      (x8.map t.widen = x ↔ good)

theorem matches_keep (h : m'.str = m.str) : Matches t True m str (.ok m') (.ok (m'.over t str)) :=
  ⟨[], [], by rw [h, List.append_nil], by rw [List.append_nil], le_rfl, iff_of_true rfl trivial⟩

/-- The end of a specification, with the same text. -/
theorem matches_finish (ap : List (VaArg .c8)) (x8 : List CharType.c8.ValueType) (h : m'.str = m.str) :
    Matches t True m str (.ok (m'.finish ap x8))
      (.ok ((m'.over t str).finish (ap.map (VaArg.widen t)) (x8.map t.widen))) :=
  ⟨x8, x8.map t.widen, congrArg (· ++ x8) h, rfl, (List.length_map _).ge, iff_of_true rfl trivial⟩

theorem matches_back (state : ParseState) : Matches t True m str (m.back state) ((m.over t str).back state) := by
  have hover : (m.over t str).p = m.p := rfl
  rw [Machine.back, Machine.back, hover]
  by_cases hp : m.p = 0
  · rw [if_pos hp, if_pos hp]
    rfl
  · rw [if_neg hp, if_neg hp]
    exact matches_keep rfl

theorem matches_flags : Matches t True m str (m.flags c) ((m.over t str).flags c) := by
  have hover : (m.over t str).flag = m.flag := rfl
  rw [Machine.flags, Machine.flags, hover]
  cases m.flag.mark c with
  | some flag => exact matches_keep rfl
  | none => exact matches_back .ST_WIDTH

theorem matches_widths : Matches t True m str (m.widths c) ((m.over t str).widths c) := by
  rw [Machine.widths, Machine.widths]
  repeat' split
  all_goals first | exact matches_keep rfl | exact matches_back .ST_SUBSPEC

theorem matches_percisions : Matches t True m str (m.percisions c) ((m.over t str).percisions c) := by
  rw [Machine.percisions, Machine.percisions]
  repeat' split
  all_goals first | exact matches_keep rfl | exact matches_back .ST_SUBSPEC

theorem read_widen (format : List CharType.c8.ValueType) (i : ℕ) :
    read Trap.formatBounds (format.map t.widen) i = (read Trap.formatBounds format i).map t.widen := by
  rw [Buffers.read, Buffers.read, List.getElem?_map]
  cases format[i]? <;> rfl

theorem matches_subspec (format : List CharType.c8.ValueType) :
    Matches t True m str (m.subspec format c) ((m.over t str).subspec (format.map t.widen) c) := by
  have hnext : ∀ d, ∀ yes no : Machine .c8, yes.str = m.str → no.str = m.str →
      Matches t True m str
        (do let next ← read .formatBounds format (m.p + 1)
            if next = CharType.c8.ofChar d then .ok yes else .ok no)
        (do let next ← read .formatBounds (format.map t.widen) (m.p + 1)
            if next = t.ofChar d then .ok (yes.over t str) else .ok (no.over t str)) := by
    intro d yes no hyes hno
    rw [read_widen]
    cases read Trap.formatBounds format (m.p + 1) with
    | error e => rfl
    | ok next =>
      change Matches t True m str (if next = CharType.c8.ofChar d then .ok yes else .ok no)
        (if t.widen next = t.ofChar d then .ok (yes.over t str) else .ok (no.over t str))
      by_cases h : next = CharType.c8.ofChar d
      · rw [if_pos h, if_pos ((widen_eq_ofChar t next d).mpr h)]
        exact matches_keep hyes
      · rw [if_neg h, if_neg ((widen_eq_ofChar t next d).not.mpr h)]
        exact matches_keep hno
  rw [Machine.subspec, Machine.subspec]
  by_cases hl : c = ascii 'l'
  · rw [if_pos hl, if_pos hl]
    exact hnext (ascii 'l') _ _ rfl rfl
  by_cases hh : c = ascii 'h'
  · rw [if_neg hl, if_pos hh, if_neg hl, if_pos hh]
    exact hnext (ascii 'h') _ _ rfl rfl
  · rw [if_neg hl, if_neg hh, if_neg hl, if_neg hh]
    split
    · exact matches_keep rfl
    · exact matches_back .ST_SPEC

theorem countUnits_widen (flag : Flags) (percision : ℤ) (buf : List CharType.c8.ValueType) (cnt : Int32) :
    countUnits flag percision (buf.map t.widen) cnt = countUnits flag percision buf cnt := by
  induction buf generalizing cnt with
  | nil => rfl
  | cons u rest ih =>
    rw [List.map_cons, countUnits, countUnits, ih]
    simp only [widen_eq_zero]

theorem appended_widen (buf : List CharType.c8.ValueType) (cnt : ℤ) :
    appended (buf.map t.widen) cnt = (appended buf cnt).map (List.map t.widen) := by
  rw [appended, appended]
  split
  · rfl
  · rw [← List.map_take]
    rfl

theorem stringText_widen (flag : Flags) (width percision : ℤ) (buf : List CharType.c8.ValueType) :
    stringText flag width percision (buf.map t.widen) = (stringText flag width percision buf).map (List.map t.widen) := by
  rw [stringText, stringText, countUnits_widen]
  by_cases hplain : ¬ flag.WIDTH_SPECIFIED = true ∧ ¬ flag.PERCISION_SPECIFIED = true
  · rw [if_pos hplain, if_pos hplain]
    cases countUnits flag percision buf 0 with
    | error e => rfl
    | ok cnt =>
      change (if cnt > 0 then appended (buf.map t.widen) cnt else .ok []) =
        (if cnt > 0 then appended buf cnt else .ok []).map (List.map t.widen)
      rw [appended_widen]
      split <;> rfl
  · rw [if_neg hplain, if_neg hplain]
    cases countUnits flag percision buf 0 with
    | error e => rfl
    | ok cnt =>
      change (appended (buf.map t.widen) cnt >>= _) = (appended buf cnt >>= _).map (List.map t.widen)
      rw [appended_widen]
      cases appended buf cnt with
      | error e => rfl
      | ok text =>
        have hblank : t.ofChar (ascii ' ') = t.widen (CharType.c8.ofChar (ascii ' ')) := (widen_ofChar t _).symm
        refine congrArg Except.ok ?_
        rw [hblank, ← List.map_replicate]
        simp only [apply_ite (List.map t.widen), List.map_append, List.map_nil]

/-- The argument of the specifier `c` is a null, or it is the same character in both types. -/
def CharAgrees (t : CharType) (m : Machine .c8) : Prop :=
  ∀ m' v ap, m.readParams = .ok m' → takeInt m'.ap = .ok (v, ap) → v = 0 ∨ t.widen (CharType.c8.ofInt v) = t.ofInt v

/-- The number of a specification is not a zero for which the percision is zero, or the type is `c8`. -/
def NumberAgrees (t : CharType) (m : Machine .c8) (c : UInt8) : Prop :=
  ∀ m' number ap, m.readParams = .ok m' → takeNumber m'.flag c m'.ap = .ok (number, ap) →
    ¬ (t ≠ .c8 ∧ m'.flag.PERCISION_SPECIFIED ∧ m'.percision = 0 ∧ ¬ isFloat c ∧ number.Zero)

theorem charText_widen (t : CharType) (flag : Flags) (width : ℤ) (v : Int32) :
    (charText .c8 flag width v).length = (charText t flag width v).length ∧
      ((charText .c8 flag width v).map t.widen = charText t flag width v ↔
        v = 0 ∨ t.widen (CharType.c8.ofInt v) = t.ofInt v) := by
  have hpad : (List.replicate (width - 1).toNat (CharType.c8.ofChar (ascii ' '))).map t.widen =
      List.replicate (width - 1).toNat (t.ofChar (ascii ' ')) := by rw [List.map_replicate, widen_ofChar]
  rw [charText, charText]
  simp only [apply_ite (List.map t.widen), List.map_append, hpad, List.map_cons, List.map_nil]
  by_cases hv : v = 0
  · simp [hv]
  · have hsingle : [t.widen (CharType.c8.ofInt v)] = [t.ofInt v] ↔ t.widen (CharType.c8.ofInt v) = t.ofInt v := by
      rw [List.cons.injEq, and_iff_left rfl]
    simp only [if_pos hv, or_iff_right hv, ne_eq]
    split
    · rw [List.append_left_inj, hsingle]
      exact ⟨by simp, Iff.rfl⟩
    · rw [List.append_right_inj, hsingle]
      exact ⟨by simp, Iff.rfl⟩

theorem matches_char (t : CharType) (m : Machine .c8) (str : List t.ValueType) :
    Matches t (CharAgrees t m) m str
      (do let m ← m.readParams
          let (v, ap) ← takeInt m.ap
          .ok (m.finish ap (charText .c8 m.flag m.width.toInt v)))
      (do let m ← (m.over t str).readParams
          let (v, ap) ← takeInt m.ap
          .ok (m.finish ap (charText t m.flag m.width.toInt v))) := by
  rw [readParams_over]
  cases hparams : m.readParams with
  | error e => rfl
  | ok m' =>
    change Matches t _ m str (takeInt m'.ap >>= _) (takeInt (m'.ap.map (VaArg.widen t)) >>= _)
    rw [takeInt_widen]
    cases hint : takeInt m'.ap with
    | error e => rfl
    | ok r =>
      obtain ⟨v, ap⟩ := r
      obtain ⟨hlen, htext⟩ := charText_widen t m'.flag m'.width.toInt v
      refine ⟨_, _, congrArg (· ++ _) (readParams_same hparams).2, rfl, hlen.le, htext.trans ?_⟩
      constructor
      · intro h m'' v' ap' hm'' hv'
        obtain rfl : m' = m'' := Except.ok.inj (hparams.symm.trans hm'')
        obtain ⟨rfl, -⟩ := Prod.mk.inj (Except.ok.inj (hint.symm.trans hv'))
        exact h
      · exact fun h => h m' v ap hparams hint

/-- Only the specifier of floats takes a float. -/
theorem takeNumber_float {flag : Flags} {ap ap' : List (VaArg .c8)} {v : F64}
    (h : takeNumber flag c ap = .ok (.f64 v, ap')) : isFloat c := by
  by_contra hfloat
  rw [takeNumber, if_neg hfloat] at h
  by_cases hlong : flag.FMT_LONGLONG = true
  · rw [if_pos hlong] at h
    obtain ⟨_, -, h⟩ := ok_of_bind h
    have hnumber := congrArg Prod.fst (Except.ok.inj h)
    simp only at hnumber
    split at hnumber <;> exact absurd hnumber (by rintro ⟨⟩)
  · rw [if_neg hlong] at h
    obtain ⟨_, -, h⟩ := ok_of_bind h
    have hnumber := congrArg Prod.fst (Except.ok.inj h)
    simp only at hnumber
    split at hnumber <;> exact absurd hnumber (by rintro ⟨⟩)

theorem isZero_text {number : Number} (hint : ∀ v, number ≠ .f64 v) : isZero id (number.text c) ↔ number.Zero := by
  constructor
  · rintro ⟨hhead, -⟩
    refine (number.zeroHead_text c hint).mp ?_
    cases htext : number.text c with
    | nil =>
      rw [htext] at hhead
      exact absurd hhead (by decide)
    | cons d rest =>
      rw [htext] at hhead
      exact congrArg some hhead
  · intro hzero
    rw [number.text_zero c hzero]
    exact ⟨rfl, rfl⟩

theorem layout_widen (t : CharType) (flag : Flags) (width : Int32) (percision : ℤ) (c : UInt8) (s : List UInt8) :
    (layout id false flag width.toInt percision c s).length ≤ (layout id t.keeps flag width.toInt percision c s).length ∧
      (layout id false flag width.toInt percision c s = layout id t.keeps flag width.toInt percision c s ↔
        ¬ (t ≠ .c8 ∧ Vanishes flag percision c s)) := by
  by_cases ht : t = .c8
  · subst ht
    exact ⟨le_rfl, iff_of_true rfl fun h => h.1 rfl⟩
  · have hkeeps : t.keeps = true := decide_eq_true ht
    rw [hkeeps]
    by_cases hvanish : Vanishes flag percision c s
    · obtain ⟨hlen, hne⟩ := layout_vanishes width.le_toInt width.toInt_lt hvanish
      exact ⟨hlen, iff_of_false hne fun h => h ⟨ht, hvanish⟩⟩
    · rw [layout_keeps hvanish]
      exact ⟨le_rfl, iff_of_true rfl fun h => hvanish h.2⟩

theorem matches_number (t : CharType) (m : Machine .c8) (str : List t.ValueType) (c : UInt8) :
    Matches t (NumberAgrees t m c) m str (m.number c) ((m.over t str).number c) := by
  rw [Machine.number, Machine.number, readParams_over]
  cases hparams : m.readParams with
  | error e => rfl
  | ok m' =>
    change Matches t _ m str (takeNumber m'.flag c m'.ap >>= _)
      (takeNumber m'.flag c (m'.ap.map (VaArg.widen t)) >>= _)
    rw [takeNumber_widen]
    cases hnumber : takeNumber m'.flag c m'.ap with
    | error e => rfl
    | ok r =>
      obtain ⟨number, ap⟩ := r
      change Matches t _ m str (number.valstr .c8 c >>= _) (number.valstr t c >>= _)
      by_cases hfits : number.Fits
      · obtain ⟨hlen, htext⟩ := layout_widen t m'.flag m'.width m'.percision.toInt c (number.text c)
        have hmap : ((layout id false m'.flag m'.width.toInt m'.percision.toInt c (number.text c)).map
            CharType.c8.ofChar).map t.widen =
              (layout id t.keeps m'.flag m'.width.toInt m'.percision.toInt c (number.text c)).map t.ofChar ↔
            ¬ (t ≠ .c8 ∧ Vanishes m'.flag m'.percision.toInt c (number.text c)) := by
          rw [List.map_map, widen_comp, t.ofChar_injective.list_map.eq_iff, htext]
        rw [number.valstr_eq .c8 c hfits, number.valstr_eq t c hfits]
        refine ⟨_, _, congrArg (· ++ _) (readParams_same hparams).2, rfl, ?_, ?_⟩
        · rw [layout_text, layout_text, List.length_map, List.length_map]
          exact hlen
        · rw [layout_text, layout_text]
          refine hmap.trans ?_
          have hvanish : Vanishes m'.flag m'.percision.toInt c (number.text c) ↔
              m'.flag.PERCISION_SPECIFIED ∧ m'.percision = 0 ∧ ¬ isFloat c ∧ number.Zero := by
            rw [Vanishes, ← Int32.toInt_zero, Int32.toInt_inj]
            refine and_congr_right fun _ => and_congr_right fun _ => and_congr_right fun hfloat => ?_
            exact isZero_text fun v hv => hfloat (takeNumber_float (hv ▸ hnumber))
          rw [hvanish]
          constructor
          · intro h m'' number' ap' hm'' hnumber'
            obtain rfl : m' = m'' := Except.ok.inj (hparams.symm.trans hm'')
            obtain ⟨rfl, -⟩ := Prod.mk.inj (Except.ok.inj (hnumber.symm.trans hnumber'))
            exact h
          · exact fun h => h m' number ap hparams hnumber
      · rw [number.valstr_error .c8 c hfits, number.valstr_error t c hfits]
        rfl

/-- The specification that ends at the specifier is a good one. -/
def SpecAgrees (t : CharType) (m : Machine .c8) (c : UInt8) : Prop :=
  if c = ascii 'c' then CharAgrees t m
  else if c = ascii '%' then True
  else if c = ascii 'p' then NumberAgrees t m.pointer (ascii 'x')
  else if c ∈ chars "FgGeEAa" then NumberAgrees t m (ascii 'f')
  else if c ∈ chars "fxXodiu" then NumberAgrees t m c
  else True

theorem matches_spec (t : CharType) (m : Machine .c8) (str : List t.ValueType) (c : UInt8) :
    Matches t (SpecAgrees t m c) m str (m.spec c) ((m.over t str).spec c) := by
  rw [Machine.spec, Machine.spec, SpecAgrees]
  by_cases hc : c = ascii 'c'
  · rw [if_pos hc, if_pos hc, if_pos hc]
    exact matches_char t m str
  rw [if_neg hc, if_neg hc, if_neg hc]
  by_cases hpercent : c = ascii '%'
  · rw [if_pos hpercent, if_pos hpercent, if_pos hpercent, readParams_over]
    cases hparams : m.readParams with
    | error e => rfl
    | ok m' =>
      have hfinish : Matches t True m str _ (.ok ((m'.over t str).finish _ _)) :=
        matches_finish m'.ap [CharType.c8.ofChar (ascii '%')] (readParams_same hparams).2
      rw [List.map_cons, List.map_nil, widen_ofChar] at hfinish
      exact hfinish
  rw [if_neg hpercent, if_neg hpercent, if_neg hpercent]
  by_cases hp : c = ascii 'p'
  · rw [if_pos hp, if_pos hp, if_pos hp]
    exact matches_number t m.pointer str (ascii 'x')
  rw [if_neg hp, if_neg hp, if_neg hp]
  by_cases hfloat : c ∈ chars "FgGeEAa"
  · rw [if_pos hfloat, if_pos hfloat, if_pos hfloat]
    exact matches_number t m str (ascii 'f')
  rw [if_neg hfloat, if_neg hfloat, if_neg hfloat]
  by_cases hnumber : c ∈ chars "fxXodiu"
  · rw [if_pos hnumber, if_pos hnumber, if_pos hnumber]
    exact matches_number t m str c
  rw [if_neg hnumber, if_neg hnumber, if_neg hnumber]
  by_cases hs : c = ascii 's'
  · rw [if_pos hs, if_pos hs, readParams_over]
    cases hparams : m.readParams with
    | error e => rfl
    | ok m' =>
      change Matches t True m str (takeString m'.ap >>= _) (takeString (m'.ap.map (VaArg.widen t)) >>= _)
      rw [takeString_widen]
      cases takeString m'.ap with
      | error e => rfl
      | ok r =>
        obtain ⟨buf, ap⟩ := r
        change Matches t True m str (stringText m'.flag m'.width.toInt m'.percision.toInt buf >>= _)
          (stringText m'.flag m'.width.toInt m'.percision.toInt (buf.map t.widen) >>= _)
        rw [stringText_widen]
        cases stringText m'.flag m'.width.toInt m'.percision.toInt buf with
        | error e => rfl
        | ok text => exact matches_finish ap text (readParams_same hparams).2
  · rw [if_neg hs, if_neg hs]
    exact matches_keep rfl

/-- The character that is looked at ends a specification that is not a good one. -/
def Agrees (t : CharType) (format : List CharType.c8.ValueType) (m : Machine .c8) : Prop :=
  m.state = .ST_SPEC → ∀ ch, read Trap.formatBounds format m.p = .ok ch → SpecAgrees t m (CharType.c8.narrow ch)

theorem matches_examine (t : CharType) {format : List CharType.c8.ValueType} {m : Machine .c8} (str : List t.ValueType)
    {ch : CharType.c8.ValueType} (hread : read Trap.formatBounds format m.p = .ok ch) :
    Matches t (Agrees t format m) m str (m.examine format ch) ((m.over t str).examine (format.map t.widen) (t.widen ch)) := by
  have hover : (m.over t str).state = m.state := rfl
  have hgood : m.state ≠ .ST_SPEC → Agrees t format m = True := fun hne => eq_true fun h => absurd h hne
  rw [Machine.examine, Machine.examine, narrow_widen, hover]
  cases hstate : m.state with
  | ST_TEXT =>
    rw [hgood (by rw [hstate]; decide)]
    simp only
    split
    · exact matches_keep rfl
    · exact ⟨[ch], [t.widen ch], rfl, rfl, le_rfl, iff_of_true rfl trivial⟩
  | ST_FLAGS =>
    rw [hgood (by rw [hstate]; decide)]
    exact matches_flags
  | ST_WIDTH =>
    rw [hgood (by rw [hstate]; decide)]
    exact matches_widths
  | ST_PERCISION =>
    rw [hgood (by rw [hstate]; decide)]
    exact matches_percisions
  | ST_SUBSPEC =>
    rw [hgood (by rw [hstate]; decide)]
    exact matches_subspec format
  | ST_SPEC =>
    have hspec : Agrees t format m = SpecAgrees t m (CharType.c8.narrow ch) := by
      refine propext ⟨fun h => h hstate ch hread, fun h _ ch' hread' => ?_⟩
      obtain rfl : ch = ch' := Except.ok.inj (hread.symm.trans hread')
      exact h
    rw [hspec]
    exact matches_spec t m str _

end Matching

section Runs
variable {t : CharType} {format : List CharType.c8.ValueType}

/-- A step over the other type. -/
theorem step_over {m m' : Machine .c8} (str : List t.ValueType) (h : m.step format = .ok (some m')) :
    ∃ x8 x, m'.str = m.str ++ x8 ∧ (m.over t str).step (format.map t.widen) = .ok (some (m'.over t (str ++ x))) ∧
      x8.length ≤ x.length ∧ (x8.map t.widen = x ↔ Agrees t format m) := by
  obtain ⟨-, hnone⟩ | ⟨ch, r, hread, hch, hexamine, hnext⟩ := step_cases h
  · exact absurd hnone (Option.some_ne_none m')
  · obtain rfl : m' = { r with p := r.p + 1 } := Option.some.inj hnext
    have hread' : read Trap.formatBounds (format.map t.widen) (m.over t str).p = .ok (t.widen ch) := by
      change read Trap.formatBounds (format.map t.widen) m.p = _
      rw [read_widen, hread]
      rfl
    have hmatch := matches_examine t str hread
    rw [hexamine] at hmatch
    obtain ⟨x8, x, hstr, hover, hlen, hgood⟩ := hmatch
    exact ⟨x8, x, hstr, step_examine hread' ((widen_eq_zero t ch).not.mpr hch) hover, hlen, hgood⟩

theorem step_end {m : Machine .c8} (str : List t.ValueType) (h : m.step format = .ok none) :
    (m.over t str).step (format.map t.widen) = .ok none := by
  obtain ⟨hread, -⟩ | ⟨ch, r, -, -, -, hnext⟩ := step_cases h
  · refine step_null ?_
    change read Trap.formatBounds (format.map t.widen) m.p = _
    rw [read_widen, hread]
    exact congrArg Except.ok ((widen_eq_zero t 0).mpr rfl)
  · exact absurd hnext.symm (Option.some_ne_none _)

/-- The machine over the other type is in the same state and has not written less. -/
def Over (t : CharType) (m : Machine .c8) (m' : Machine t) : Prop :=
  m' = m.over t m'.str ∧ m.str.length ≤ m'.str.length

theorem over_step {m next : Machine .c8} {m' : Machine t} (hover : Over t m m') (h : Leads (Machine.step format) m next) :
    ∃ next', Leads (Machine.step (format.map t.widen)) m' next' ∧ Over t next next' ∧
      (next.str.map t.widen = next'.str ↔ m.str.map t.widen = m'.str ∧ Agrees t format m) := by
  obtain ⟨hm, hstr⟩ := hover
  obtain ⟨x8, x, hnext, hstep, hlen, hgood⟩ := step_over m'.str h
  rw [← hm] at hstep
  refine ⟨_, hstep, ⟨rfl, ?_⟩, ?_⟩
  · change next.str.length ≤ (m'.str ++ x).length
    rw [hnext, List.length_append, List.length_append]
    exact Nat.add_le_add hstr hlen
  · change next.str.map t.widen = m'.str ++ x ↔ _
    rw [hnext, List.map_append, ← hgood]
    constructor
    · intro heq
      have hlength := congrArg List.length heq
      rw [List.length_append, List.length_append, List.length_map, List.length_map] at hlength
      exact List.append_inj heq (by rw [List.length_map]; omega)
    · rintro ⟨hfront, hback⟩
      rw [hfront, hback]

/-- What `printf` writes over another type is the same text, if and only if every specification is a good one. -/
theorem printf_widen_iff (t : CharType) (format : List CharType.c8.ValueType) (ap : List (VaArg .c8))
    {str : List CharType.c8.ValueType} {n : ℕ} (h : printf format ap = .ok (str, n)) :
    printf (format.map t.widen) (ap.map (VaArg.widen t)) = .ok (str.map t.widen, n) ↔
      AllGood (Machine.step format) (Agrees t format) (Machine.start ap) := by
  rw [printf] at h
  cases hloop : loop Trap.diverges (Machine.step format) (6 * format.length + 1) (Machine.start ap) with
  | error e =>
    rw [hloop] at h
    exact absurd h (by rintro ⟨⟩)
  | ok m =>
    rw [hloop] at h
    obtain ⟨rfl, rfl⟩ := Prod.mk.inj (Except.ok.inj h)
    have hstart : Over t (Machine.start ap) (Machine.start (ap.map (VaArg.widen t))) := ⟨rfl, le_rfl⟩
    obtain ⟨m', hloop', ⟨-, hlen⟩, hsame⟩ :=
      loop_lockstep (fun m m' hover hend => hover.1 ▸ step_end m'.str hend) (fun m next m' => over_step) hstart hloop
    rw [printf, List.length_map, hloop']
    have hempty : (Machine.start ap).str.map t.widen = (Machine.start (ap.map (VaArg.widen t))).str := rfl
    rw [and_iff_right hempty] at hsame
    rw [← hsame]
    constructor
    · intro heq
      exact (congrArg Prod.fst (Except.ok.inj heq)).symm
    · intro heq
      change Except.ok (m'.str, LibXpf.u32 m'.str.length) = Except.ok (m.str.map t.widen, LibXpf.u32 m.str.length)
      rw [← heq, List.length_map]

end Runs
end LibXpf.Xpfstring
