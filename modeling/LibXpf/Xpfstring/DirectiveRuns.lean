import LibXpf.Xpfstring.Directives

/-! # The scanner at a directive

The scanner goes through the parts of a directive one after the other, and takes the
arguments at the conversion.
-/
namespace LibXpf.Xpfstring
open Buffers StepLoops PositionalDigits

section Places
variable {t : CharType} {format : List t.ValueType} {i : ℕ} {c : UInt8} {s s' : List UInt8}

/-- A text stands in the format at a place. -/
def Stands (format : List t.ValueType) (i : ℕ) (s : List UInt8) : Prop := s.map t.ofChar <+: format.drop i

theorem stands_cons : Stands format i (c :: s) ↔ format[i]? = some (t.ofChar c) ∧ Stands format (i + 1) s := by
  rw [Stands, Stands, List.map_cons]
  cases hdrop : format.drop i with
  | nil =>
    have hget : format[i]? = none := List.getElem?_eq_none (List.drop_eq_nil_iff.mp hdrop)
    rw [hget]
    exact iff_of_false (fun h => absurd (List.prefix_nil.mp h) (List.cons_ne_nil _ _)) (fun h => absurd h.1 (by rintro ⟨⟩))
  | cons ch rest =>
    have hget : format[i]? = some ch := by rw [← Nat.add_zero i, ← List.getElem?_drop, hdrop]; rfl
    have hrest : format.drop (i + 1) = rest := by rw [← List.drop_drop, hdrop, List.drop_one, List.tail_cons]
    rw [List.cons_prefix_cons, hget, hrest, Option.some_inj, eq_comm]

theorem stands_append : Stands format i (s ++ s') ↔ Stands format i s ∧ Stands format (i + s.length) s' := by
  induction s generalizing i with
  | nil => exact ⟨fun h => ⟨List.nil_prefix, h⟩, fun h => h.2⟩
  | cons c s ih =>
    have hplace : i + (c :: s).length = i + 1 + s.length := by
      rw [List.length_cons]
      omega
    rw [List.cons_append, stands_cons, stands_cons, ih, hplace, and_assoc]

end Places

section Steps
variable {t : CharType} {format : List t.ValueType} {i : ℕ} {c : UInt8} {m m' : Machine t}
  {width percision : Int32} {flag : Flags} {ap : List (VaArg t)} {str : List t.ValueType}

theorem leads_examine (hget : format[m.p]? = some (t.ofChar c)) (hc : c ≠ 0) (h : m.examine format (t.ofChar c) = .ok m') :
    Leads (Machine.step format) m { m' with p := m'.p + 1 } :=
  step_examine (read_ok_iff.mpr hget) (CharType.ofChar_eq_zero.not.mpr hc) h

/-- A state that goes back leaves the character to the next one. -/
theorem leads_back {state : ParseState} (hi : 0 < m.p) (hget : format[m.p]? = some (t.ofChar c)) (hc : c ≠ 0)
    (h : m.examine format (t.ofChar c) = m.back state) :
    Leads (Machine.step format) m { m with state := state } := by
  have hback : m.back state = .ok { m with p := m.p - 1, state := state } := if_neg hi.ne'
  have hlead := leads_examine hget hc (h.trans hback)
  simp only [Nat.sub_add_cancel hi] at hlead
  exact hlead

theorem flags_visits {fs : List FlagChar} (h : Stands format i (fs.map FlagChar.char)) :
    Visits (Machine.step format) ⟨i, .ST_FLAGS, width, percision, flag, ap, str⟩
      ⟨i + fs.length, .ST_FLAGS, width, percision, fs.foldl FlagChar.mark flag, ap, str⟩ := by
  induction fs generalizing i flag with
  | nil => exact .refl
  | cons f fs ih =>
    obtain ⟨hget, hrest⟩ := stands_cons.mp h
    let m : Machine t := ⟨i, .ST_FLAGS, width, percision, flag, ap, str⟩
    have hne : f.char ≠ 0 := by cases f <;> decide
    have hexamine : m.examine format (t.ofChar f.char) = .ok { m with flag := f.mark flag } := by
      rw [Machine.examine]
      simp only [m, t.narrow_ofChar, Machine.flags, mark_char]
    have hplace : i + (f :: fs).length = i + 1 + fs.length := by
      rw [List.length_cons]
      omega
    rw [hplace]
    exact .head (leads_examine hget hne hexamine) (ih hrest)

theorem flags_leads (hi : 0 < i) (hget : format[i]? = some (t.ofChar c)) (hc : c ≠ 0) (hflag : ¬ isFlag c) :
    Leads (Machine.step format) ⟨i, .ST_FLAGS, width, percision, flag, ap, str⟩
      ⟨i, .ST_WIDTH, width, percision, flag, ap, str⟩ := by
  refine leads_back (m := ⟨i, .ST_FLAGS, width, percision, flag, ap, str⟩) hi hget hc ?_
  rw [Machine.examine]
  simp only [t.narrow_ofChar, Machine.flags, (mark_eq_none flag c).mpr hflag]

theorem isDigit_digit : ∀ d < 10, isDigit (hextable.getD d 0) := by decide

theorem isFlag_digit : ∀ d < 10, isFlag (hextable.getD d 0) ↔ d = 0 := by decide

/-- The digits of a width, where the flag is already set. -/
theorem widths_visits {ds : List ℕ} (hds : ∀ d ∈ ds, d < 10) (h : Stands format i (digitText ds))
    (hflag : flag.WIDTH_SPECIFIED = true) :
    Visits (Machine.step format) ⟨i, .ST_WIDTH, width, percision, flag, ap, str⟩
      ⟨i + ds.length, .ST_WIDTH, (digitText ds).foldl addDigit width, percision, flag, ap, str⟩ := by
  induction ds generalizing i width with
  | nil => exact .refl
  | cons d ds ih =>
    rw [List.forall_mem_cons] at hds
    obtain ⟨hget, hrest⟩ := stands_cons.mp h
    let m : Machine t := ⟨i, .ST_WIDTH, width, percision, flag, ap, str⟩
    have hset : { flag with WIDTH_SPECIFIED := true } = flag := by
      rw [← hflag]
    have hexamine : m.examine format (t.ofChar (hextable.getD d 0)) =
        .ok { m with width := addDigit width (hextable.getD d 0) } := by
      rw [Machine.examine]
      simp only [m, t.narrow_ofChar, Machine.widths, if_pos (isDigit_digit d hds.1), hset]
    have hplace : i + (d :: ds).length = i + 1 + ds.length := by
      rw [List.length_cons]
      omega
    rw [hplace]
    exact .head (leads_examine hget (digit_ne_zero d (by omega)) hexamine) (ih hds.2 hrest)

theorem percisions_visits {ds : List ℕ} (hds : ∀ d ∈ ds, d < 10) (h : Stands format i (digitText ds)) :
    Visits (Machine.step format) ⟨i, .ST_PERCISION, width, percision, flag, ap, str⟩
      ⟨i + ds.length, .ST_PERCISION, width, (digitText ds).foldl addDigit percision, flag, ap, str⟩ := by
  induction ds generalizing i percision with
  | nil => exact .refl
  | cons d ds ih =>
    rw [List.forall_mem_cons] at hds
    obtain ⟨hget, hrest⟩ := stands_cons.mp h
    let m : Machine t := ⟨i, .ST_PERCISION, width, percision, flag, ap, str⟩
    have hexamine : m.examine format (t.ofChar (hextable.getD d 0)) =
        .ok { m with percision := addDigit percision (hextable.getD d 0) } := by
      rw [Machine.examine]
      simp only [m, t.narrow_ofChar, Machine.percisions, if_pos (isDigit_digit d hds.1)]
    have hplace : i + (d :: ds).length = i + 1 + ds.length := by
      rw [List.length_cons]
      omega
    rw [hplace]
    exact .head (leads_examine hget (digit_ne_zero d (by omega)) hexamine) (ih hds.2 hrest)

end Steps

section Scan
variable {t : CharType} {format : List t.ValueType} {i : ℕ} {c : UInt8} {rest : List UInt8}
  {width percision : Int32} {flag : Flags} {ap : List (VaArg t)} {str : List t.ValueType}

/-- A width follows the flags. -/
theorem width_visits (w : Width) (hi : 0 < i) (h : Stands format i (w.units ++ c :: rest)) (hc : c ≠ 0) (hflag : ¬ isFlag c) :
    Visits (Machine.step format) ⟨i, .ST_FLAGS, 0, percision, flag, ap, str⟩
      ⟨i + w.units.length, .ST_WIDTH, w.scanned, percision, w.mark flag, ap, str⟩ := by
  cases w with
  | absent => exact .single (flags_leads hi (stands_cons.mp h).1 hc hflag)
  | literal n range =>
    have hdigits := (stands_append.mp h).1
    obtain ⟨d, ds, hnum, hd⟩ := numeral_head (b := 10) range.1.ne'
    have hlt : ∀ e ∈ d :: ds, e < 10 := fun e he => numeral_lt (by decide) (hnum ▸ he)
    have hvalue : digitsValue 0 (d :: ds) = n := hnum ▸ digitsValue_numeral n
    have hfold := addDigits_eq hlt (hvalue.trans_lt range.2)
    have hlen : i + (numeralText 10 n).length = i + 1 + ds.length := by
      rw [numeralText, hnum, digitText, List.length_map, List.length_cons]
      omega
    rw [Width.units, numeralText, hnum] at hdigits
    obtain ⟨hget, hrest⟩ := stands_cons.mp hdigits
    rw [List.forall_mem_cons] at hlt
    have hne : hextable.getD d 0 ≠ 0 := digit_ne_zero d (by omega)
    have hnotflag : ¬ isFlag (hextable.getD d 0) := (isFlag_digit d hlt.1).not.mpr hd
    let m : Machine t := ⟨i, .ST_WIDTH, 0, percision, flag, ap, str⟩
    let m' : Machine t :=
      { m with flag := { flag with WIDTH_SPECIFIED := true }, width := addDigit 0 (hextable.getD d 0) }
    have hexamine : m.examine format (t.ofChar (hextable.getD d 0)) = .ok m' := by
      rw [Machine.examine]
      simp only [m, m', t.narrow_ofChar, Machine.widths, if_pos (isDigit_digit d hlt.1)]
    have hwidth : (digitText ds).foldl addDigit (addDigit 0 (hextable.getD d 0)) = Int32.ofNat n := hvalue ▸ hfold
    rw [Width.units, hlen, Width.scanned, ← hwidth]
    exact .head (flags_leads hi hget hne hnotflag) (.head (leads_examine hget hne hexamine) (widths_visits hlt.2 hrest rfl))
  | star v =>
    obtain ⟨hget, -⟩ := stands_cons.mp h
    let m : Machine t := ⟨i, .ST_WIDTH, 0, percision, flag, ap, str⟩
    have hexamine : m.examine format (t.ofChar (ascii '*')) = .ok { m with flag := (Width.star v).mark flag } := by
      rw [Machine.examine]
      simp only [m, t.narrow_ofChar, Machine.widths, if_neg (show ¬ isDigit (ascii '*') by decide), if_pos]
      rfl
    exact .head (flags_leads hi hget (by decide) (by decide)) (.single (leads_examine hget (by decide) hexamine))

theorem point_leads (hget : format[i]? = some (t.ofChar (ascii '.'))) :
    Leads (Machine.step format) ⟨i, .ST_WIDTH, width, percision, flag, ap, str⟩
      ⟨i + 1, .ST_PERCISION, width, percision, { flag with PERCISION_SPECIFIED := true }, ap, str⟩ := by
  let m : Machine t := ⟨i, .ST_WIDTH, width, percision, flag, ap, str⟩
  have hexamine : m.examine format (t.ofChar (ascii '.')) =
      .ok { m with flag := { flag with PERCISION_SPECIFIED := true }, state := .ST_PERCISION } := by
    rw [Machine.examine]
    simp only [m, t.narrow_ofChar, Machine.widths, if_neg (show ¬ isDigit (ascii '.') by decide),
      if_neg (show ¬ ascii '.' = ascii '*' by decide), if_pos]
  exact leads_examine (m := m) hget (by decide) hexamine

/-- A percision follows the width. -/
theorem percision_visits (p : Percision) (hi : 0 < i) (h : Stands format i (p.units ++ c :: rest)) (hc : c ≠ 0)
    (hdigit : ¬ isDigit c) (hstar : c ≠ ascii '*') (hpoint : c ≠ ascii '.') :
    Visits (Machine.step format) ⟨i, .ST_WIDTH, width, 0, flag, ap, str⟩
      ⟨i + p.units.length, .ST_SUBSPEC, width, p.scanned, p.mark flag, ap, str⟩ := by
  obtain ⟨hunits, hrest⟩ := stands_append.mp h
  obtain ⟨hnext, -⟩ := stands_cons.mp hrest
  cases p with
  | absent =>
    refine .single (leads_back (m := ⟨i, .ST_WIDTH, width, 0, flag, ap, str⟩) hi hnext hc ?_)
    rw [Machine.examine]
    simp only [t.narrow_ofChar, Machine.widths, if_neg hdigit, if_neg hstar, if_neg hpoint]
  | literal ds digits range =>
    obtain ⟨hget, hdigits⟩ := stands_cons.mp hunits
    have hfold : (digitText ds).foldl addDigit 0 = Int32.ofNat (digitsValue 0 ds) := addDigits_eq digits range
    have hlen : i + (Percision.literal ds digits range).units.length = i + 1 + ds.length := by
      rw [Percision.units, List.length_cons, digitText, List.length_map]
      omega
    rw [hlen] at hnext ⊢
    refine .head (point_leads hget) ((percisions_visits digits hdigits).tail ?_)
    rw [hfold]
    refine leads_back (m := ⟨i + 1 + ds.length, .ST_PERCISION, _, _, _, ap, str⟩) (by simp only; omega) hnext hc ?_
    rw [Machine.examine]
    simp only [t.narrow_ofChar, Machine.percisions, if_neg hdigit, if_neg hstar]
  | star v =>
    obtain ⟨hget, hmore⟩ := stands_cons.mp hunits
    obtain ⟨hgetstar, -⟩ := stands_cons.mp hmore
    let m : Machine t := ⟨i + 1, .ST_PERCISION, width, 0, { flag with PERCISION_SPECIFIED := true }, ap, str⟩
    have hexamine : m.examine format (t.ofChar (ascii '*')) = .ok { m with flag := (Percision.star v).mark flag } := by
      rw [Machine.examine]
      simp only [m, t.narrow_ofChar, Machine.percisions, if_neg (show ¬ isDigit (ascii '*') by decide), if_pos]
      rfl
    refine .head (point_leads hget) (.head (leads_examine (m := m) hgetstar (by decide) hexamine) (.single ?_))
    refine leads_back (m := ⟨i + 1 + 1, .ST_PERCISION, _, _, _, ap, str⟩) (by simp only; omega) hnext hc ?_
    rw [Machine.examine]
    simp only [t.narrow_ofChar, Machine.percisions, if_neg hdigit, if_neg hstar]

/-- A character that can follow the flags, the width and the percision. -/
def Follows (c : UInt8) : Prop := c ≠ 0 ∧ ¬ isFlag c ∧ ¬ isDigit c ∧ c ≠ ascii '*' ∧ c ≠ ascii '.'

instance (c : UInt8) : Decidable (Follows c) := inferInstanceAs (Decidable (_ ∧ _))

theorem follows_char (k : Conversion) : Follows k.char := by cases k <;> decide

/-- The scanner comes to what follows the flags, the width and the percision of a specification. -/
theorem specification_visits (fs : List FlagChar) (w : Width) (p : Percision) (hc : Follows c)
    (h : Stands format i (ascii '%' :: (fs.map FlagChar.char ++ (w.units ++ (p.units ++ c :: rest))))) :
    Visits (Machine.step format) ⟨i, .ST_TEXT, width, percision, flag, ap, str⟩
      ⟨i + 1 + fs.length + w.units.length + p.units.length, .ST_SUBSPEC, w.scanned, p.scanned,
        p.mark (w.mark (fs.foldl FlagChar.mark Flags.zero)), ap, str⟩ := by
  obtain ⟨hne, hflag, hdigit, hstar, hpoint⟩ := hc
  obtain ⟨hpercent, hbody⟩ := stands_cons.mp h
  obtain ⟨hflags, hmore⟩ := stands_append.mp hbody
  obtain ⟨-, hpercision⟩ := stands_append.mp hmore
  let m : Machine t := ⟨i, .ST_TEXT, width, percision, flag, ap, str⟩
  have hexamine : m.examine format (t.ofChar (ascii '%')) =
      .ok { m with width := 0, percision := 0, flag := Flags.zero, state := .ST_FLAGS } := by
    rw [Machine.examine]
    simp only [m, t.narrow_ofChar, if_pos]
  obtain ⟨c', rest', hnext, hne', hflag'⟩ : ∃ c' rest', p.units ++ c :: rest = c' :: rest' ∧ c' ≠ 0 ∧ ¬ isFlag c' := by
    cases p with
    | absent => exact ⟨c, rest, rfl, hne, hflag⟩
    | literal ds digits range => exact ⟨ascii '.', digitText ds ++ c :: rest, rfl, by decide, by decide⟩
    | star v => exact ⟨ascii '.', ascii '*' :: c :: rest, rfl, by decide, by decide⟩
  rw [hnext, List.length_map] at hmore
  rw [List.length_map] at hpercision
  exact .head (leads_examine (m := m) hpercent (by decide) hexamine) (((flags_visits hflags).trans
    (width_visits w (by omega) hmore hne' hflag')).trans
      (percision_visits p (by omega) hpercision hne hdigit hstar hpoint))

/-- A character that is no length modifier ends the specification. -/
theorem subspec_leads (hi : 0 < i) (hget : format[i]? = some (t.ofChar c)) (hc : c ≠ 0) (hplain : c ∉ chars "lhjztL") :
    Leads (Machine.step format) ⟨i, .ST_SUBSPEC, width, percision, flag, ap, str⟩
      ⟨i, .ST_SPEC, width, percision, flag, ap, str⟩ := by
  have hmembers : chars "lhjztL" = [ascii 'l', ascii 'h', ascii 'j', ascii 'z', ascii 't', ascii 'L'] := rfl
  rw [hmembers] at hplain
  simp only [List.mem_cons, List.not_mem_nil, or_false, not_or] at hplain
  obtain ⟨hl, hh, hignored⟩ := hplain
  refine leads_back (m := ⟨i, .ST_SUBSPEC, width, percision, flag, ap, str⟩) hi hget hc ?_
  rw [Machine.examine]
  simp only [t.narrow_ofChar, Machine.subspec, if_neg hl, if_neg hh]
  exact if_neg (by simpa only [not_or] using hignored)

/-- The scanner comes to a conversion that follows the flags, the width and the percision. -/
theorem conversion_visits (fs : List FlagChar) (w : Width) (p : Percision) (hc : Follows c) (hplain : c ∉ chars "lhjztL")
    (h : Stands format i (ascii '%' :: (fs.map FlagChar.char ++ (w.units ++ (p.units ++ [c]))))) :
    format[i + 1 + fs.length + w.units.length + p.units.length]? = some (t.ofChar c) ∧
      ∀ width percision flag ap str, Visits (Machine.step format) ⟨i, .ST_TEXT, width, percision, flag, ap, str⟩
        ⟨i + 1 + fs.length + w.units.length + p.units.length, .ST_SPEC, w.scanned, p.scanned,
          p.mark (w.mark (fs.foldl FlagChar.mark Flags.zero)), ap, str⟩ := by
  have hbody := (stands_cons.mp h).2
  have hlast := (stands_append.mp (stands_append.mp (stands_append.mp hbody).2).2).2
  rw [List.length_map] at hlast
  have hget := (stands_cons.mp hlast).1
  exact ⟨hget, fun width percision flag ap str => (specification_visits fs w p hc h).tail (subspec_leads (by omega) hget hc.1 hplain)⟩

theorem directive_units (d : Directive) :
    d.units = ascii '%' :: (d.flags.map FlagChar.char ++ (d.width.units ++ (d.percision.units ++ [d.conversion.char]))) := by
  simp only [Directive.units, List.cons_append, List.append_assoc]

theorem directive_length (d : Directive) :
    d.units.length - 1 = 1 + d.flags.length + d.width.units.length + d.percision.units.length := by
  rw [directive_units]
  simp only [List.length_cons, List.length_append, List.length_map, List.length_nil]
  omega

/-- The scanner comes to the conversion of a directive. -/
theorem directive_visits (d : Directive) (h : Stands format i d.units) :
    format[i + (d.units.length - 1)]? = some (t.ofChar d.conversion.char) ∧
      ∀ width percision flag ap str, Visits (Machine.step format) ⟨i, .ST_TEXT, width, percision, flag, ap, str⟩
        ⟨i + (d.units.length - 1), .ST_SPEC, d.width.scanned, d.percision.scanned, d.flag, ap, str⟩ := by
  have hplain : d.conversion.char ∉ chars "lhjztL" := by cases d.conversion <;> decide
  rw [directive_length, ← Nat.add_assoc, ← Nat.add_assoc, ← Nat.add_assoc]
  rw [directive_units] at h
  exact conversion_visits d.flags d.width d.percision (follows_char d.conversion) hplain h

end Scan

section Flags
variable {flags : List FlagChar}

/-- The flag that decides about the sign is the last one. -/
def lastSign (flags : List FlagChar) : Option FlagChar := (flags.filter fun f => f = .plus ∨ f = .space).getLast?

theorem foldl_mark (flags : List FlagChar) :
    flags.foldl FlagChar.mark Flags.zero =
      { Flags.zero with
        LEFTJUSTIFY := FlagChar.minus ∈ flags
        FORCESIGN := lastSign flags = some .plus
        BLANKSIGN := lastSign flags = some .space
        PREFIXSUFFIX := FlagChar.hash ∈ flags
        LEFTPADZERO := FlagChar.zero ∈ flags } := by
  induction flags using List.reverseRecOn with
  | nil => rfl
  | append_singleton flags f ih =>
    rw [List.foldl_append, ih, List.foldl_cons, List.foldl_nil]
    cases f <;> simp [FlagChar.mark, lastSign, List.filter_append]

end Flags

section Arguments
variable {t : CharType} {m : Machine t} {rest : List (VaArg t)}

def Width.param : Width → Int32
  | .star v => v
  | w => w.scanned

def Percision.param : Percision → Int32
  | .star v => v
  | p => p.scanned

theorem Width.toInt_param (w : Width) : w.param.toInt = w.value.getD 0 := by
  cases w with
  | absent => rfl
  | literal n range => exact Int32.toInt_ofNat_of_lt range.2
  | star v => rfl

theorem Percision.toInt_param (p : Percision) : p.param.toInt = p.value.getD 0 := by
  cases p with
  | absent => rfl
  | literal ds digits range => exact Int32.toInt_ofNat_of_lt range
  | star v => rfl

def Conversion.number (k : Conversion) (v : Int32) : Number := if isSigned k.char then .s32 v else .u32 v.toUInt32

/-- The text that a directive appends. -/
def Directive.text (keeps : Bool) (d : Directive) (v : Int32) : List UInt8 :=
  layout id keeps d.flag (d.width.value.getD 0) (d.percision.value.getD 0) d.conversion.char
    ((d.conversion.number v).text d.conversion.char)

/-- The parameters of a specification, where its flags are set. -/
theorem readParams_stars (fs : List FlagChar) (w : Width) (p : Percision) (hwidth : m.width = w.scanned)
    (hpercision : m.percision = p.scanned) (hflag : m.flag = p.mark (w.mark (fs.foldl FlagChar.mark Flags.zero)))
    (hap : m.ap = (w.stars ++ p.stars).map VaArg.int ++ rest) :
    m.readParams = .ok { m with width := w.param, percision := p.param, ap := rest } := by
  rw [Machine.readParams, hwidth, hpercision, hflag, hap, foldl_mark]
  cases w <;> cases p <;> rfl

theorem readParams_directive (d : Directive) {v : Int32} (hwidth : m.width = d.width.scanned)
    (hpercision : m.percision = d.percision.scanned) (hflag : m.flag = d.flag) (hap : m.ap = d.args t v ++ rest) :
    m.readParams = .ok { m with width := d.width.param, percision := d.percision.param, ap := .int v :: rest } := by
  refine readParams_stars d.flags d.width d.percision hwidth hpercision hflag ?_
  rw [hap, Directive.args, List.map_append, List.append_assoc]
  rfl

theorem takeNumber_directive (d : Directive) (v : Int32) :
    takeNumber d.flag d.conversion.char (.int v :: rest) = .ok (d.conversion.number v, rest) := by
  have hlonglong : d.flag.FMT_LONGLONG = false := by
    rw [Directive.flag, foldl_mark]
    cases d.width <;> cases d.percision <;> rfl
  have hshrink : shrink d.flag v = v := by
    rw [Directive.flag, foldl_mark]
    cases d.width <;> cases d.percision <;> rfl
  have hfloat : ¬ isFloat d.conversion.char := by cases d.conversion <;> decide
  rw [takeNumber, hlonglong, if_neg Bool.false_ne_true, if_neg hfloat, takeInt]
  change Except.ok (if isSigned d.conversion.char then Number.s32 (shrink d.flag v)
    else .u32 (shrink d.flag v).toUInt32, rest) = _
  rw [hshrink, Conversion.number]

/-- The specifier of a number takes the parameters and the number, and appends its layout. -/
theorem spec_number (k : Conversion) {width percision : Int32} {ap : List (VaArg t)} {number : Number} (hfits : number.Fits)
    (hparams : m.readParams = .ok { m with width := width, percision := percision, ap := ap })
    (htake : takeNumber m.flag k.char ap = .ok (number, rest)) :
    m.spec k.char =
      .ok { m with
        state := .ST_TEXT
        width := width
        percision := percision
        ap := rest
        str := m.str ++ (layout id t.keeps m.flag width.toInt percision.toInt k.char (number.text k.char)).map t.ofChar } := by
  have hc : k.char ≠ ascii 'c' := by cases k <;> decide
  have hpercent : k.char ≠ ascii '%' := by cases k <;> decide
  have hp : k.char ≠ ascii 'p' := by cases k <;> decide
  have hfloat : k.char ∉ chars "FgGeEAa" := by cases k <;> decide
  have hnumber : k.char ∈ chars "fxXodiu" := by cases k <;> decide
  rw [Machine.spec, if_neg hc, if_neg hpercent, if_neg hp, if_neg hfloat, if_pos hnumber, Machine.number, bind_of_ok hparams,
    bind_of_ok htake]
  change (number.valstr t k.char >>= _) = _
  rw [bind_of_ok (Number.valstr_eq t k.char hfits), layout_text]
  rfl

theorem spec_directive (d : Directive) {v : Int32} (hwidth : m.width = d.width.scanned)
    (hpercision : m.percision = d.percision.scanned) (hflag : m.flag = d.flag) (hap : m.ap = d.args t v ++ rest) :
    m.spec d.conversion.char =
      .ok { m with
        state := .ST_TEXT
        width := d.width.param
        percision := d.percision.param
        ap := rest
        str := m.str ++ (d.text t.keeps v).map t.ofChar } := by
  have hfits : (d.conversion.number v).Fits := by
    rw [Conversion.number]
    split <;> trivial
  rw [spec_number d.conversion hfits (readParams_directive d hwidth hpercision hflag hap)
    (hflag ▸ takeNumber_directive d v), hflag, d.width.toInt_param, d.percision.toInt_param, Directive.text]

end Arguments

/-- A directive appends its text. -/
theorem directive_appends {t : CharType} {format : List t.ValueType} {i : ℕ} (d : Directive) (v : Int32)
    (h : Stands format i d.units) (width percision : Int32) (flag : Flags) (rest : List (VaArg t)) (str : List t.ValueType) :
    Visits (Machine.step format) ⟨i, .ST_TEXT, width, percision, flag, d.args t v ++ rest, str⟩
      ⟨i + d.units.length, .ST_TEXT, d.width.param, d.percision.param, d.flag, rest,
        str ++ (d.text t.keeps v).map t.ofChar⟩ := by
  have hlen : d.units.length = d.units.length - 1 + 1 := by
    rw [Directive.units]
    simp
  obtain ⟨hget, hvisits⟩ := directive_visits d h
  let m : Machine t := ⟨i + (d.units.length - 1), .ST_SPEC, d.width.scanned, d.percision.scanned, d.flag,
    d.args t v ++ rest, str⟩
  have hexamine : m.examine format (t.ofChar d.conversion.char) = m.spec d.conversion.char := by
    rw [Machine.examine]
    simp only [m, t.narrow_ofChar]
  have hne : d.conversion.char ≠ 0 := by cases d.conversion <;> decide
  have hlead := leads_examine (m := m) hget hne (hexamine.trans (spec_directive d rfl rfl rfl rfl))
  rw [hlen]
  exact (hvisits width percision flag (d.args t v ++ rest) str).tail hlead

section Appending
variable {t : CharType} {units : List UInt8} {args : List (VaArg t)} {text text' : List t.ValueType}

/-- Wherever a specification stands in a format, the scanner takes its arguments and appends a text. -/
def Appends (units : List UInt8) (args : List (VaArg t)) (text : List t.ValueType) : Prop :=
  ∀ (format : List t.ValueType) (i : ℕ), Stands format i units →
    ∀ (width percision : Int32) (flag : Flags) (rest : List (VaArg t)) (str : List t.ValueType),
      ∃ m, Visits (Machine.step format) ⟨i, .ST_TEXT, width, percision, flag, args ++ rest, str⟩ m ∧
        m.state = .ST_TEXT ∧ m.p = i + units.length ∧ m.ap = rest ∧ m.str = str ++ text

theorem Appends.printf_eq (h : Appends units args text) :
    printf (units.map t.ofChar ++ [0]) args = .ok (text, LibXpf.u32 text.length) := by
  obtain ⟨m, hvisits, -, hp, -, hstr⟩ := h (units.map t.ofChar ++ [0]) 0 (List.prefix_append _ _) 0 0 Flags.zero [] []
  have hend : (units.map t.ofChar ++ [0])[m.p]? = some (0 : t.ValueType) := by
    rw [hp, List.getElem?_append_right (by rw [List.length_map]; omega), List.length_map, Nat.zero_add, Nat.sub_self]
    rfl
  rw [List.append_nil] at hvisits
  rw [printf_of_visits hvisits hend, hstr, List.nil_append]

theorem Appends.unique (h : Appends units args text) (h' : Appends units args text') : text = text' :=
  congrArg Prod.fst (Except.ok.inj (h.printf_eq.symm.trans h'.printf_eq))

end Appending

theorem printf_directive (t : CharType) (d : Directive) (v : Int32) :
    printf (d.units.map t.ofChar ++ [0]) (d.args t v) =
      .ok ((d.text t.keeps v).map t.ofChar, LibXpf.u32 (d.text t.keeps v).length) := by
  have happends : Appends d.units (d.args t v) ((d.text t.keeps v).map t.ofChar) := fun format i h width percision flag rest str =>
    ⟨_, directive_appends d v h width percision flag rest str, rfl, rfl, rfl, rfl⟩
  rw [happends.printf_eq, List.length_map]

end LibXpf.Xpfstring
