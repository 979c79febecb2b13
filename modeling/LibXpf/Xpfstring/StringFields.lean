import LibXpf.Foundation.TextFields
import LibXpf.Xpfstring.DirectiveRuns
import Mathlib.Data.List.TakeWhile

/-! # Strings as fields

The conversion `s` counts the characters of its argument up to the percision, and fills
them up to the width. The counter is an `int`, and is looked at after the next character.
-/
namespace LibXpf.Xpfstring
open Buffers StepLoops TextFields

/-- A directive for a string. -/
structure StringDirective where
  flags : List FlagChar
  width : Width
  percision : Percision

namespace StringDirective

def units (d : StringDirective) : List UInt8 :=
  ascii '%' :: (d.flags.map FlagChar.char ++ (d.width.units ++ (d.percision.units ++ chars "s")))

def args {t : CharType} (d : StringDirective) (buf : List t.ValueType) : List (VaArg t) :=
  (d.width.stars ++ d.percision.stars).map VaArg.int ++ [.string buf]

/-- The bits that the scanner sets for a directive. -/
def flag (d : StringDirective) : Flags := d.percision.mark (d.width.mark (d.flags.foldl FlagChar.mark Flags.zero))

end StringDirective

section Counting
variable {t : CharType} {buf : List t.ValueType} {f : Flags} {percision : ℤ} {cnt : ℕ}

/-- The characters of a buffer in front of its first null. -/
def text (buf : List t.ValueType) : List t.ValueType := buf.takeWhile (· ≠ 0)

@[simp] theorem text_nil : text ([] : List t.ValueType) = [] := rfl

theorem text_null (rest : List t.ValueType) : text (0 :: rest) = [] := List.takeWhile_cons_of_neg (by simp)

theorem text_cons {u : t.ValueType} (h : u ≠ 0) (rest : List t.ValueType) : text (u :: rest) = u :: text rest :=
  List.takeWhile_cons_of_pos (by simpa using h)

theorem isPrefix_text (buf : List t.ValueType) : text buf <+: buf := List.takeWhile_prefix _

theorem text_of_notMem (h : 0 ∉ buf) : text buf = buf :=
  List.takeWhile_eq_self_iff.mpr fun _ hu => decide_eq_true fun hzero => h (hzero ▸ hu)

/-- Without a percision all characters up to the null are counted, with the overflow of the counter. -/
theorem countUnits_plain (hf : f.PERCISION_SPECIFIED = false) (hnull : 0 ∈ buf) (n : Int32) :
    countUnits f percision buf n = .ok (n + Int32.ofNat (text buf).length).toInt := by
  induction buf generalizing n with
  | nil => cases hnull
  | cons u rest ih =>
    rw [countUnits]
    by_cases hu : u = 0
    · rw [if_pos hu, hu, text_null]
      exact congrArg (fun m : Int32 => Except.ok m.toInt) (Int32.add_zero n).symm
    · have hrest : 0 ∈ rest := (List.mem_cons.mp hnull).resolve_left (Ne.symm hu)
      have hspecified : ¬ (f.PERCISION_SPECIFIED = true ∧ n.toInt ≥ percision) := fun h => by simp [hf] at h
      rw [if_neg hu, if_neg hspecified, ih hrest, text_cons hu, List.length_cons, Int32.ofNat_add, Int32.add_assoc,
        Int32.add_comm (Int32.ofNat _)]
      rfl

/-- With a percision the count ends there, but for a buffer that ends there. -/
theorem countUnits_percision (hf : f.PERCISION_SPECIFIED = true) (buf : List t.ValueType) {p : ℕ} (hp : p < 2 ^ 31) (hcnt : cnt ≤ p) :
    countUnits f p buf (Int32.ofNat cnt) =
      if p < cnt + (text buf).length then .ok (p : ℤ)
      else if 0 ∈ buf then .ok ((cnt + (text buf).length : ℕ) : ℤ) else .error .stringBounds := by
  induction buf generalizing cnt with
  | nil =>
    rw [countUnits, text_nil, List.length_nil, if_neg (by omega), if_neg List.not_mem_nil]
  | cons u rest ih =>
    have hvalue : (Int32.ofNat cnt).toInt = cnt := Int32.toInt_ofNat_of_lt (by omega)
    rw [countUnits, hvalue]
    by_cases hu : u = 0
    · have hmem : 0 ∈ u :: rest := hu ▸ List.mem_cons_self
      rw [if_pos hu, if_pos hmem, hu, text_null, List.length_nil, if_neg (by omega)]
      rfl
    · have hmem : 0 ∈ u :: rest ↔ 0 ∈ rest := List.mem_cons.trans (or_iff_right (Ne.symm hu))
      rw [if_neg hu, text_cons hu, List.length_cons]
      simp only [hf, true_and, hmem]
      by_cases hend : cnt = p
      · rw [if_pos (by omega), if_pos (by omega)]
      · have hnext : Int32.ofNat cnt + 1 = Int32.ofNat (cnt + 1) := (Int32.ofNat_add cnt 1).symm
        have hlen : cnt + ((text rest).length + 1) = cnt + 1 + (text rest).length := by omega
        rw [if_neg (by omega), hnext, ih (by omega), hlen]

/-- A negative percision ends the count at the first character. -/
theorem countUnits_negative (hf : f.PERCISION_SPECIFIED = true) (hp : percision < 0) (hbuf : buf ≠ []) :
    countUnits f percision buf 0 = if text buf = [] then .ok 0 else .ok percision := by
  obtain ⟨u, rest, rfl⟩ := List.exists_cons_of_ne_nil hbuf
  rw [countUnits]
  by_cases hu : u = 0
  · rw [if_pos hu, hu, text_null, if_pos rfl]
    rfl
  · have hstop : f.PERCISION_SPECIFIED = true ∧ (0 : Int32).toInt ≥ percision := ⟨hf, hp.le⟩
    rw [if_neg hu, if_pos hstop, text_cons hu, if_neg (List.cons_ne_nil u _)]

end Counting

section Texts
variable {t : CharType} {buf s : List t.ValueType} {f : Flags} {width percision cnt : ℤ}

/-- The text of a string, when its count is not negative. -/
theorem stringText_count (hwidth : f.WIDTH_SPECIFIED = true ∨ width = 0) (hcount : countUnits f percision buf 0 = .ok cnt)
    (hcnt : 0 ≤ cnt) :
    stringText f width percision buf =
      .ok (if f.LEFTJUSTIFY then buf.take cnt.toNat ++ List.replicate (width - cnt).toNat (t.ofChar (ascii ' '))
        else List.replicate (width - cnt).toNat (t.ofChar (ascii ' ')) ++ buf.take cnt.toNat) := by
  have happended : appended buf cnt = .ok (buf.take cnt.toNat) := if_neg (by omega)
  rw [stringText]
  split
  next hplain =>
    have hzero : width = 0 := hwidth.resolve_left hplain.1
    have hpad : (width - cnt).toNat = 0 := by omega
    rw [bind_of_ok hcount, happended, hpad, List.replicate_zero, List.append_nil, List.nil_append, ite_self]
    split
    next => rfl
    next h =>
      have hnone : cnt.toNat = 0 := by omega
      rw [hnone, List.take_zero]
  next =>
    have hpad : (if f.WIDTH_SPECIFIED then List.replicate (width - cnt).toNat (t.ofChar (ascii ' ')) else []) =
        List.replicate (width - cnt).toNat (t.ofChar (ascii ' ')) := by
      split
      next => rfl
      next h =>
        have hzero : width = 0 := hwidth.resolve_left h
        have hnone : (width - cnt).toNat = 0 := by omega
        rw [hnone, List.replicate_zero]
    rw [bind_of_ok hcount, bind_of_ok happended, hpad]

/-- A negative count is taken for a large one, or for none. -/
theorem stringText_negative (hcount : countUnits f percision buf 0 = .ok cnt) (hcnt : cnt < 0) :
    stringText f width percision buf = .error .lengthError ∨ stringText f width percision buf = .ok [] := by
  rw [stringText]
  split
  next =>
    rw [bind_of_ok hcount, if_neg (by omega)]
    exact .inr rfl
  next =>
    have happended : appended buf cnt = .error .lengthError := if_pos hcnt
    rw [bind_of_ok hcount, happended]
    exact .inl rfl

theorem stringText_error {e : Trap} (hcount : countUnits f percision buf 0 = .error e) :
    stringText f width percision buf = .error e := by
  rw [stringText, hcount]
  split <;> rfl

end Texts

namespace StringDirective
variable {t : CharType} {d : StringDirective} {buf : List t.ValueType}

/-- The characters that the directive asks for. -/
def content (d : StringDirective) (buf : List t.ValueType) : List t.ValueType :=
  match d.percision.value with
  | none => text buf
  | some p => if p < 0 then text buf else (text buf).take p.toNat

def fill (d : StringDirective) : Fill := if FlagChar.minus ∈ d.flags ∨ d.width.value.getD 0 < 0 then .right else .left

/-- The field that the directive asks for. -/
def expected (d : StringDirective) (buf : List t.ValueType) : List t.ValueType :=
  field (t.ofChar (ascii ' ')) (t.ofChar (ascii '0')) d.fill (d.width.value.getD 0).natAbs [] (d.content buf)

/-- A buffer that can be read up to its null, or as far as the percision goes. -/
def Readable (d : StringDirective) (buf : List t.ValueType) : Prop :=
  0 ∈ buf ∨ ∃ p : ℕ, d.percision.value = some (p : ℤ) ∧ p ≤ buf.length

/-- The arguments for which a directive does what it asks for. -/
structure Honoured (d : StringDirective) (buf : List t.ValueType) : Prop where
  /-- A negative width does not go beyond the string. -/
  width : d.width.value.getD 0 < 0 → (d.width.value.getD 0).natAbs ≤ (d.content buf).length
  /-- The counter does not overflow. -/
  plain : d.percision.value = none → (text buf).length < 2 ^ 31
  /-- The character at a percision can be read. -/
  percision : ∀ p : ℕ, d.percision.value = some (p : ℤ) → 0 ∈ buf ∨ p < buf.length
  /-- A negative percision stands with an empty string. -/
  negative : ∀ p < 0, d.percision.value = some p → text buf = []

theorem flag_width (d : StringDirective) : d.flag.WIDTH_SPECIFIED = d.width.value.isSome := by
  rw [flag, foldl_mark]
  cases d.width <;> cases d.percision <;> rfl

theorem flag_percision (d : StringDirective) : d.flag.PERCISION_SPECIFIED = d.percision.value.isSome := by
  rw [flag, foldl_mark]
  cases d.width <;> cases d.percision <;> rfl

theorem flag_left (d : StringDirective) : d.flag.LEFTJUSTIFY = decide (FlagChar.minus ∈ d.flags) := by
  rw [flag, foldl_mark]
  cases d.width <;> cases d.percision <;> rfl

theorem value_lt {p : ℕ} (h : d.percision.value = some (p : ℤ)) : p < 2 ^ 31 := by
  cases hd : d.percision with
  | absent =>
    rw [hd] at h
    cases h
  | literal ds digits range =>
    rw [hd, Percision.value, Option.some_inj] at h
    omega
  | star v =>
    have hlt := v.toInt_lt
    rw [hd, Percision.value, Option.some_inj] at h
    omega

theorem width_lt (d : StringDirective) : d.width.value.getD 0 < 2 ^ 31 := by
  cases hd : d.width with
  | absent => exact (by decide : (0 : ℤ) < 2 ^ 31)
  | literal n range => exact Int.ofNat_lt.mpr range.2
  | star v => exact v.toInt_lt

/-- The text of a directive. -/
def printed (d : StringDirective) (buf : List t.ValueType) : Except Trap (List t.ValueType) :=
  stringText d.flag (d.width.value.getD 0) (d.percision.value.getD 0) buf

theorem length_expected (d : StringDirective) (buf : List t.ValueType) :
    (d.expected buf).length = max (d.width.value.getD 0).natAbs (d.content buf).length := field_length

theorem printed_count {cnt : ℤ} (hcount : countUnits d.flag (d.percision.value.getD 0) buf 0 = .ok cnt) (hcnt : 0 ≤ cnt) :
    d.printed buf =
      .ok (if FlagChar.minus ∈ d.flags
        then buf.take cnt.toNat ++ List.replicate (d.width.value.getD 0 - cnt).toNat (t.ofChar (ascii ' '))
        else List.replicate (d.width.value.getD 0 - cnt).toNat (t.ofChar (ascii ' ')) ++ buf.take cnt.toNat) := by
  have hwidth : d.flag.WIDTH_SPECIFIED = true ∨ d.width.value.getD 0 = 0 := by
    rw [flag_width]
    cases d.width.value with
    | none => exact .inr rfl
    | some w => exact .inl rfl
  rw [printed, stringText_count hwidth hcount hcnt, flag_left]
  simp only [decide_eq_true_eq]

/-- The characters are counted as the directive asks for. -/
theorem counted (hread : d.Readable buf) (hplain : d.percision.value = none → (text buf).length < 2 ^ 31)
    (hpercision : ∀ p : ℕ, d.percision.value = some (p : ℤ) → 0 ∈ buf ∨ p < buf.length)
    (hnegative : ∀ p < 0, d.percision.value = some p → text buf = []) :
    countUnits d.flag (d.percision.value.getD 0) buf 0 = .ok ((d.content buf).length : ℤ) := by
  have hflag := d.flag_percision
  rw [content]
  cases hvalue : d.percision.value with
  | none =>
    have hnull : 0 ∈ buf := hread.resolve_right fun ⟨p, hp, _⟩ => by simp [hvalue] at hp
    rw [hvalue] at hflag
    rw [countUnits_plain hflag hnull, Int32.zero_add, Int32.toInt_ofNat_of_lt (hplain hvalue)]
  | some p =>
    rw [hvalue] at hflag
    by_cases hp : p < 0
    · have hempty := hnegative p hp hvalue
      have hbuf : buf ≠ [] := by
        rcases hread with hnull | ⟨n, hn, -⟩
        · exact List.ne_nil_of_mem hnull
        · rw [hvalue, Option.some_inj] at hn
          omega
      simp only [if_pos hp, Option.getD_some]
      rw [countUnits_negative hflag hp hbuf, if_pos hempty, hempty]
      rfl
    · obtain ⟨n, rfl⟩ : ∃ n : ℕ, p = n := ⟨p.toNat, by omega⟩
      have hcount := countUnits_percision hflag buf (value_lt hvalue) (Nat.zero_le n)
      simp only [if_neg hp, Option.getD_some, Int.toNat_natCast, List.length_take]
      refine hcount.trans ?_
      rw [Nat.zero_add]
      by_cases hlong : n < (text buf).length
      · rw [if_pos hlong, min_eq_left hlong.le]
      · have hnull : 0 ∈ buf := by
          by_contra hnull
          have hlt : n < buf.length := (hpercision n hvalue).resolve_left hnull
          rw [text_of_notMem hnull] at hlong
          exact hlong hlt
        rw [if_neg hlong, if_pos hnull, min_eq_right (by omega)]

theorem take_content : buf.take (d.content buf).length = d.content buf := by
  have hprefix : d.content buf <+: buf := by
    rw [content]
    split
    · exact isPrefix_text buf
    · split
      · exact isPrefix_text buf
      · exact (List.take_prefix _ _).trans (isPrefix_text buf)
  exact (List.prefix_iff_eq_take.mp hprefix).symm

theorem length_printed {s : List t.ValueType} {cnt : ℤ} (h : d.printed buf = .ok s)
    (hcount : countUnits d.flag (d.percision.value.getD 0) buf 0 = .ok cnt) (hlt : cnt < 2 ^ 31) : s.length < 2 ^ 31 := by
  have hwidth := d.width_lt
  by_cases hcnt : cnt < 0
  · have hnegative : d.printed buf = .error .lengthError ∨ d.printed buf = .ok [] := stringText_negative hcount hcnt
    rcases hnegative with herror | hempty
    · exact absurd (herror.symm.trans h) (by rintro ⟨⟩)
    · rw [← Except.ok.inj (hempty.symm.trans h), List.length_nil]
      decide
  · rw [← Except.ok.inj ((printed_count hcount (by omega)).symm.trans h)]
    have htake : (buf.take cnt.toNat).length ≤ cnt.toNat := List.length_take_le _ _
    split <;> rw [List.length_append, List.length_replicate] <;> omega

/-- Without a percision no text is longer than the counter can count. -/
theorem plain_of_printed (hread : d.Readable buf) (h : d.printed buf = .ok (d.expected buf)) (hvalue : d.percision.value = none) :
    (text buf).length < 2 ^ 31 := by
  by_contra hlong
  have hcontent : d.content buf = text buf := by rw [content, hvalue]
  have hnull : 0 ∈ buf := hread.resolve_right fun ⟨p, hp, _⟩ => by simp [hvalue] at hp
  have hflag := d.flag_percision
  rw [hvalue] at hflag
  obtain ⟨cnt, hcount, hlt⟩ : ∃ cnt : ℤ, countUnits d.flag (d.percision.value.getD 0) buf 0 = .ok cnt ∧ cnt < 2 ^ 31 :=
    ⟨_, countUnits_plain hflag hnull 0, Int32.toInt_lt _⟩
  have hlength : (d.expected buf).length < 2 ^ 31 := length_printed h hcount hlt
  rw [length_expected, hcontent] at hlength
  omega

/-- Where a buffer ends at the percision, the count goes beyond it. -/
theorem percision_of_printed {s : List t.ValueType} (h : d.printed buf = .ok s) {p : ℕ} (hvalue : d.percision.value = some (p : ℤ)) :
    0 ∈ buf ∨ p < buf.length := by
  by_contra hend
  rw [not_or] at hend
  have hflag := d.flag_percision
  rw [hvalue] at hflag
  have hcount := countUnits_percision hflag buf (value_lt hvalue) (Nat.zero_le p)
  rw [text_of_notMem hend.1, Nat.zero_add, if_neg hend.2, if_neg hend.1] at hcount
  rw [printed, hvalue, Option.getD_some, stringText_error hcount] at h
  cases h

/-- With a negative percision no character is printed. -/
theorem negative_of_printed (h : d.printed buf = .ok (d.expected buf)) {p : ℤ} (hp : p < 0) (hvalue : d.percision.value = some p) :
    text buf = [] := by
  by_contra hne
  have hbuf : buf ≠ [] := by
    rintro rfl
    exact hne text_nil
  have hcontent : d.content buf = text buf := by
    rw [content, hvalue]
    exact if_pos hp
  have hflag := d.flag_percision
  rw [hvalue] at hflag
  have hcount := countUnits_negative hflag hp hbuf
  rw [if_neg hne] at hcount
  have hlength := d.length_expected buf
  have hpos := List.length_pos_iff.mpr hne
  rw [printed, hvalue, Option.getD_some] at h
  rcases stringText_negative hcount hp with herror | hempty
  · exact absurd (herror.symm.trans h) (by rintro ⟨⟩)
  · rw [← Except.ok.inj (hempty.symm.trans h), hcontent, List.length_nil] at hlength
    omega

/-- The text that is printed, once its characters are counted as the directive asks for. -/
theorem printed_counted (hcount : countUnits d.flag (d.percision.value.getD 0) buf 0 = .ok ((d.content buf).length : ℤ)) :
    d.printed buf = .ok (d.expected buf) ↔
      (d.width.value.getD 0 < 0 → (d.width.value.getD 0).natAbs ≤ (d.content buf).length) := by
  rw [printed_count hcount (Int.natCast_nonneg _), Int.toNat_natCast, take_content, Except.ok.injEq]
  constructor
  · intro h hwidth
    have hlength := congrArg List.length h
    rw [length_expected] at hlength
    split at hlength <;> rw [List.length_append, List.length_replicate] at hlength <;> omega
  · intro hwidth
    rw [expected, fill]
    by_cases hneg : d.width.value.getD 0 < 0
    · have hblanks : (d.width.value.getD 0 - (d.content buf).length).toNat = 0 := by omega
      rw [hblanks, List.replicate_zero, List.append_nil, List.nil_append, ite_self, field_of_le (hwidth hneg), List.nil_append]
    · have hmissing : (d.width.value.getD 0 - (d.content buf).length).toNat =
          (d.width.value.getD 0).natAbs - (d.content buf).length := by omega
      rw [hmissing]
      simp only [hneg, or_false]
      split <;> rfl

/-- The text is the field for the arguments for which the directive does what it asks for, and for no others. -/
theorem printed_iff (hread : d.Readable buf) : d.printed buf = .ok (d.expected buf) ↔ d.Honoured buf := by
  constructor
  · intro h
    have hplain : d.percision.value = none → (text buf).length < 2 ^ 31 := plain_of_printed hread h
    have hpercision : ∀ p : ℕ, d.percision.value = some (p : ℤ) → 0 ∈ buf ∨ p < buf.length := fun _ => percision_of_printed h
    have hnegative : ∀ p < 0, d.percision.value = some p → text buf = [] := fun _ => negative_of_printed h
    exact ⟨(printed_counted (counted hread hplain hpercision hnegative)).mp h, hplain, hpercision, hnegative⟩
  · rintro ⟨hwidth, hplain, hpercision, hnegative⟩
    exact (printed_counted (counted hread hplain hpercision hnegative)).mpr hwidth

end StringDirective

section Runs
variable {t : CharType} {m : Machine t} {d : StringDirective} {buf s : List t.ValueType} {rest : List (VaArg t)}

theorem spec_string {width percision : Int32}
    (hparams : m.readParams = .ok { m with width := width, percision := percision, ap := .string buf :: rest }) :
    m.spec (ascii 's') = (do
      let text ← stringText m.flag width.toInt percision.toInt buf
      .ok { m with state := .ST_TEXT, width := width, percision := percision, ap := rest, str := m.str ++ text }) := by
  have hc : ascii 's' ≠ ascii 'c' := by decide
  have hpercent : ascii 's' ≠ ascii '%' := by decide
  have hp : ascii 's' ≠ ascii 'p' := by decide
  have hfloat : ascii 's' ∉ chars "FgGeEAa" := by decide
  have hnumber : ascii 's' ∉ chars "fxXodiu" := by decide
  rw [Machine.spec, if_neg hc, if_neg hpercent, if_neg hp, if_neg hfloat, if_neg hnumber, if_pos rfl, bind_of_ok hparams]
  rfl

/-- The scanner takes the string at the conversion. -/
theorem string_examine (d : StringDirective) (format : List t.ValueType) (i : ℕ) (buf : List t.ValueType)
    (rest : List (VaArg t)) (str : List t.ValueType) :
    Machine.examine format ⟨i, .ST_SPEC, d.width.scanned, d.percision.scanned, d.flag, d.args buf ++ rest, str⟩
        (t.ofChar (ascii 's')) = (do
      let text ← d.printed buf
      .ok ⟨i, .ST_TEXT, d.width.param, d.percision.param, d.flag, rest, str ++ text⟩) := by
  let m : Machine t := ⟨i, .ST_SPEC, d.width.scanned, d.percision.scanned, d.flag, d.args buf ++ rest, str⟩
  have hparams : m.readParams =
      .ok { m with width := d.width.param, percision := d.percision.param, ap := .string buf :: rest } :=
    readParams_stars d.flags d.width d.percision rfl rfl rfl (List.append_assoc _ _ _)
  rw [Machine.examine, t.narrow_ofChar]
  exact (spec_string hparams).trans (by rw [d.width.toInt_param, d.percision.toInt_param]; rfl)

theorem string_visits (d : StringDirective) {format : List t.ValueType} {i : ℕ} (h : Stands format i d.units) :
    format[i + (d.units.length - 1)]? = some (t.ofChar (ascii 's')) ∧
      ∀ width percision flag ap str, Visits (Machine.step format) ⟨i, .ST_TEXT, width, percision, flag, ap, str⟩
        ⟨i + (d.units.length - 1), .ST_SPEC, d.width.scanned, d.percision.scanned, d.flag, ap, str⟩ := by
  have hlength : d.units.length - 1 = 1 + d.flags.length + d.width.units.length + d.percision.units.length := by
    rw [StringDirective.units]
    simp only [List.length_cons, List.length_append, List.length_map, show (chars "s").length = 1 from rfl]
    omega
  rw [hlength, ← Nat.add_assoc, ← Nat.add_assoc, ← Nat.add_assoc]
  exact conversion_visits d.flags d.width d.percision (by decide) (by decide) h

theorem string_appends (h : d.printed buf = .ok s) : Appends d.units (d.args buf) s := by
  intro format i hstands width percision flag rest str
  obtain ⟨hget, hvisits⟩ := string_visits d hstands
  have hlen : i + d.units.length = i + (d.units.length - 1) + 1 := by
    rw [StringDirective.units, List.length_cons]
    omega
  have hexamine := string_examine d format (i + (d.units.length - 1)) buf rest str
  rw [h] at hexamine
  exact ⟨_, (hvisits width percision flag _ str).tail (leads_examine hget (by decide) hexamine), rfl, hlen.symm, rfl, rfl⟩

/-- Where the text is an error, so is a call with the directive alone. -/
theorem string_fails {e : Trap} (h : d.printed buf = .error e) : ¬ Appends d.units (d.args buf) s := by
  intro happends
  let format := d.units.map t.ofChar ++ [0]
  have hstands : Stands format 0 d.units := List.prefix_append _ _
  obtain ⟨hget, hvisits⟩ := string_visits d hstands
  have hexamine := string_examine d format (0 + (d.units.length - 1)) buf [] []
  rw [h, List.append_nil] at hexamine
  have hstep := step_error (read_ok_iff.mpr hget) (CharType.ofChar_eq_zero.not.mpr (by decide)) hexamine
  obtain ⟨last, hloop, -⟩ := ok_of_bind happends.printf_eq
  rcases visits_steps hloop (hvisits 0 0 Flags.zero (d.args buf) []) with hend | ⟨m', hlead⟩
  · exact absurd (hstep.symm.trans hend) (by rintro ⟨⟩)
  · exact absurd (hstep.symm.trans hlead) (by rintro ⟨⟩)

/-- The directive appends the field that it asks for, if and only if it stands with such arguments. -/
theorem string_iff (t : CharType) (d : StringDirective) (buf : List t.ValueType) (hread : d.Readable buf) :
    Appends d.units (d.args buf) (d.expected buf) ↔ d.Honoured buf := by
  rw [← StringDirective.printed_iff hread]
  constructor
  · intro h
    cases hprinted : d.printed buf with
    | error e => exact absurd h (string_fails hprinted)
    | ok s => rw [h.unique (string_appends hprinted)]
  · exact string_appends

/-- `%4.2s` with three characters that no null follows. -/
theorem string_iff_cut :
    Appends (chars "%4.2s") [VaArg.string ((chars "abc").map CharType.c8.ofChar)] ((chars "  ab").map CharType.c8.ofChar) := by
  have hhonoured : StringDirective.Honoured ⟨[], .literal 4 (by decide), .literal [2] (by decide) (by decide)⟩
      ((chars "abc").map CharType.c8.ofChar) :=
    ⟨fun h => absurd h (by decide), fun h => absurd h (by decide), fun p hp => .inr (by
      have hvalue : (2 : ℤ) = p := Option.some.inj hp
      change p < 3
      omega), fun p hneg hp => by
      have hvalue : (2 : ℤ) = p := Option.some.inj hp
      omega⟩
  exact (string_iff .c8 ⟨[], .literal 4 (by decide), .literal [2] (by decide) (by decide)⟩ ((chars "abc").map CharType.c8.ofChar)
    (.inr ⟨2, rfl, by decide⟩)).mpr hhonoured

/-- `%.3s` with three characters that no null follows reads a fourth one, and a negative percision makes the call throw. -/
theorem not_string :
    (StringDirective.Readable ⟨[], .absent, .literal [3] (by decide) (by decide)⟩ ((chars "abc").map CharType.c8.ofChar) ∧
      ¬ Appends (chars "%.3s") [VaArg.string ((chars "abc").map CharType.c8.ofChar)] ((chars "abc").map CharType.c8.ofChar)) ∧
    ¬ Appends (chars "%.*s") [.int (-1), VaArg.string ((chars "abc").map CharType.c8.ofChar ++ [0])]
      ((chars "abc").map CharType.c8.ofChar) := by
  constructor
  · have hprinted : StringDirective.printed ⟨[], .absent, .literal [3] (by decide) (by decide)⟩
        ((chars "abc").map CharType.c8.ofChar) = .error .stringBounds := by decide
    exact ⟨.inr ⟨3, rfl, le_rfl⟩, string_fails hprinted⟩
  · have hprinted : StringDirective.printed ⟨[], .absent, .star (-1)⟩ ((chars "abc").map CharType.c8.ofChar ++ [0]) =
        .error .lengthError := by decide
    exact string_fails hprinted

end Runs
end LibXpf.Xpfstring
