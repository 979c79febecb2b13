import LibXpf.Foundation.StepLoops
import LibXpf.Foundation.Tokens
import LibXpf.Xpfstring.Numerals

/-! # Splitting a string

`split` looks for separators with two nested loops, whose counters are of 32 bits, and
appends a token whenever it comes to the separator behind it. What is left at the end is
appended after the loops, without its last character.
-/
namespace LibXpf.Xpfstring
open StepLoops Tokens

/-- Above this length the class throws. -/
def max_size : ℕ := 2 ^ 63 - 1

/-- Subtraction of sizes, which are of 64 bits. -/
def sizeSub (a b : ℕ) : ℕ := (a + 2 ^ 64 - b) % 2 ^ 64

theorem sizeSub_of_le {a b : ℕ} (hba : b ≤ a) (ha : a < 2 ^ 64) : sizeSub a b = a - b := by
  have hsplit : a + 2 ^ 64 - b = a - b + 2 ^ 64 := by omega
  rw [sizeSub, hsplit, Nat.add_mod_right, Nat.mod_eq_of_lt (by omega)]

section Split
variable {α : Type} [DecidableEq α]

/-- A string of `n` characters, from an index of the buffer `c_str` on. -/
def construct (c_str : List α) (pos n : ℕ) : Except Trap (List α) :=
  if max_size < n then .error .lengthError
  else if pos + n ≤ c_str.length then .ok ((c_str.drop pos).take n)
  else .error .stringBounds

/-- One round of the loop over the delimiter, which ends when the character is found. -/
def findStep (delimiter : List α) (ch : α) (m : Bool × ℕ) : Except Trap (Option (Bool × ℕ)) :=
  if m.1 then .ok none
  else
    match delimiter[m.2]? with
    | none => .ok none
    | some d => .ok (some (if ch = d then (true, m.2) else (false, LibXpf.u32 (m.2 + 1))))

/-- The variables of the loop over the string. -/
structure Splitter (α : Type) where
  i : ℕ
  lastpos : ℕ
  lastWasSeparator : Bool
  ret : List (List α)

variable (nul : α) (str delimiter : List α) (ignoreEmptyTokens keepSeparators : Bool)

/-- What is done at a separator. -/
def Splitter.separate (m : Splitter α) : Except Trap (Splitter α) := do
  let size := LibXpf.u32Sub m.i m.lastpos
  let lastpos := if keepSeparators then m.i else LibXpf.u32 (m.i + 1)
  if (¬ ignoreEmptyTokens ∨ size ≠ 0) ∧ ¬ m.lastWasSeparator then do
    let token ← construct (str ++ [nul]) m.lastpos size
    .ok { m with lastpos := lastpos, ret := m.ret ++ [token] }
  else .ok { m with lastpos := lastpos }

/-- The rest of a round, once it is known whether a character is a separator. -/
def Splitter.advance (m : Splitter α) (foundSeparator : Bool) : Except Trap (Option (Splitter α)) := do
  let m ← if foundSeparator then m.separate nul str ignoreEmptyTokens keepSeparators else .ok m
  .ok (some { m with i := LibXpf.u32 (m.i + 1), lastWasSeparator := foundSeparator })

/-- One round of the loop over the string. -/
def Splitter.step (m : Splitter α) : Except Trap (Option (Splitter α)) :=
  match str[m.i]? with
  | none => .ok none
  | some ch => do
    let found ← loop Trap.diverges (findStep delimiter ch) (delimiter.length + 1) (false, 0)
    m.advance nul str ignoreEmptyTokens keepSeparators found.1

/-- What is done after the loops, where the container had `oldSize` strings before. -/
def Splitter.finish (m : Splitter α) (oldSize : ℕ) : Except Trap (List (List α) × ℕ) :=
  if sizeSub str.length 1 > m.lastpos then do
    let token ← construct (str ++ [nul]) m.lastpos (sizeSub str.length 1 - m.lastpos)
    .ok (m.ret ++ [token], LibXpf.u32 ((m.ret ++ [token]).length - oldSize))
  else .ok (m.ret, LibXpf.u32 (m.ret.length - oldSize))

/-- The container `ret`, which may hold strings already, and what `split` returns. -/
def split (ret : List (List α)) : Except Trap (List (List α) × ℕ) :=
  if delimiter = [] then .ok (ret, 0)
  else do
    let m ← loop Trap.diverges (Splitter.step nul str delimiter ignoreEmptyTokens keepSeparators) (str.length + 1)
      ⟨0, 0, false, ret⟩
    m.finish nul str ret.length

end Split

section Find

theorem construct_eq {α : Type} {c_str : List α} {pos n : ℕ} (hle : pos + n ≤ c_str.length) (hsize : n ≤ max_size) :
    construct c_str pos n = .ok ((c_str.drop pos).take n) := by
  rw [construct, if_neg (Nat.not_lt.mpr hsize), if_pos hle]

variable {α : Type} [DecidableEq α] {delimiter done ahead : List α} {ch : α} {fuel : ℕ} {m m' : Bool × ℕ}

/-- The loop over the delimiter finds the characters that it reaches before its counter wraps around. -/
theorem find_eq (hdelimiter : delimiter = done ++ ahead) (hdone : ch ∉ done) (hidx : delimiter.idxOf ch < 2 ^ 32) :
    ∃ j, loop Trap.diverges (findStep delimiter ch) (ahead.length + 1) (false, done.length) = .ok (ch ∈ ahead, j) := by
  induction ahead generalizing done with
  | nil =>
    have hnone : delimiter[done.length]? = none := by
      rw [hdelimiter, List.append_nil]
      exact List.getElem?_eq_none le_rfl
    have hstep : findStep delimiter ch (false, done.length) = .ok none := by
      simp only [findStep, hnone, Bool.false_eq_true, if_false]
    exact ⟨done.length, by simp only [loop, hstep, List.not_mem_nil, decide_false]⟩
  | cons d ahead ih =>
    have hget : delimiter[done.length]? = some d := by
      rw [hdelimiter, List.getElem?_append_right le_rfl, Nat.sub_self, List.getElem?_cons_zero]
    by_cases hd : ch = d
    · have hstep : findStep delimiter ch (false, done.length) = .ok (some (true, done.length)) := by
        simp only [findStep, hget, if_pos hd, Bool.false_eq_true, if_false]
      have hend : findStep delimiter ch (true, done.length) = .ok none := if_pos rfl
      have hmem : decide (ch ∈ d :: ahead) = true := decide_eq_true (hd ▸ List.mem_cons_self)
      refine ⟨done.length, ?_⟩
      rw [List.length_cons, loop, hstep, hmem]
      simp only [loop, hend]
    · have hidx' : done.length + 1 < 2 ^ 32 := by
        rw [hdelimiter, List.idxOf_append_of_notMem hdone, List.idxOf_cons_ne _ (Ne.symm hd)] at hidx
        omega
      have hstep : findStep delimiter ch (false, done.length) = .ok (some (false, done.length + 1)) := by
        simp only [findStep, hget, if_neg hd, Bool.false_eq_true, if_false, u32_of_lt hidx']
      have hsplit : delimiter = (done ++ [d]) ++ ahead := by rw [hdelimiter, List.append_assoc, List.singleton_append]
      have hnot : ch ∉ done ++ [d] := by
        rw [List.mem_append, List.mem_singleton, not_or]
        exact ⟨hdone, hd⟩
      obtain ⟨j, hj⟩ := ih hsplit hnot
      rw [List.length_append, List.length_singleton] at hj
      refine ⟨j, ?_⟩
      rw [List.length_cons, loop, hstep]
      simp only [hj, List.mem_cons, hd, false_or]

theorem find_step (h : Leads (findStep delimiter ch) m m') (hlt : m.2 < 2 ^ 32) :
    (m'.1 = true → delimiter[m'.2]? = some ch) ∧ m'.2 < 2 ^ 32 := by
  rw [Leads, findStep] at h
  split at h
  · exact absurd (Except.ok.inj h) (by rintro ⟨⟩)
  · cases hget : delimiter[m.2]? with
    | none =>
      rw [hget] at h
      exact absurd (Except.ok.inj h) (by rintro ⟨⟩)
    | some d =>
      rw [hget] at h
      obtain rfl := Option.some.inj (Except.ok.inj h)
      split
      next hd => exact ⟨fun _ => hd ▸ hget, hlt⟩
      next => exact ⟨fun h => absurd h Bool.false_ne_true, Nat.mod_lt _ (by decide)⟩

/-- If the loop ends, the counter has not wrapped around before. -/
theorem find_idxOf (h : loop Trap.diverges (findStep delimiter ch) fuel (false, 0) = .ok m) : delimiter.idxOf ch < 2 ^ 32 := by
  obtain ⟨hvisits, hend⟩ := loop_ok h
  have hm : (m.1 = true → delimiter[m.2]? = some ch) ∧ m.2 < 2 ^ 32 := by
    clear h hend
    induction hvisits with
    | refl => exact ⟨fun h => absurd h Bool.false_ne_true, by decide⟩
    | tail _ hlead ih => exact find_step hlead ih.2
  rw [findStep] at hend
  split at hend
  next hfound =>
    obtain ⟨hlt, hget⟩ := List.getElem?_eq_some_iff.mp (hm.1 hfound)
    refine lt_of_not_ge fun hge => ?_
    have hbefore := List.not_of_lt_findIdx (hm.2.trans_le hge)
    exact beq_eq_false_iff_ne.mp hbefore hget
  next =>
    cases hget : delimiter[m.2]? with
    | some d =>
      rw [hget] at hend
      exact absurd (Except.ok.inj hend) (by rintro ⟨⟩)
    | none => exact (List.idxOf_le_length.trans (List.getElem?_eq_none_iff.mp hget)).trans_lt hm.2

/-- A character that a separator is found for, or not. -/
theorem find_full (hidx : delimiter.idxOf ch < 2 ^ 32) :
    ∃ j, loop Trap.diverges (findStep delimiter ch) (delimiter.length + 1) (false, 0) = .ok (ch ∈ delimiter, j) :=
  find_eq rfl List.not_mem_nil hidx

end Find

section Scan
variable {α : Type} [DecidableEq α] {nul : α} {str delimiter : List α} {ret : List (List α)} {m m' : Splitter α} {fuel : ℕ}

def isSeparator (delimiter : List α) (ch : α) : Bool := ch ∈ delimiter

/-- The tokens up to `lastpos` are in the container, and no separator has come after it. -/
structure Scanned (str delimiter : List α) (ret : List (List α)) (m : Splitter α) : Prop where
  bound : m.i ≤ str.length
  le : m.lastpos ≤ m.i
  complete : Complete (isSeparator delimiter) (str.take m.lastpos)
  piece : ∀ a ∈ (str.take m.i).drop m.lastpos, isSeparator delimiter a = false
  ret : m.ret = ret ++ tokens (isSeparator delimiter) (str.take m.lastpos)
  last : m.lastWasSeparator = true → m.lastpos = m.i

theorem scanned_start : Scanned str delimiter ret ⟨0, 0, false, ret⟩ where
  bound := Nat.zero_le _
  le := le_rfl
  complete := by
    rw [List.take_zero]
    rintro a ⟨⟩
  piece := by
    rw [List.take_zero]
    rintro a ⟨⟩
  ret := by rw [List.take_zero, tokens_nil, List.append_nil]
  last h := absurd h Bool.false_ne_true

/-- At a separator the part of the string behind `lastpos` is a token, unless it is empty. -/
theorem separate_eq (hm : Scanned str delimiter ret m) (hlt : m.i < str.length) (hsize : str.length < 2 ^ 32) :
    m.separate nul str true false =
      .ok { m with lastpos := m.i + 1, ret := m.ret ++ tokens (isSeparator delimiter) ((str.take m.i).drop m.lastpos) } := by
  have hle := hm.le
  have hsub : LibXpf.u32Sub m.i m.lastpos = m.i - m.lastpos := u32Sub_of_le hle (by omega)
  have hnext : LibXpf.u32 (m.i + 1) = m.i + 1 := u32_of_lt (by omega)
  have htoken : construct (str ++ [nul]) m.lastpos (m.i - m.lastpos) = .ok ((str.take m.i).drop m.lastpos) := by
    rw [construct_eq (by rw [List.length_append]; omega) (by rw [max_size]; omega), List.drop_take,
      List.drop_append_of_le_length (by omega), List.take_append_of_le_length (by rw [List.length_drop]; omega)]
  have hlen : ((str.take m.i).drop m.lastpos).length = m.i - m.lastpos := by
    rw [List.length_drop, List.length_take, Nat.min_eq_left hlt.le]
  rw [Splitter.separate, hsub, hnext, tokens_of_none hm.piece]
  by_cases hempty : (str.take m.i).drop m.lastpos = []
  · have hzero : m.i - m.lastpos = 0 := by rw [← hlen, hempty, List.length_nil]
    rw [if_pos hempty, List.append_nil, if_neg (by rw [hzero]; simp)]
    rfl
  · have hpos : m.i - m.lastpos ≠ 0 := by
      rw [← hlen]
      exact List.length_eq_zero_iff.not.mpr hempty
    have hlast : ¬ m.lastWasSeparator = true := by
      intro h
      have := hm.last h
      omega
    rw [if_neg hempty, if_pos ⟨.inr hpos, hlast⟩, htoken]
    rfl

/-- A round of the loop takes in one character. -/
theorem split_step (nul : α) (hm : Scanned str delimiter ret m) (hlt : m.i < str.length) (hsize : str.length < 2 ^ 32)
    (hidx : delimiter.idxOf str[m.i] < 2 ^ 32) :
    ∃ m', m.step nul str delimiter true false = .ok (some m') ∧ m'.i = m.i + 1 ∧ Scanned str delimiter ret m' := by
  have hget : str[m.i]? = some str[m.i] := List.getElem?_eq_getElem hlt
  have hnext : LibXpf.u32 (m.i + 1) = m.i + 1 := u32_of_lt (by omega)
  have hle := hm.le
  have htake : str.take (m.i + 1) = str.take m.i ++ [str[m.i]] := by
    rw [List.take_add_one, hget]
    rfl
  have hpiece : str.take m.i = str.take m.lastpos ++ (str.take m.i).drop m.lastpos := by
    conv_lhs => rw [← List.take_append_drop m.lastpos (str.take m.i), List.take_take, Nat.min_eq_left hle]
  obtain ⟨j, hj⟩ := find_full hidx
  have hstep : m.step nul str delimiter true false = m.advance nul str true false (decide (str[m.i] ∈ delimiter)) := by
    rw [Splitter.step, hget]
    simp only [hj]
    rfl
  rw [hstep, Splitter.advance]
  by_cases hsep : str[m.i] ∈ delimiter
  · let m' : Splitter α := ⟨m.i + 1, m.i + 1, true, m.ret ++ tokens (isSeparator delimiter) ((str.take m.i).drop m.lastpos)⟩
    have hyes : isSeparator delimiter str[m.i] = true := decide_eq_true hsep
    have hcomplete : Complete (isSeparator delimiter) (str.take (m.i + 1)) := by
      rw [htake]
      exact complete_append_singleton.mpr hyes
    have htokens : tokens (isSeparator delimiter) (str.take (m.i + 1)) =
        tokens (isSeparator delimiter) (str.take m.lastpos) ++
          tokens (isSeparator delimiter) ((str.take m.i).drop m.lastpos) := by
      conv_lhs => rw [htake, tokens_append_singleton _ hyes, hpiece, tokens_append hm.complete]
    refine ⟨m', ?_, rfl, hlt, le_rfl, hcomplete, ?_, ?_, fun _ => rfl⟩
    · rw [decide_eq_true hsep, if_pos rfl, separate_eq hm hlt hsize]
      exact congrArg (fun i => Except.ok (some (⟨i, m'.lastpos, true, m'.ret⟩ : Splitter α))) hnext
    · intro a ha
      rw [List.drop_take_self] at ha
      exact absurd ha List.not_mem_nil
    · rw [htokens, ← List.append_assoc, ← hm.ret]
  · let m' : Splitter α := ⟨m.i + 1, m.lastpos, false, m.ret⟩
    have hno : isSeparator delimiter str[m.i] = false := decide_eq_false hsep
    refine ⟨m', ?_, rfl, hlt, hle.trans (Nat.le_succ _), hm.complete, ?_, hm.ret, fun h => absurd h Bool.false_ne_true⟩
    · rw [decide_eq_false hsep, if_neg Bool.false_ne_true]
      exact congrArg (fun i => Except.ok (some (⟨i, m'.lastpos, false, m'.ret⟩ : Splitter α))) hnext
    · intro a ha
      have hpast : m.lastpos ≤ (str.take m.i).length := by
        rw [List.length_take]
        omega
      rw [htake, List.drop_append_of_le_length hpast] at ha
      rcases List.mem_append.mp ha with ha | ha
      · exact hm.piece a ha
      · rw [List.mem_singleton.mp ha, hno]

/-- The loop over the string comes to its end, with all tokens that a separator follows. -/
theorem split_loop (nul : α) (hm : Scanned str delimiter ret m) (hsize : str.length < 2 ^ 32)
    (hidx : ∀ ch ∈ str, delimiter.idxOf ch < 2 ^ 32) (hfuel : str.length - m.i < fuel) :
    ∃ m', loop Trap.diverges (Splitter.step nul str delimiter true false) fuel m = .ok m' ∧ m'.i = str.length ∧
      Scanned str delimiter ret m' := by
  induction fuel generalizing m with
  | zero => omega
  | succ fuel ih =>
    by_cases hlt : m.i < str.length
    · obtain ⟨m', hstep, hi, hm'⟩ := split_step nul hm hlt hsize (hidx _ (List.getElem_mem hlt))
      obtain ⟨last, hloop, hlast⟩ := ih hm' (by omega)
      exact ⟨last, by rw [loop, hstep]; exact hloop, hlast⟩
    · have hstep : m.step nul str delimiter true false = .ok none := by
        rw [Splitter.step, List.getElem?_eq_none (Nat.not_lt.mp hlt)]
      have hbound := hm.bound
      exact ⟨m, by rw [loop, hstep], by omega, hm⟩

omit [DecidableEq α] in
theorem separate_i (h : m.separate nul str true false = .ok m') : m'.i = m.i := by
  rw [Splitter.separate] at h
  split at h
  · obtain ⟨token, -, h⟩ := ok_of_bind h
    obtain rfl := Except.ok.inj h
    rfl
  · obtain rfl := Except.ok.inj h
    rfl

/-- A round that does not fail is behind the string, or has looked for its character in the delimiter. -/
theorem split_step_cases {next : Option (Splitter α)} (h : m.step nul str delimiter true false = .ok next) :
    (str[m.i]? = none ∧ next = none) ∨
      ∃ ch m', str[m.i]? = some ch ∧ delimiter.idxOf ch < 2 ^ 32 ∧ next = some m' ∧ m'.i = LibXpf.u32 (m.i + 1) := by
  rw [Splitter.step] at h
  cases hget : str[m.i]? with
  | none =>
    rw [hget] at h
    exact .inl ⟨rfl, (Except.ok.inj h).symm⟩
  | some ch =>
    rw [hget] at h
    obtain ⟨found, hfind, h⟩ := ok_of_bind h
    rw [Splitter.advance] at h
    split at h
    · obtain ⟨m', hm', h⟩ := ok_of_bind h
      have hi : LibXpf.u32 (m'.i + 1) = LibXpf.u32 (m.i + 1) := congrArg (fun i => LibXpf.u32 (i + 1)) (separate_i hm')
      exact .inr ⟨ch, _, rfl, find_idxOf hfind, (Except.ok.inj h).symm, hi⟩
    · exact .inr ⟨ch, _, rfl, find_idxOf hfind, (Except.ok.inj h).symm, rfl⟩

/-- If the loop over the string ends, no counter has wrapped around. -/
theorem split_counts (h : loop Trap.diverges (Splitter.step nul str delimiter true false) fuel ⟨0, 0, false, ret⟩ = .ok m) :
    str.length < 2 ^ 32 ∧ ∀ ch ∈ str, delimiter.idxOf ch < 2 ^ 32 := by
  obtain ⟨hvisits, hend⟩ := loop_ok h
  have hm : m.i < 2 ^ 32 ∧ ∀ ch ∈ str.take m.i, delimiter.idxOf ch < 2 ^ 32 := by
    clear h hend
    induction hvisits with
    | refl => exact ⟨Nat.two_pow_pos 32, fun ch hch => absurd hch List.not_mem_nil⟩
    | @tail m m' _ hlead ih =>
      obtain ⟨-, hnone⟩ | ⟨ch, _, hget, hidx, hnext, hi⟩ := split_step_cases hlead
      · exact absurd hnone (Option.some_ne_none _)
      obtain rfl := Option.some.inj hnext
      have htake : str.take (m.i + 1) = str.take m.i ++ [ch] := by
        rw [List.take_add_one, hget]
        rfl
      refine ⟨hi ▸ Nat.mod_lt _ (by decide), fun c hc => ?_⟩
      rw [hi] at hc
      have hmem : c ∈ str.take (m.i + 1) := (List.take_subset_take_left str (Nat.mod_le _ _)) hc
      rw [htake] at hmem
      rcases List.mem_append.mp hmem with hmem | hmem
      · exact ih.2 c hmem
      · rwa [List.mem_singleton.mp hmem]
  have hi : str.length ≤ m.i := by
    obtain ⟨hget, -⟩ | ⟨_, _, _, _, hnext, _⟩ := split_step_cases hend
    · exact List.getElem?_eq_none_iff.mp hget
    · exact absurd hnext.symm (Option.some_ne_none _)
  rw [List.take_of_length_le hi] at hm
  exact ⟨hi.trans_lt hm.1, hm.2⟩

end Scan

section Tokens
variable {α : Type} [DecidableEq α] {nul : α} {str delimiter : List α} {ret : List (List α)}

/-- `split` appends the tokens of the string and returns their number. -/
def SplitsExactly (nul : α) (str delimiter : List α) (ret : List (List α)) : Prop :=
  split nul str delimiter true false ret =
    .ok (ret ++ tokens (isSeparator delimiter) str, (tokens (isSeparator delimiter) str).length)

instance (nul : α) (str delimiter : List α) (ret : List (List α)) : Decidable (SplitsExactly nul str delimiter ret) :=
  inferInstanceAs (Decidable (_ = _))

/-- The last character is a separator. -/
def Terminated (str delimiter : List α) : Prop := ∃ ch ∈ delimiter, str.getLast? = some ch

/-- The part of the string behind the last separator is empty if the string ends with one. -/
theorem terminated_iff {m : Splitter α} (hm : Scanned str delimiter ret m) (hi : m.i = str.length) (hstr : str ≠ []) :
    Terminated str delimiter ↔ str.drop m.lastpos = [] := by
  have hpiece := hm.piece
  rw [hi, List.take_length] at hpiece
  constructor
  · rintro ⟨ch, hch, hlast⟩
    by_contra hne
    have hmem : ch ∈ str.drop m.lastpos := by
      refine List.mem_of_getLast? ?_
      rw [List.getLast?_drop, hlast, if_neg fun hle => hne (List.drop_of_length_le hle)]
    exact absurd (hpiece ch hmem) (by rw [isSeparator, decide_eq_true hch]; decide)
  · intro hnil
    have htake : str.take m.lastpos = str := List.take_of_length_le (List.drop_eq_nil_iff.mp hnil)
    have hcomplete := hm.complete
    rw [htake] at hcomplete
    have hlast := List.getLast?_eq_some_getLast hstr
    exact ⟨_, of_decide_eq_true (hcomplete _ hlast), hlast⟩

omit [DecidableEq α] in
/-- What is made of the part behind the last separator. -/
theorem finish_eq (nul : α) {m : Splitter α} (hsize : str.length < 2 ^ 32) (hstr : str ≠ []) (hle : m.lastpos ≤ str.length) (oldSize : ℕ) :
    ∃ rest, m.finish nul str oldSize = .ok (m.ret ++ rest, LibXpf.u32 ((m.ret ++ rest).length - oldSize)) ∧
      (rest = [] ∨ str.drop m.lastpos ≠ [] ∧ rest = [(str.drop m.lastpos).dropLast]) := by
  have hpos : 0 < str.length := List.length_pos_iff.mpr hstr
  have hlast : sizeSub str.length 1 = str.length - 1 := sizeSub_of_le hpos (by omega)
  rw [Splitter.finish, hlast]
  by_cases hmore : str.length - 1 > m.lastpos
  · have htoken : construct (str ++ [nul]) m.lastpos (str.length - 1 - m.lastpos) = .ok (str.drop m.lastpos).dropLast := by
      rw [construct_eq (by rw [List.length_append]; omega) (by rw [max_size]; omega), List.dropLast_eq_take,
        List.drop_append_of_le_length hle, List.take_append_of_le_length (by rw [List.length_drop]; omega), List.length_drop,
        Nat.sub_right_comm]
    have hne : str.drop m.lastpos ≠ [] := by
      rw [ne_eq, List.drop_eq_nil_iff]
      omega
    refine ⟨[(str.drop m.lastpos).dropLast], ?_, .inr ⟨hne, rfl⟩⟩
    rw [if_pos hmore, htoken]
    rfl
  · refine ⟨[], ?_, .inl rfl⟩
    rw [if_neg hmore, List.append_nil]

omit [DecidableEq α] in
/-- The size of an empty string less one is the greatest size, and no string is that long. -/
theorem finish_nil {m : Splitter α} (hm : m.lastpos = 0) (oldSize : ℕ) : m.finish nul [] oldSize = .error .lengthError := by
  have hlast : sizeSub 0 1 = 2 ^ 64 - 1 := by decide
  have htoken : construct ([] ++ [nul]) 0 (2 ^ 64 - 1 - 0) = .error .lengthError := if_pos (by rw [max_size]; omega)
  rw [Splitter.finish, List.length_nil, hlast, hm, if_pos (by decide), htoken]
  rfl

/-- The loops come to their end if their counters suffice. -/
theorem split_eq (nul : α) (ret : List (List α)) (hdelimiter : delimiter ≠ []) (hsize : str.length < 2 ^ 32) (hidx : ∀ ch ∈ str, delimiter.idxOf ch < 2 ^ 32) :
    ∃ m, split nul str delimiter true false ret = m.finish nul str ret.length ∧ m.i = str.length ∧
      Scanned str delimiter ret m := by
  have hfuel : str.length - 0 < str.length + 1 := Nat.lt_succ_self _
  obtain ⟨m, hloop, hm⟩ := split_loop nul scanned_start hsize hidx hfuel
  refine ⟨m, ?_, hm⟩
  rw [split, if_neg hdelimiter]
  exact bind_of_ok hloop

/-- The part behind the last separator is never made the token that it is. -/
theorem finish_exact {m : Splitter α} (hm : Scanned str delimiter ret m) (hi : m.i = str.length) (hsize : str.length < 2 ^ 32)
    (hstr : str ≠ []) :
    m.finish nul str ret.length =
        .ok (ret ++ tokens (isSeparator delimiter) str, (tokens (isSeparator delimiter) str).length) ↔
      str.drop m.lastpos = [] := by
  obtain ⟨rest, hfinish, hrest⟩ := finish_eq nul hsize hstr (hi ▸ hm.le) ret.length
  have hpiece := hm.piece
  rw [hi, List.take_length] at hpiece
  have htokens : ret ++ tokens (isSeparator delimiter) str =
      m.ret ++ if str.drop m.lastpos = [] then [] else [str.drop m.lastpos] := by
    rw [hm.ret, List.append_assoc, ← tokens_of_none hpiece, ← tokens_append hm.complete, List.take_append_drop]
  rw [hfinish, Except.ok.injEq, Prod.mk.injEq]
  constructor
  · rintro ⟨happended, -⟩
    by_contra hne
    rw [htokens, if_neg hne] at happended
    obtain rfl := List.append_cancel_left happended
    rcases hrest with hnil | ⟨-, hcut⟩
    · exact absurd hnil (List.cons_ne_nil _ _)
    · have hlen := congrArg List.length (List.cons.inj hcut).1
      have hpos := List.length_pos_iff.mpr hne
      rw [List.length_dropLast] at hlen
      omega
  · intro hnil
    have hnone : rest = [] := hrest.resolve_right fun h => h.1 hnil
    rw [if_pos hnil, List.append_nil] at htokens
    have hcount := length_tokens_le (isSeparator delimiter) str
    rw [hnone, List.append_nil, ← htokens, List.length_append, Nat.add_sub_cancel_left, u32_of_lt (by omega)]
    exact ⟨rfl, rfl⟩

/-- `split` is right exactly for the strings that end with a separator, as long as its counters suffice. -/
theorem splitsExactly_iff (t : CharType) (str delimiter : List t.ValueType) (ret : List (List t.ValueType))
    (hdelimiter : delimiter ≠ []) :
    SplitsExactly 0 str delimiter ret ↔
      Terminated str delimiter ∧ str.length < 2 ^ 32 ∧ ∀ ch ∈ str, delimiter.idxOf ch < 2 ^ 32 := by
  by_cases hcounts : str.length < 2 ^ 32 ∧ ∀ ch ∈ str, delimiter.idxOf ch < 2 ^ 32
  · obtain ⟨m, hsplit, hi, hm⟩ := split_eq (0 : t.ValueType) ret hdelimiter hcounts.1 hcounts.2
    rw [and_iff_left hcounts, SplitsExactly, hsplit]
    by_cases hstr : str = []
    · subst hstr
      have hzero : m.lastpos = 0 := Nat.le_zero.mp (hm.le.trans hi.le)
      rw [finish_nil hzero]
      exact iff_of_false (by rintro ⟨⟩) (by rintro ⟨ch, -, h⟩; cases h)
    · rw [finish_exact hm hi hcounts.1 hstr, terminated_iff hm hi hstr]
  · refine iff_of_false (fun h => hcounts ?_) (fun h => hcounts h.2)
    rw [SplitsExactly, split, if_neg hdelimiter] at h
    obtain ⟨m, hloop, -⟩ := ok_of_bind h
    exact split_counts hloop

theorem splitsExactly_iff_comma : SplitsExactly (0 : CharType.c8.ValueType) ((chars "a,b,,c,").map CharType.c8.ofChar)
    ((chars ",").map CharType.c8.ofChar) [] :=
  (splitsExactly_iff .c8 _ _ [] (by decide)).mpr ⟨⟨_, List.mem_singleton_self _, rfl⟩, by decide, by decide⟩

theorem not_splitsExactly : ¬ ∀ (str delimiter : List CharType.c8.ValueType), delimiter ≠ [] → SplitsExactly 0 str delimiter [] := by
  intro h
  exact absurd (h [] ((chars ",").map CharType.c8.ofChar) (by decide)) (by decide)

end Tokens
end LibXpf.Xpfstring
