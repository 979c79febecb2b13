import LibXpf.Foundation.GuardedRuns
import LibXpf.Getopt.Scanner

/-! # Suboptions

One call of `xgetsubopt` takes a segment off a string, ends it with a null and looks its
name up in the tokens. The name is compared with as many characters of a token only, so
that it is also taken for a token that it abbreviates.
-/
namespace LibXpf.Getopt
open Buffers GuardedRuns

section Model

/-- The memory of the string, and where `*optionp` points to. -/
structure Subopts where
  buffer : List UInt8
  optionp : ℕ
  deriving DecidableEq, Repr

/-- The loop over a segment: where it stops, where the value starts, and the length of the name. -/
def segmentLoop (buffer : List UInt8) : ℕ → (n : ℕ) → (a : Option ℕ) → (nlen : ℕ) → Except Fault (ℕ × Option ℕ × ℕ)
  | 0, _, _, _ => .error .diverges
  | fuel + 1, n, a, nlen => do
    let c ← read .outOfBounds buffer n
    if c = ascii '=' then segmentLoop buffer fuel (n + 1) (if a.isNone then some (n + 1) else a) nlen
    else if c = ascii ',' ∨ c = 0 then .ok (n, a, nlen)
    else segmentLoop buffer fuel (n + 1) a (if a.isNone then nlen + 1 else nlen)

/-- Whether `strncmp` finds no difference. -/
def strncmpEqual (s t : List UInt8) : ℕ → Bool
  | 0 => true
  | n + 1 => charAt s 0 = charAt t 0 && (charAt s 0 = 0 || strncmpEqual s.tail t.tail n)

/-- The index of the token that is found for the name at `p`. -/
def findToken (p : List UInt8) (nlen : ℕ) : (tokens : List (List UInt8)) → (i : ℕ) → Option ℕ
  | [], _ => none
  | token :: tokens, i => if strncmpEqual token p nlen then some i else findToken p nlen tokens (i + 1)

/-- What a call returns, and where `*valuep` points to then. -/
structure Subopt where
  ret : ℤ
  valuep : Option ℕ
  deriving DecidableEq, Repr

def xgetsubopt (tokens : List (List UInt8)) (st : Subopts) : Except Fault (Subopt × Subopts) := do
  let p := st.optionp
  let (n, a, nlen) ← segmentLoop st.buffer (st.buffer.length + 1) p none 0
  let c ← read .outOfBounds st.buffer n
  let optionp := if c = ascii ',' then n + 1 else n
  let buffer ← write .outOfBounds st.buffer n 0
  let found := if nlen > 0 then findToken (buffer.drop p) nlen tokens 0 else none
  .ok (⟨found.elim (-1) (fun i => (i : ℤ)), if found.isSome then a else some p⟩, ⟨buffer, optionp⟩)

end Model

section Caller

/-- The string at a place in memory. -/
def textAt (buffer : List UInt8) (i : ℕ) : List UInt8 := (buffer.drop i).takeWhile (· ≠ 0)

/-- What a caller sees of a call: the segment, what is returned, and the string at `*valuep`. -/
structure Visit where
  segment : List UInt8
  ret : ℤ
  value : Option (List UInt8)
  deriving DecidableEq, Repr

/-- The calls until `*optionp` points to a null. -/
def visits (tokens : List (List UInt8)) : ℕ → Subopts → Except Fault (List Visit × Subopts)
  | 0, _ => .error .diverges
  | fuel + 1, st => do
    let c ← read .outOfBounds st.buffer st.optionp
    if c = 0 then .ok ([], st)
    else do
      let (r, st') ← xgetsubopt tokens st
      let (rest, final) ← visits tokens fuel st'
      .ok (⟨textAt st'.buffer st.optionp, r.ret, r.valuep.map (textAt st'.buffer)⟩ :: rest, final)

/-- The comma-separated segments of a text. Behind a last comma the text is over. -/
def segments (text : List UInt8) : List (List UInt8) :=
  let parts := text.splitOn (ascii ',')
  if parts.getLast? = some [] then parts.dropLast else parts

def nameOf (segment : List UInt8) : List UInt8 := segment.takeWhile (· ≠ ascii '=')

def valueOf (segment : List UInt8) : Option (List UInt8) :=
  if ascii '=' ∈ segment then some ((segment.dropWhile (· ≠ ascii '=')).tail) else none

/-- The right answer to a segment. -/
def answer (tokens : List (List UInt8)) (segment : List UInt8) : Visit :=
  if nameOf segment ∈ tokens then ⟨segment, (tokens.idxOf (nameOf segment) : ℕ), valueOf segment⟩
  else ⟨segment, -1, some segment⟩

/-- The first token that starts with the name is the name itself, if there is one, and an empty name is no token. -/
def Unmistakable (tokens : List (List UInt8)) (name : List UInt8) : Prop :=
  (name = [] → [] ∉ tokens) ∧
    (name ≠ [] → ∀ token, tokens.find? (fun t => name.isPrefixOf t) = some token → token = name)

end Caller

section Segment
variable {before after segment name : List UInt8} {stop : UInt8} {fuel : ℕ}

/-- The characters of a segment. -/
def Plain (segment : List UInt8) : Prop := ∀ c ∈ segment, c ≠ ascii ',' ∧ c ≠ 0

/-- Where the value of a segment starts. -/
def valueStart (start : ℕ) (segment : List UInt8) : Option ℕ :=
  if ascii '=' ∈ segment then some (start + (nameOf segment).length + 1) else none

theorem nameOf_equals : nameOf (ascii '=' :: segment) = [] := rfl

theorem nameOf_cons {c : UInt8} (hc : c ≠ ascii '=') : nameOf (c :: segment) = c :: nameOf segment := by
  rw [nameOf, List.takeWhile_cons, if_pos (decide_eq_true hc)]
  rfl

theorem valueStart_equals (start : ℕ) : valueStart start (ascii '=' :: segment) = some (start + 1) :=
  if_pos List.mem_cons_self

theorem valueStart_cons {c : UInt8} (hc : c ≠ ascii '=') (start : ℕ) :
    valueStart start (c :: segment) = valueStart (start + 1) segment := by
  have hmem : ascii '=' ∈ c :: segment ↔ ascii '=' ∈ segment := by
    rw [List.mem_cons, or_iff_right hc.symm]
  simp only [valueStart, hmem, nameOf_cons hc, List.length_cons, Nat.add_assoc, Nat.add_comm 1]

/-- The loop runs to the end of the segment, and has found its name and its value there. -/
theorem segmentLoop_eq (before after : List UInt8) (hplain : Plain segment) (hstop : stop = ascii ',' ∨ stop = 0) (hfuel : segment.length < fuel)
    (a : Option ℕ) (nlen : ℕ) :
    segmentLoop (before ++ (segment ++ stop :: after)) fuel before.length a nlen =
      .ok (before.length + segment.length, a.or (valueStart before.length segment),
        if a.isNone then nlen + (nameOf segment).length else nlen) := by
  induction segment generalizing before fuel a nlen with
  | nil =>
    obtain ⟨fuel, rfl⟩ := Nat.exists_eq_succ_of_ne_zero (Nat.ne_of_gt hfuel)
    have hequals : stop ≠ ascii '=' := by
      rcases hstop with rfl | rfl <;> decide
    rw [segmentLoop, List.nil_append, read_here rfl, ok_bind, if_neg hequals, if_pos hstop]
    cases a <;> rfl
  | cons c segment ih =>
    obtain ⟨fuel, rfl⟩ := Nat.exists_eq_succ_of_ne_zero (Nat.ne_of_gt (Nat.zero_lt_of_lt hfuel))
    obtain ⟨⟨hcomma, hnull⟩, hrest⟩ := List.forall_mem_cons.mp hplain
    have hnext : ∀ a nlen, segmentLoop (before ++ ((c :: segment) ++ stop :: after)) fuel (before.length + 1) a nlen =
        .ok (before.length + (c :: segment).length, a.or (valueStart (before.length + 1) segment),
          if a.isNone then nlen + (nameOf segment).length else nlen) := by
      intro a nlen
      have hmoved : segmentLoop ((before ++ [c]) ++ (segment ++ stop :: after)) fuel (before ++ [c]).length a nlen = _ :=
        ih (before ++ [c]) hrest (Nat.lt_of_succ_lt_succ hfuel) a nlen
      rw [List.append_assoc, List.singleton_append, List.length_append, List.length_singleton, Nat.add_assoc before.length,
        Nat.add_comm 1 segment.length] at hmoved
      exact hmoved
    have hread : read Fault.outOfBounds (before ++ ((c :: segment) ++ stop :: after)) before.length = .ok c := read_here rfl
    rw [segmentLoop, hread, ok_bind]
    by_cases hequals : c = ascii '='
    · rw [if_pos hequals, hnext, hequals, valueStart_equals, nameOf_equals]
      cases a <;> rfl
    · rw [if_neg hequals, if_neg (not_or.mpr ⟨hcomma, hnull⟩), hnext, valueStart_cons hequals, nameOf_cons hequals]
      cases a with
      | none => simp only [Option.isNone_none, if_true, List.length_cons, Nat.add_assoc, Nat.add_comm 1]
      | some v => rfl

/-- The comparison is with the characters of the name only. -/
theorem strncmpEqual_iff (token more : List UInt8) (hname : 0 ∉ name) :
    strncmpEqual token (name ++ more) name.length = true ↔ name <+: token := by
  induction name generalizing token with
  | nil => exact iff_of_true rfl List.nil_prefix
  | cons c name ih =>
    obtain ⟨hc, hrest⟩ := not_or.mp (mt List.mem_cons.mpr hname)
    cases token with
    | nil =>
      refine iff_of_false ?_ (by simp)
      rw [List.length_cons, strncmpEqual, Bool.and_eq_true, decide_eq_true_eq]
      exact fun h => hc h.1
    | cons d token =>
      rw [List.length_cons, strncmpEqual, Bool.and_eq_true, decide_eq_true_eq, Bool.or_eq_true, decide_eq_true_eq]
      rw [List.cons_append, List.tail_cons, List.tail_cons, ih token hrest, List.cons_prefix_cons]
      constructor
      · rintro ⟨heq, hzero | hstarts⟩
        · exact absurd (heq.symm.trans hzero).symm hc
        · exact ⟨heq.symm, hstarts⟩
      · rintro ⟨rfl, hstarts⟩
        exact ⟨rfl, .inr hstarts⟩

theorem findToken_eq (more : List UInt8) (tokens : List (List UInt8)) (hname : 0 ∉ name) (i : ℕ) :
    findToken (name ++ more) name.length tokens i =
      (tokens.findIdx? fun t => name.isPrefixOf t).map (· + i) := by
  induction tokens generalizing i with
  | nil => rfl
  | cons token tokens ih =>
    have hstarts : strncmpEqual token (name ++ more) name.length = name.isPrefixOf token := by
      rw [Bool.eq_iff_iff, strncmpEqual_iff token more hname, List.isPrefixOf_iff_prefix]
    rw [findToken, hstarts, List.findIdx?_cons, ih]
    split
    · simp
    · simp [Option.map_map, Function.comp_def, Nat.add_assoc, Nat.add_comm 1]

/-- The token that a call takes for the name. -/
def foundToken (tokens : List (List UInt8)) (name : List UInt8) : Option ℕ :=
  if name = [] then none else tokens.findIdx? fun t => name.isPrefixOf t

theorem Plain.name_nulFree (h : Plain segment) : 0 ∉ nameOf segment := by
  intro hzero
  exact (h 0 (List.takeWhile_subset _ hzero)).2 rfl

/-- One call takes a segment off the string. -/
theorem xgetsubopt_eq (tokens : List (List UInt8)) (hplain : Plain segment) (hstop : stop = ascii ',' ∨ stop = 0) :
    xgetsubopt tokens ⟨before ++ (segment ++ stop :: after), before.length⟩ =
      .ok (⟨(foundToken tokens (nameOf segment)).elim (-1) (fun i => (i : ℤ)),
          if (foundToken tokens (nameOf segment)).isSome then valueStart before.length segment else some before.length⟩,
        ⟨before ++ (segment ++ 0 :: after),
          if stop = ascii ',' then before.length + segment.length + 1 else before.length + segment.length⟩) := by
  have hloop := segmentLoop_eq before after hplain hstop
    (show segment.length < (before ++ (segment ++ stop :: after)).length + 1 by
      simp only [List.length_append, List.length_cons]
      omega) none 0
  have hread : read Fault.outOfBounds (before ++ (segment ++ stop :: after)) (before.length + segment.length) = .ok stop := by
    rw [← List.append_assoc]
    exact read_here List.length_append.symm
  have hwrite : write Fault.outOfBounds (before ++ (segment ++ stop :: after)) (before.length + segment.length) 0 =
      .ok (before ++ (segment ++ 0 :: after)) := by
    rw [← List.append_assoc, write_here List.length_append.symm, List.append_assoc]
  have hname : segment ++ 0 :: after = nameOf segment ++ (segment.dropWhile (· ≠ ascii '=') ++ 0 :: after) := by
    rw [← List.append_assoc, nameOf, List.takeWhile_append_dropWhile]
  have hfound : (if (nameOf segment).length > 0 then
        findToken ((before ++ (segment ++ 0 :: after)).drop before.length) (nameOf segment).length tokens 0 else none) =
      foundToken tokens (nameOf segment) := by
    rw [List.drop_left, hname, findToken_eq _ _ hplain.name_nulFree, foundToken]
    by_cases hempty : nameOf segment = []
    · rw [if_pos hempty, hempty]
      rfl
    · rw [if_neg hempty, if_pos (List.length_pos_iff.mpr hempty)]
      simp
  rw [xgetsubopt]
  simp only [hloop, ok_bind, hread, hwrite, Option.isNone_none, if_true, Nat.zero_add, hfound, Option.none_or]

theorem textAt_segment (hplain : Plain segment) : textAt (before ++ (segment ++ 0 :: after)) before.length = segment := by
  rw [textAt, List.drop_left, List.takeWhile_append_of_pos (fun c hc => decide_eq_true (hplain c hc).2),
    List.takeWhile_cons, if_neg (by simp), List.append_nil]

theorem segment_eq (h : ascii '=' ∈ segment) :
    segment = nameOf segment ++ ascii '=' :: (segment.dropWhile (· ≠ ascii '=')).tail := by
  induction segment with
  | nil => exact absurd h List.not_mem_nil
  | cons c segment ih =>
    by_cases hequals : c = ascii '='
    · rw [hequals]
      rfl
    · have hrest := ih ((List.mem_cons.mp h).resolve_left (Ne.symm hequals))
      rw [nameOf_cons hequals, List.dropWhile_cons, if_pos (decide_eq_true hequals), List.cons_append, ← hrest]

theorem textAt_value (hplain : Plain segment) :
    (valueStart before.length segment).map (textAt (before ++ (segment ++ 0 :: after))) = valueOf segment := by
  rw [valueStart, valueOf]
  by_cases h : ascii '=' ∈ segment
  · rw [if_pos h, if_pos h, Option.map_some, textAt]
    have hsplit := segment_eq h
    generalize (segment.dropWhile (· ≠ ascii '=')).tail = value at hsplit ⊢
    have hvalue : ∀ c ∈ value, decide (c ≠ 0) = true := by
      intro c hc
      refine decide_eq_true (hplain c ?_).2
      rw [hsplit]
      exact List.mem_append_right _ (List.mem_cons_of_mem _ hc)
    have hdrop : (before ++ (segment ++ 0 :: after)).drop (before.length + (nameOf segment).length + 1) = value ++ 0 :: after := by
      have hwhole : before ++ (segment ++ 0 :: after) = (before ++ nameOf segment ++ [ascii '=']) ++ (value ++ 0 :: after) := by
        conv_lhs => rw [hsplit]
        simp only [List.append_assoc, List.cons_append, List.nil_append]
      rw [hwhole]
      apply List.drop_left'
      rw [List.length_append, List.length_append, List.length_singleton]
    rw [hdrop, List.takeWhile_append_of_pos hvalue, List.takeWhile_cons, if_neg (by simp), List.append_nil]
  · rw [if_neg h, if_neg h]
    rfl

/-- What a caller sees of the call for a segment. -/
def seen (tokens : List (List UInt8)) (segment : List UInt8) : Visit :=
  (foundToken tokens (nameOf segment)).elim ⟨segment, -1, some segment⟩ fun i => ⟨segment, i, valueOf segment⟩

/-- What a caller sees does not depend on where the segment stands. -/
theorem seen_eq (tokens : List (List UInt8)) (hplain : Plain segment) :
    (⟨textAt (before ++ (segment ++ 0 :: after)) before.length,
      (foundToken tokens (nameOf segment)).elim (-1) (fun i => (i : ℤ)),
      (if (foundToken tokens (nameOf segment)).isSome then valueStart before.length segment else some before.length).map
        (textAt (before ++ (segment ++ 0 :: after)))⟩ : Visit) = seen tokens segment := by
  rw [textAt_segment hplain, seen]
  cases foundToken tokens (nameOf segment) with
  | none =>
    rw [Option.isSome_none, if_neg Bool.false_ne_true, Option.map_some, textAt_segment hplain]
    rfl
  | some i =>
    rw [Option.isSome_some, if_pos rfl, textAt_value hplain]
    rfl

end Segment

section Run
variable {tokens : List (List UInt8)} {text : List UInt8}

theorem segments_nil : segments [] = [] := by decide

theorem segments_last {segment : List UInt8} (hcomma : ascii ',' ∉ segment) (hne : segment ≠ []) :
    segments segment = [segment] := by
  rw [segments, List.splitOn_eq_singleton hcomma]
  exact if_neg (fun h => hne (Option.some.inj h))

theorem segments_cons {segment : List UInt8} (hcomma : ascii ',' ∉ segment) (rest : List UInt8) :
    segments (segment ++ ascii ',' :: rest) = segment :: segments rest := by
  have hsplit : (segment ++ ascii ',' :: rest).splitOn (ascii ',') = segment :: rest.splitOn (ascii ',') := by
    rw [List.splitOn_append_cons_self, List.splitOn_eq_singleton hcomma, List.singleton_append]
  have hne := List.splitOn_ne_nil (ascii ',') rest
  rw [segments, segments, hsplit, List.getLast?_cons_of_ne_nil hne, List.dropLast_cons_of_ne_nil hne]
  split
  · rfl
  · rfl

/-- A text has a segment in front of its first comma or of its end. -/
theorem text_cases (text : List UInt8) :
    ∃ segment, ascii ',' ∉ segment ∧ (text = segment ∨ ∃ rest, text = segment ++ ascii ',' :: rest) := by
  induction text with
  | nil => exact ⟨[], List.not_mem_nil, .inl rfl⟩
  | cons c text ih =>
    by_cases hc : c = ascii ','
    · exact ⟨[], List.not_mem_nil, .inr ⟨text, by rw [hc, List.nil_append]⟩⟩
    · obtain ⟨segment, hcomma, htext⟩ := ih
      refine ⟨c :: segment, ?_, ?_⟩
      · rw [List.mem_cons, not_or]
        exact ⟨Ne.symm hc, hcomma⟩
      · rcases htext with rfl | ⟨rest, rfl⟩
        · exact .inl rfl
        · exact .inr ⟨rest, rfl⟩

theorem plain_segment {segment : List UInt8} (hcomma : ascii ',' ∉ segment) (hnull : 0 ∉ segment) : Plain segment := by
  intro c hc
  refine ⟨fun heq => hcomma (heq ▸ hc), fun heq => hnull (heq ▸ hc)⟩

/-- A call in front of a segment, and what the caller does then. -/
theorem visits_segment (tokens : List (List UInt8)) {before after segment : List UInt8} {stop : UInt8} {fuel : ℕ}
    {r : List Visit × Subopts} (hplain : Plain segment) (hstop : stop = ascii ',' ∨ stop = 0 ∧ segment ≠ [])
    (hrest : visits tokens fuel ⟨before ++ (segment ++ 0 :: after),
      if stop = ascii ',' then before.length + segment.length + 1 else before.length + segment.length⟩ = .ok r) :
    visits tokens (fuel + 1) ⟨before ++ (segment ++ stop :: after), before.length⟩ =
      .ok (seen tokens segment :: r.1, r.2) := by
  have hread : ∃ c, read Fault.outOfBounds (before ++ (segment ++ stop :: after)) before.length = .ok c ∧ c ≠ 0 := by
    cases segment with
    | nil =>
      obtain rfl := hstop.resolve_right (fun h => h.2 rfl)
      exact ⟨ascii ',', read_here rfl, by decide⟩
    | cons c segment => exact ⟨c, read_here rfl, (hplain c List.mem_cons_self).2⟩
  obtain ⟨c, hc, hne⟩ := hread
  rw [visits, hc, ok_bind, if_neg hne, xgetsubopt_eq tokens hplain (hstop.imp_right And.left), ok_bind]
  simp only [hrest, ok_bind, seen_eq tokens hplain]

/-- The calls visit the segments of a text, each once and in order. -/
theorem visits_eq (tokens : List (List UInt8)) (before text after : List UInt8) (hnull : 0 ∉ text) {fuel : ℕ}
    (hfuel : text.length < fuel) :
    ∃ final, visits tokens fuel ⟨before ++ (text ++ 0 :: after), before.length⟩ =
        .ok ((segments text).map (seen tokens), final) ∧ final.optionp = before.length + text.length := by
  induction fuel generalizing before text with
  | zero => exact absurd hfuel (Nat.not_lt_zero _)
  | succ fuel ih =>
    obtain ⟨segment, hcomma, rfl | ⟨rest, rfl⟩⟩ := text_cases text
    · by_cases hne : text = []
      · subst hne
        refine ⟨⟨before ++ ([] ++ 0 :: after), before.length⟩, ?_, rfl⟩
        rw [visits, List.nil_append, read_here rfl, ok_bind, if_pos rfl, segments_nil]
        rfl
      · have hlen := List.length_pos_iff.mpr hne
        obtain ⟨final, hrun, hfinal⟩ := ih (before ++ text) [] List.not_mem_nil (by rw [List.length_nil]; omega)
        rw [List.append_assoc, List.nil_append, List.length_append, segments_nil] at hrun
        refine ⟨final, ?_, hfinal.trans List.length_append⟩
        rw [visits_segment tokens (plain_segment hcomma hnull) (.inr ⟨rfl, hne⟩) hrun, segments_last hcomma hne]
        rfl
    · rw [List.mem_append, not_or] at hnull
      have hnull' : 0 ∉ rest := fun h => hnull.2 (List.mem_cons_of_mem _ h)
      rw [List.length_append, List.length_cons] at hfuel
      obtain ⟨final, hrun, hfinal⟩ := ih (before ++ segment ++ [0]) rest hnull' (by omega)
      have hbuffer : before ++ segment ++ [0] ++ (rest ++ 0 :: after) = before ++ (segment ++ 0 :: (rest ++ 0 :: after)) := by
        simp only [List.append_assoc, List.singleton_append]
      have hlength : (before ++ segment ++ [0]).length = before.length + segment.length + 1 := by
        simp only [List.length_append, List.length_singleton]
      rw [hbuffer, hlength] at hrun
      rw [hlength] at hfinal
      refine ⟨final, ?_, ?_⟩
      · rw [segments_cons hcomma, List.append_assoc, List.cons_append,
          visits_segment tokens (plain_segment hcomma hnull.1) (.inl rfl) hrun]
        rfl
      · rw [hfinal, List.length_append, List.length_cons]
        omega

/-- The token that is found is the first one that starts with the name. -/
theorem findIdx_eq_idxOf_iff {name : List UInt8} {i : ℕ} (h : (tokens.findIdx? fun t => name.isPrefixOf t) = some i) :
    (name ∈ tokens ∧ tokens.idxOf name = i) ↔
      ∀ token, (tokens.find? fun t => name.isPrefixOf t) = some token → token = name := by
  obtain ⟨hi, hstarts, hbefore⟩ := List.findIdx?_eq_some_iff_getElem.mp h
  have hfind : (tokens.find? fun t => name.isPrefixOf t) = some tokens[i] :=
    List.find?_eq_some_iff_getElem.mpr ⟨hstarts, i, hi, rfl, fun j hj => by rw [Bool.eq_false_iff.mpr (hbefore j hj)]; rfl⟩
  have hself : name.isPrefixOf name = true := List.isPrefixOf_iff_prefix.mpr (List.prefix_refl name)
  constructor
  · rintro ⟨hmem, rfl⟩ token htoken
    rw [hfind] at htoken
    rw [← Option.some.inj htoken, List.getElem_idxOf]
  · intro honly
    have hname : tokens[i] = name := honly _ hfind
    have hmem : name ∈ tokens := hname ▸ List.getElem_mem hi
    refine ⟨hmem, le_antisymm ?_ ?_⟩
    · by_contra hlater
      have hne := List.not_of_lt_findIdx (not_le.mp hlater)
      rw [hname, beq_self_eq_true] at hne
      exact Bool.false_ne_true hne.symm
    · by_contra hearlier
      have hne := hbefore (tokens.idxOf name) (not_le.mp hearlier)
      rw [List.getElem_idxOf] at hne
      exact hne hself

/-- The answer to a segment is right if and only if its name cannot be mistaken. -/
theorem seen_eq_answer_iff (segment : List UInt8) :
    seen tokens segment = answer tokens segment ↔ Unmistakable tokens (nameOf segment) := by
  rw [seen, foundToken, answer, Unmistakable]
  generalize nameOf segment = name
  by_cases hempty : name = []
  · rw [if_pos hempty, Option.elim_none, hempty]
    by_cases hmem : [] ∈ tokens
    · rw [if_pos hmem]
      exact iff_of_false (fun h => by simpa using congrArg Visit.ret h) (fun h => h.1 rfl hmem)
    · rw [if_neg hmem]
      exact iff_of_true rfl ⟨fun _ => hmem, fun h => absurd rfl h⟩
  · rw [if_neg hempty]
    cases hfound : tokens.findIdx? fun t => name.isPrefixOf t with
    | none =>
      have hnone := List.findIdx?_eq_none_iff.mp hfound
      have hmem : name ∉ tokens := by
        intro hmem
        exact Bool.false_ne_true ((hnone name hmem).symm.trans (List.isPrefixOf_iff_prefix.mpr (List.prefix_refl name)))
      rw [Option.elim_none, if_neg hmem]
      refine iff_of_true rfl ⟨fun h => absurd h hempty, fun _ token htoken => ?_⟩
      have hstarts := List.find?_some htoken
      rw [hnone token (List.mem_of_find?_eq_some htoken)] at hstarts
      exact absurd hstarts Bool.false_ne_true
    | some i =>
      have hiff := findIdx_eq_idxOf_iff hfound
      rw [Option.elim_some, and_iff_right (fun h => absurd h hempty), forall_prop_of_true hempty, ← hiff]
      by_cases hmem : name ∈ tokens
      · rw [if_pos hmem, Visit.mk.injEq]
        simp only [true_and, and_true, hmem, Nat.cast_inj, eq_comm]
      · rw [if_neg hmem]
        exact iff_of_false (fun h => by simpa using congrArg Visit.ret h) (fun h => hmem h.1)

/-- The calls answer all the segments of a text right if and only if no name in it can be mistaken. -/
theorem visits_right_iff (tokens : List (List UInt8)) (before text after : List UInt8) (hnull : 0 ∉ text) :
    Returns (visits tokens (text.length + 1) ⟨before ++ (text ++ 0 :: after), before.length⟩) (fun r =>
        r.1 = (segments text).map (answer tokens) ∧ r.2.optionp = before.length + text.length) ↔
      ∀ segment ∈ segments text, Unmistakable tokens (nameOf segment) := by
  obtain ⟨final, hrun, hfinal⟩ := visits_eq tokens before text after hnull (Nat.lt_succ_self text.length)
  have hiff : (segments text).map (seen tokens) = (segments text).map (answer tokens) ↔
      ∀ segment ∈ segments text, Unmistakable tokens (nameOf segment) := by
    rw [List.map_inj_left]
    exact forall₂_congr fun segment _ => seen_eq_answer_iff segment
  rw [← hiff]
  constructor
  · rintro ⟨r, hr, hvisits, -⟩
    rw [hrun] at hr
    cases hr
    exact hvisits
  · intro h
    exact ⟨_, hrun, h, hfinal⟩

theorem visits_right_iff_two_tokens :
    Returns (visits [chars "ro", chars "size"] 10 ⟨chars "ro,size=4" ++ [0], 0⟩) (fun r =>
        r.1 = (segments (chars "ro,size=4")).map (answer [chars "ro", chars "size"]) ∧ r.2.optionp = 9) ↔
      ∀ segment ∈ segments (chars "ro,size=4"), Unmistakable [chars "ro", chars "size"] (nameOf segment) :=
  visits_right_iff [chars "ro", chars "size"] [] (chars "ro,size=4") [] (by decide)

/-- The name `read` is taken for the token `readonly`. -/
theorem visits_take_abbreviation :
    ¬ ∀ (tokens : List (List UInt8)) (before text after : List UInt8), tokens.Nodup → 0 ∉ text →
      Returns (visits tokens (text.length + 1) ⟨before ++ (text ++ 0 :: after), before.length⟩) (fun r =>
        r.1 = (segments text).map (answer tokens) ∧ r.2.optionp = before.length + text.length) := by
  intro h
  have hread := h [chars "readonly"] [] (chars "read") [] (by decide) (by decide)
  revert hread
  decide

end Run
end LibXpf.Getopt
