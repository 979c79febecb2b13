import LibXpf.Base64.Grammar

/-! # A query for the length and the call after it

A call without an output buffer returns the length that the output will have. The
encoder keeps to it for every length of type `int`, also where the length itself is
computed wrong. The decoder predicts by the last two characters and reads from the
front, so it keeps to it where the padding ends the text.
-/
namespace LibXpf.Base64
open Buffers GuardedRuns

/-- What a call owes to a caller that has asked for the length before. -/
def FollowsQuery (call : Option (List UInt8) → Option ℤ → Except Fault Reply) (mayFail : Prop) : Prop :=
  ∀ (query : Option ℤ) (len : ℤ), Returns (call none query) (fun r => r.ret = len) → 0 ≤ len →
    (∀ (buf : List UInt8) (outlen : ℤ), len ≤ buf.length → len ≤ outlen →
      ∃ ret written, call (some buf) (some outlen) =
          .ok ⟨ret, some (written ++ buf.drop written.length), some outlen⟩ ∧
        written.length ≤ len ∧ (ret = -1 ∧ mayFail ∨ ret = len ∧ written.length = len)) ∧
    ∀ (buf : List UInt8) (outlen : ℤ), outlen < len → call (some buf) (some outlen) = .ok ⟨-1, some buf, some len⟩

section Encoder
variable {before done room : List UInt8} {temp : UInt8} {inputlen enclen : ℤ} {fuel : ℕ}

/-- From the start of a group on the loop writes the text form of whole groups, whatever comes behind. -/
theorem encodeLoop_groups (x after : List UInt8) (hwhole : 3 ∣ x.length) (hgroup : before.length % 3 = 0)
    (hin : before.length + x.length ≤ inputlen) (hout : enclen = done.length + (textForm x).length)
    (hroom : (textForm x).length ≤ room.length) (hfuel : x.length < fuel) :
    encodeLoop (before ++ (x ++ after)) inputlen enclen fuel done.length before.length temp (done ++ room) =
      .ok (done ++ textForm x ++ room.drop (textForm x).length) := by
  induction x using textForm.induct generalizing before done room fuel temp with
  | case1 =>
    obtain ⟨fuel, rfl⟩ : ∃ k, fuel = k + 1 := ⟨fuel - 1, by omega⟩
    simp only [textForm, List.length_nil, Nat.cast_zero, add_zero] at hout
    rw [encodeLoop_done (by omega), textForm, List.append_nil, List.length_nil, List.drop_zero]
  | case2 a => simp at hwhole
  | case3 a b => simp at hwhole
  | case4 a b c rest ih =>
    obtain ⟨fuel, rfl⟩ : ∃ k, fuel = k + 3 :=
      ⟨fuel - 3, by simp only [List.length_cons] at hfuel; omega⟩
    rw [textForm_cons] at hout hroom ⊢
    simp only [List.length_append, List.length_cons, List.length_nil] at hin hout hroom hfuel hwhole
    rw [List.cons_append, List.cons_append, List.cons_append,
      encodeLoop_group a b c hgroup (by omega) (by omega) (by omega), ih (by omega)]
    · simp only [List.append_assoc, List.cons_append, List.nil_append, List.drop_drop, List.length_cons,
        Nat.add_comm 4]
    case hfuel => omega
    all_goals
      simp only [List.length_append, List.length_cons, List.length_nil, List.length_drop]
      omega

/-- The length that the encoder computes for an input, with the arithmetic of `int`. -/
def enclenOf (inputlen : ℤ) : ℤ := s32 ((s32 (inputlen + 2)).tdiv 3 * 4)

/-- It is right, or negative, or that of a shorter input for the two longest ones. -/
theorem enclenOf_cases (n : ℕ) (hn : n < 2 ^ 31) :
    n ≤ 1610612733 ∧ enclenOf n = (4 * ((n + 2) / 3) : ℕ) ∨ enclenOf n < 0 ∨
      1073741826 ≤ n ∧ enclenOf n = (4 * ((1073741826 + 2) / 3) : ℕ) := by
  rcases Nat.lt_or_ge 1610612733 n with hlong | hshort
  · right
    rcases Nat.lt_or_ge n (2 ^ 31 - 2) with hlt | hge
    · left
      have hsum : s32 (n + 2) = n + 2 := s32_of_mem (by omega) (by omega)
      rw [enclenOf, hsum, Int.tdiv_eq_ediv_of_nonneg (by omega), s32, Int.bmod_def]
      split <;> omega
    · right
      refine ⟨by omega, ?_⟩
      have htop : n = 2 ^ 31 - 2 ∨ n = 2 ^ 31 - 1 := by omega
      rcases htop with rfl | rfl <;> decide
  · left
    refine ⟨hshort, ?_⟩
    have hsum : s32 (n + 2) = n + 2 := s32_of_mem (by omega) (by omega)
    rw [enclenOf, hsum, Int.tdiv_eq_ediv_of_nonneg (by omega), s32_of_mem (by omega) (by omega)]
    omega

theorem encode_query (x : List UInt8) (query : Option ℤ) :
    encode x x.length none query = .ok ⟨enclenOf x.length, none, query.map (fun _ => enclenOf x.length)⟩ := by
  rw [encode, if_neg (show ¬ (x.length : ℤ) < 0 by omega)]
  cases query with
  | none => rfl
  | some outlen => rfl

theorem encode_short (x buf : List UInt8) (outlen : ℤ) (h : outlen < enclenOf x.length) :
    encode x x.length (some buf) (some outlen) = .ok ⟨-1, some buf, some (enclenOf x.length)⟩ := by
  rw [encode, if_neg (show ¬ (x.length : ℤ) < 0 by omega)]
  exact if_pos h

theorem encode_call {x buf buf' : List UInt8} {outlen : ℤ} (h : ¬ outlen < enclenOf x.length)
    (hloop : encodeLoop x x.length (enclenOf x.length) ((enclenOf x.length).toNat + 1) 0 0 0 buf = .ok buf') :
    encode x x.length (some buf) (some outlen) = .ok ⟨enclenOf x.length, some buf', some outlen⟩ := by
  rw [encode, if_neg (show ¬ (x.length : ℤ) < 0 by omega)]
  refine (if_neg h).trans ?_
  rw [← enclenOf, hloop]

/-- With a length that is too small the loop stops after some groups of the input. -/
theorem encodeLoop_take (x buf : List UInt8) (k : ℕ) (hwhole : 3 ∣ k) (hk : k ≤ x.length)
    (hroom : 4 * ((k + 2) / 3) ≤ buf.length) :
    encodeLoop x x.length (4 * ((k + 2) / 3) : ℕ) (4 * ((k + 2) / 3) + 1) 0 0 0 buf =
      .ok (textForm (x.take k) ++ buf.drop (textForm (x.take k)).length) := by
  have htake : (x.take k).length = k := List.length_take_of_le hk
  have hlength := textForm_length (x.take k)
  rw [htake] at hlength
  have hfrom : encodeLoop ([] ++ (x.take k ++ x.drop k)) x.length (4 * ((k + 2) / 3) : ℕ) (4 * ((k + 2) / 3) + 1)
      ([] : List UInt8).length ([] : List UInt8).length 0 ([] ++ buf) =
      .ok ([] ++ textForm (x.take k) ++ buf.drop (textForm (x.take k)).length) := by
    apply encodeLoop_groups (x.take k) (x.drop k) (by rw [htake]; exact hwhole) rfl
    · rw [htake, List.length_nil]
      omega
    · simp only [List.length_nil, Nat.cast_zero, zero_add, hlength]
    · omega
    · omega
  rw [List.take_append_drop] at hfrom
  exact hfrom

/-- The encoder keeps to the length that it has computed. -/
theorem encode_followsQuery (x : List UInt8) (hx : x.length < 2 ^ 31) : FollowsQuery (encode x x.length) False := by
  intro query len hquery hlen
  obtain ⟨r, hr, hret⟩ := hquery
  have hreply := Except.ok.inj ((encode_query x query).symm.trans hr)
  obtain rfl : enclenOf x.length = len := by rw [← hret, ← hreply]
  refine ⟨fun buf outlen hbuf houtlen => ?_, fun buf outlen hshort => encode_short x buf outlen hshort⟩
  have hwritten : ∃ written, (written.length : ℤ) = enclenOf x.length ∧
      encodeLoop x x.length (enclenOf x.length) ((enclenOf x.length).toNat + 1) 0 0 0 buf =
        .ok (written ++ buf.drop written.length) := by
    rcases enclenOf_cases x.length hx with ⟨-, hright⟩ | hneg | ⟨hlong, hright⟩
    · rw [hright] at hbuf ⊢
      have hlength := textForm_length x
      rw [← hlength] at hbuf ⊢
      exact ⟨textForm x, rfl, encodeLoop_start x buf (by omega)⟩
    · omega
    · rw [hright] at hbuf ⊢
      have htake : (x.take 1073741826).length = 1073741826 := List.length_take_of_le hlong
      exact ⟨textForm (x.take 1073741826), by rw [textForm_length, htake],
        encodeLoop_take x buf 1073741826 (by norm_num) hlong (by omega)⟩
  obtain ⟨written, hlength, hloop⟩ := hwritten
  exact ⟨_, written, encode_call (by omega) hloop, hlength.le, .inr ⟨rfl, hlength⟩⟩

end Encoder

section Decoder
variable {c1 c2 c3 c4 : UInt8} {rest t : List UInt8}

/-- Some group of the text fails the test for corrupted data. -/
def HasCorruptedGroup (t : List UInt8) : Prop :=
  ∃ before c1 c2 c3 c4 rest, t = before ++ c1 :: c2 :: c3 :: c4 :: rest ∧ 4 ∣ before.length ∧
    corrupted c1 c2 c3 c4 = true

/-- A text of whole groups is turned down for one of them. -/
theorem hasCorruptedGroup_of_none (t : List UInt8) (hfour : 4 ∣ t.length) (h : decodeText t = none) :
    HasCorruptedGroup t := by
  induction t, hfour using groups_induction with
  | nil => cases h
  | group c1 c2 c3 c4 rest hfour ih =>
    by_cases hbad : corrupted c1 c2 c3 c4 = true
    · exact ⟨[], c1, c2, c3, c4, rest, rfl, ⟨0, rfl⟩, hbad⟩
    rw [decodeText, if_neg hbad] at h
    by_cases hpadded : c3 = ascii '=' ∨ c4 = ascii '='
    · rw [if_pos hpadded] at h
      cases h
    · rw [if_neg hpadded, Option.map_eq_none_iff] at h
      obtain ⟨before, d1, d2, d3, d4, tail, rfl, hbefore, hd⟩ := ih h
      refine ⟨c1 :: c2 :: c3 :: c4 :: before, d1, d2, d3, d4, tail, rfl, ?_, hd⟩
      simp only [List.length_cons]
      omega

theorem decodeGroup_length (c1 c2 c3 c4 : UInt8) :
    (decodeGroup c1 c2 c3 c4).length = if c3 = ascii '=' then 1 else if c4 = ascii '=' then 2 else 3 := by
  simp only [decodeGroup]
  split
  · rfl
  · split <;> rfl

/-- The data of a padded group has the predicted length only at the end of the text, and with
nothing behind its padding. -/
theorem padded_length_iff (hfour : 4 ∣ rest.length) (hpadded : c3 = ascii '=' ∨ c4 = ascii '=') :
    (decodeGroup c1 c2 c3 c4).length = predicted (c1 :: c2 :: c3 :: c4 :: rest) ↔
      rest = [] ∧ (c3 = ascii '=' → c4 = ascii '=') := by
  rw [decodeGroup_length]
  cases rest with
  | nil =>
    rw [predicted_last]
    by_cases h3 : c3 = ascii '='
    · by_cases h4 : c4 = ascii '='
      · simp [h3, h4]
      · simp [h3, h4]
    · have h4 := hpadded.resolve_left h3
      simp [h3, h4]
  | cons c rest =>
    rw [predicted_group hfour (List.cons_ne_nil c rest)]
    refine iff_of_false ?_ (fun h => List.cons_ne_nil c rest h.1)
    split
    · omega
    · rw [if_pos (hpadded.resolve_left ‹_›)]
      omega

theorem WellFormed.accepted (h : WellFormed t) : (decodeText t).isSome = true := by
  induction t, h.whole_groups using groups_induction with
  | nil => rfl
  | group c1 c2 c3 c4 rest hall ih =>
    rw [decodeText, h.uncorrupted, if_neg Bool.false_ne_true]
    rcases padded_or_data h.uncorrupted with hpadded | ⟨h1, h2, h3, h4⟩
    · rw [if_pos hpadded.padded, Option.isSome_some]
    · rw [if_neg (not_or.mpr ⟨h3.ne_pad, h4.ne_pad⟩), Option.isSome_map]
      exact ih ((wellFormed_data h1 h2 h3 h4).mp h)

/-- The prediction is right for the well-formed texts among those that the decoder takes. -/
theorem decodeText_length_iff (t d : List UInt8) (hfour : 4 ∣ t.length) (h : decodeText t = some d) :
    d.length = predicted t ↔ WellFormed t := by
  induction t, hfour using groups_induction generalizing d with
  | nil =>
    obtain rfl : [] = d := Option.some.inj h
    exact iff_of_true rfl trivial
  | group c1 c2 c3 c4 rest hall ih =>
    have hrest := four_dvd_rest hall
    have hgood : ¬ corrupted c1 c2 c3 c4 = true := by
      intro hbad
      rw [decodeText, if_pos hbad] at h
      cases h
    rw [decodeText, if_neg hgood] at h
    rcases padded_or_data (Bool.eq_false_iff.mpr hgood) with hpadded | ⟨h1, h2, h3, h4⟩
    · rw [if_pos hpadded.padded] at h
      obtain rfl := Option.some.inj h
      rw [padded_length_iff hrest hpadded.padded, wellFormed_padded hpadded]
    · have hplain : ¬ (c3 = ascii '=' ∨ c4 = ascii '=') := not_or.mpr ⟨h3.ne_pad, h4.ne_pad⟩
      rw [if_neg hplain, Option.map_eq_some_iff] at h
      obtain ⟨d, hd, rfl⟩ := h
      rw [predicted_split c1 c2 hrest hplain, wellFormed_data h1 h2 h3 h4, ← ih d hd, List.length_append,
        decodeGroup_length, if_neg h3.ne_pad, if_neg h4.ne_pad]
      omega

theorem decode_query (hfour : 4 ∣ t.length) (query : Option ℤ) :
    decode t t.length none query = .ok ⟨predicted t, none, query.map (fun _ => (predicted t : ℤ))⟩ := by
  rw [decode, if_neg (fun h => (legal_iff t).mp h hfour), decodedLength_eq t hfour]
  cases query with
  | none => rfl
  | some outlen => rfl

theorem decode_short (hfour : 4 ∣ t.length) (buf : List UInt8) (outlen : ℤ) (h : outlen < predicted t) :
    decode t t.length (some buf) (some outlen) = .ok ⟨-1, some buf, some (predicted t : ℤ)⟩ := by
  rw [decode, if_neg (fun h => (legal_iff t).mp h hfour), decodedLength_eq t hfour]
  exact if_pos h

theorem decode_illegal (hfour : ¬ 4 ∣ t.length) (output : Option (List UInt8)) (outputlen : Option ℤ) :
    decode t t.length output outputlen = .ok ⟨-1, output, outputlen⟩ := by
  rw [decode, if_pos ((legal_iff t).mpr hfour)]

/-- The decoder keeps to the length that it has predicted, unless it takes padding inside the text. -/
theorem decode_followsQuery_iff (t : List UInt8) :
    FollowsQuery (decode t t.length) (HasCorruptedGroup t) ↔ PaddingEnds t := by
  by_cases hfour : 4 ∣ t.length
  · rw [← decodeText_isSome_iff t hfour]
    constructor
    · intro h
      obtain ⟨hcall, -⟩ := h none (predicted t) ⟨_, decode_query hfour none, rfl⟩ (by omega)
      have hroom : (List.replicate (predicted t) (0 : UInt8)).length = predicted t := List.length_replicate
      obtain ⟨ret, written, hreply, -, hret⟩ := hcall (List.replicate (predicted t) 0) (predicted t) (by omega) le_rfl
      obtain ⟨_, hdecode, -⟩ := decode_eq t (List.replicate (predicted t) 0) (predicted t) hfour hroom.ge le_rfl
      have hverdict : (decodeText t).elim (-1) (fun d => (d.length : ℤ)) = ret :=
        congrArg Reply.ret (Except.ok.inj (hdecode.symm.trans hreply))
      constructor
      · intro hsome
        obtain ⟨d, hd⟩ := Option.isSome_iff_exists.mp hsome
        rw [hd, Option.elim_some] at hverdict
        refine (decodeText_length_iff t d hfour hd).mp ?_
        omega
      · exact WellFormed.accepted
    · intro h query len hquery hlen
      obtain ⟨r, hr, hret⟩ := hquery
      have hreply := Except.ok.inj ((decode_query hfour query).symm.trans hr)
      obtain rfl : (predicted t : ℤ) = len := by rw [← hret, ← hreply]
      refine ⟨fun buf outlen hbuf houtlen => ?_, fun buf outlen hshort => decode_short hfour buf outlen hshort⟩
      obtain ⟨written, hdecode, hdecoded⟩ := decode_eq t buf outlen hfour (by omega) houtlen
      refine ⟨_, written, hdecode, by exact_mod_cast hdecoded.within, ?_⟩
      cases hd : decodeText t with
      | none => exact .inl ⟨rfl, hasCorruptedGroup_of_none t hfour hd⟩
      | some d =>
        have hlength : d.length = predicted t :=
          (decodeText_length_iff t d hfour hd).mpr (h.mp (by rw [hd, Option.isSome_some]))
        refine .inr ⟨?_, ?_⟩
        · rw [Option.elim_some, hlength]
        · rw [hdecoded.whole d hd, hlength]
  · refine iff_of_true ?_ (fun h => absurd h hfour)
    intro query len hquery hlen
    obtain ⟨r, hr, hret⟩ := hquery
    have hreply := Except.ok.inj ((decode_illegal hfour none query).symm.trans hr)
    have hneg : -1 = len := by rw [← hret, ← hreply]
    omega

end Decoder

/-- The encoder always keeps to the length that a query returns, the decoder exactly on the
texts whose padding ends the text. -/
theorem twoCalls_iff (x t : List UInt8) (hx : x.length < 2 ^ 31) :
    FollowsQuery (encode x x.length) False ∧ FollowsQuery (decode t t.length) (HasCorruptedGroup t) ↔ PaddingEnds t := by
  rw [decode_followsQuery_iff]
  exact and_iff_right (encode_followsQuery x hx)

theorem twoCalls_iff_quad :
    FollowsQuery (encode [1, 2] 2) False ∧
        FollowsQuery (decode (textForm [1, 2, 3]) 4) (HasCorruptedGroup (textForm [1, 2, 3])) ↔
      PaddingEnds (textForm [1, 2, 3]) :=
  twoCalls_iff [1, 2] (textForm [1, 2, 3]) (by decide)

/-- `AA=A` has a padded character before its last one. The query predicts two bytes, and the
call writes one. -/
theorem decode_predicts_more :
    ¬ ∀ x t : List UInt8, x.length < 2 ^ 31 → t.length < 2 ^ 31 →
      FollowsQuery (encode x x.length) False ∧ FollowsQuery (decode t t.length) (HasCorruptedGroup t) := by
  intro h
  obtain ⟨-, hdecode⟩ := h [] ("AA=A".toList.map ascii) (by decide) (by decide)
  obtain ⟨hcall, -⟩ := hdecode none 2 ⟨⟨2, none, none⟩, by decide +kernel, rfl⟩ (by decide)
  obtain ⟨ret, written, hreply, -, hret⟩ := hcall [0, 0] 2 (by decide) (by decide)
  have hone : decode ("AA=A".toList.map ascii) ("AA=A".toList.map ascii).length (some [0, 0]) (some 2) =
      .ok ⟨1, some [0, 0], some 2⟩ := by decide +kernel
  obtain rfl : 1 = ret := congrArg Reply.ret (Except.ok.inj (hone.symm.trans hreply))
  rcases hret with ⟨hret, -⟩ | ⟨hret, -⟩
  · exact absurd hret (by decide)
  · exact absurd hret (by decide)

end LibXpf.Base64
