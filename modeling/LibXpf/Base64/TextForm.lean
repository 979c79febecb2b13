import LibXpf.Base64.Codec

/-! # The base64 text form

RFC 4648 cuts the input into groups of three bytes, reads each as a number of 24
bits and writes it as four digits to the base 64. The encoder writes this text.
-/
namespace LibXpf.Base64
open Buffers

section TextForm

/-- The base64 alphabet. -/
def symbol (v : ℕ) : UInt8 :=
  if v < 26 then UInt8.ofNat (65 + v)
  else if v < 52 then UInt8.ofNat (97 + (v - 26))
  else if v < 62 then UInt8.ofNat (48 + (v - 52))
  else if v = 62 then ascii '+'
  else ascii '/'

/-- The digit with weight `64 ^ i` of a 24-bit group. -/
def digit (group i : ℕ) : UInt8 := symbol (group / 64 ^ i % 64)

/-- The encoding of RFC 4648, with padding. -/
def textForm : List UInt8 → List UInt8
  | [] => []
  | [a] =>
    let group := a.toNat * 2 ^ 16
    [digit group 3, digit group 2, ascii '=', ascii '=']
  | [a, b] =>
    let group := a.toNat * 2 ^ 16 + b.toNat * 2 ^ 8
    [digit group 3, digit group 2, digit group 1, ascii '=']
  | a :: b :: c :: rest =>
    let group := a.toNat * 2 ^ 16 + b.toNat * 2 ^ 8 + c.toNat
    [digit group 3, digit group 2, digit group 1, digit group 0] ++ textForm rest

theorem textForm_length (x : List UInt8) : (textForm x).length = 4 * ((x.length + 2) / 3) := by
  induction x using textForm.induct with
  | case1 => simp only [textForm, List.length_nil, Nat.zero_add, Nat.reduceDiv, Nat.mul_zero]
  | case2 a => simp only [textForm, List.length_cons, List.length_nil, Nat.reduceAdd, Nat.reduceDiv]
  | case3 a b => simp only [textForm, List.length_cons, List.length_nil, Nat.reduceAdd, Nat.reduceDiv]
  | case4 a b c rest ih =>
    simp only [textForm, List.length_append, List.length_cons, List.length_nil, ih]
    omega

/-- The digits of a group, read off its bytes. -/
theorem digits_group {a b c : ℕ} (ha : a < 256) (hb : b < 256) (hc : c < 256) :
    (a * 65536 + b * 256 + c) / 262144 % 64 = a / 4 ∧
      (a * 65536 + b * 256 + c) / 4096 % 64 = a % 4 * 16 + b / 16 ∧
      (a * 65536 + b * 256 + c) / 64 % 64 = b % 16 * 4 + c / 64 ∧
      (a * 65536 + b * 256 + c) / 1 % 64 = c % 64 := by
  refine ⟨?_, ?_, ?_, ?_⟩ <;> omega

theorem textForm_cons (a b c : UInt8) (rest : List UInt8) :
    textForm (a :: b :: c :: rest) =
      [symbol (a.toNat / 4), symbol (a.toNat % 4 * 16 + b.toNat / 16),
        symbol (b.toNat % 16 * 4 + c.toNat / 64), symbol (c.toNat % 64)] ++ textForm rest := by
  obtain ⟨h3, h2, h1, h0⟩ := digits_group a.toNat_lt b.toNat_lt c.toNat_lt
  simp only [textForm, digit, Nat.reducePow, h3, h2, h1, h0]

theorem textForm_pair (a b : UInt8) :
    textForm [a, b] =
      [symbol (a.toNat / 4), symbol (a.toNat % 4 * 16 + b.toNat / 16), symbol (b.toNat % 16 * 4),
        ascii '='] := by
  obtain ⟨h3, h2, h1, -⟩ := digits_group a.toNat_lt b.toNat_lt (show 0 < 256 by omega)
  simp only [Nat.add_zero, Nat.zero_div] at h3 h2 h1
  simp only [textForm, digit, Nat.reducePow, h3, h2, h1]

theorem textForm_single (a : UInt8) :
    textForm [a] = [symbol (a.toNat / 4), symbol (a.toNat % 4 * 16), ascii '=', ascii '='] := by
  obtain ⟨h3, h2, -, -⟩ := digits_group a.toNat_lt (show 0 < 256 by omega) (show 0 < 256 by omega)
  simp only [Nat.zero_mul, Nat.add_zero, Nat.zero_div] at h3 h2
  simp only [textForm, digit, Nat.reducePow, h3, h2]

end TextForm

section Encoding

/-- The bits of a byte that the encoder takes by shifts and masks. -/
theorem byte_bits (a : UInt8) :
    ((promote a >>> 2) &&& 0x3f = Int32.ofNat (a.toNat / 4) ∧ (promote a >>> 4) &&& 0x0f = Int32.ofNat (a.toNat / 16) ∧
      (promote a >>> 6) &&& 0x03 = Int32.ofNat (a.toNat / 64) ∧ promote a &&& 0x3f = Int32.ofNat (a.toNat % 64)) ∧
    toChar ((promote a &&& 0x03) <<< 4) = UInt8.ofNat (a.toNat % 4 * 16) ∧
    toChar ((promote a &&& 0x0f) <<< 2) = UInt8.ofNat (a.toNat % 16 * 4) := by
  revert a
  apply forall_byte
  decide +kernel

theorem top_bits (a : UInt8) : (promote a >>> 2) &&& 0x3f = Int32.ofNat (a.toNat / 4) := (byte_bits a).1.1

theorem high_bits (b : UInt8) : (promote b >>> 4) &&& 0x0f = Int32.ofNat (b.toNat / 16) := (byte_bits b).1.2.1

theorem end_bits (c : UInt8) : (promote c >>> 6) &&& 0x03 = Int32.ofNat (c.toNat / 64) := (byte_bits c).1.2.2.1

theorem low_bits (c : UInt8) : promote c &&& 0x3f = Int32.ofNat (c.toNat % 64) := (byte_bits c).1.2.2.2

theorem carry_two (a : UInt8) : toChar ((promote a &&& 0x03) <<< 4) = UInt8.ofNat (a.toNat % 4 * 16) := (byte_bits a).2.1

theorem carry_four (b : UInt8) : toChar ((promote b &&& 0x0f) <<< 2) = UInt8.ofNat (b.toNat % 16 * 4) := (byte_bits b).2.2

theorem six_bits {v : ℕ} (hv : v < 64) :
    chtabAt (Int32.ofNat v) = symbol v ∧ promote (UInt8.ofNat v) = Int32.ofNat v := by
  revert v
  decide +kernel

theorem chtabAt_ofNat {v : ℕ} (hv : v < 64) : chtabAt (Int32.ofNat v) = symbol v := (six_bits hv).1

theorem promote_ofNat {v : ℕ} (hv : v < 64) : promote (UInt8.ofNat v) = Int32.ofNat v := (six_bits hv).2

theorem join_four {v k : ℕ} (hv : v < 16) (hk : k < 4) :
    Int32.ofNat v ||| promote (UInt8.ofNat (k * 16)) = Int32.ofNat (k * 16 + v) := by
  have h : ∀ v < 16, ∀ k < 4,
      Int32.ofNat v ||| promote (UInt8.ofNat (k * 16)) = Int32.ofNat (k * 16 + v) := by decide +kernel
  exact h v hv k hk

theorem join_two {v k : ℕ} (hv : v < 4) (hk : k < 16) :
    Int32.ofNat v ||| promote (UInt8.ofNat (k * 4)) = Int32.ofNat (k * 4 + v) := by
  have h : ∀ v < 4, ∀ k < 16,
      Int32.ofNat v ||| promote (UInt8.ofNat (k * 4)) = Int32.ofNat (k * 4 + v) := by decide +kernel
  exact h v hv k hk

theorem encodeSwitch_zero (a temp : UInt8) :
    encodeSwitch 0 a temp = ([symbol (a.toNat / 4)], UInt8.ofNat (a.toNat % 4 * 16)) := by
  have ha := a.toNat_lt
  rw [encodeSwitch, top_bits, chtabAt_ofNat (by omega), carry_two]

theorem encodeSwitch_one (b : UInt8) {k : ℕ} (hk : k < 4) :
    encodeSwitch 1 b (UInt8.ofNat (k * 16)) =
      ([symbol (k * 16 + b.toNat / 16)], UInt8.ofNat (b.toNat % 16 * 4)) := by
  have hb := b.toNat_lt
  rw [encodeSwitch, high_bits, join_four (by omega) hk, chtabAt_ofNat (by omega), carry_four]

theorem encodeSwitch_two (c : UInt8) {k : ℕ} (hk : k < 16) :
    encodeSwitch 2 c (UInt8.ofNat (k * 4)) =
      ([symbol (k * 4 + c.toNat / 64), symbol (c.toNat % 64)], UInt8.ofNat (k * 4)) := by
  have hc := c.toNat_lt
  rw [encodeSwitch, end_bits, join_two (by omega) hk, low_bits, chtabAt_ofNat (by omega),
    chtabAt_ofNat (by omega)]
  · decide
  · decide

theorem encodePadding_zero {k : ℕ} (hk : k < 4) :
    encodePadding 0 (UInt8.ofNat (k * 16)) = [symbol (k * 16), ascii '=', ascii '='] := by
  rw [encodePadding, promote_ofNat (by omega), chtabAt_ofNat (by omega)]

theorem encodePadding_one {k : ℕ} (hk : k < 16) :
    encodePadding 1 (UInt8.ofNat (k * 4)) = [symbol (k * 4), ascii '='] := by
  rw [encodePadding, promote_ofNat (by omega), chtabAt_ofNat (by omega)]
  decide

variable {before ahead done room written : List UInt8} {ch temp : UInt8} {inputlen enclen : ℤ} {fuel : ℕ}

/-- One round of the encoder's loop. -/
theorem encodeLoop_round (hout : done.length < enclen)
    (hwritten : (encodeSwitch (before.length % 3) ch temp).1 ++
      (if before.length + 1 ≥ inputlen ∧ before.length % 3 ≠ 2 then
        encodePadding (before.length % 3) (encodeSwitch (before.length % 3) ch temp).2 else []) = written)
    (hroom : written.length ≤ room.length) :
    encodeLoop (before ++ ch :: ahead) inputlen enclen (fuel + 1) done.length before.length temp
        (done ++ room) =
      encodeLoop ((before ++ [ch]) ++ ahead) inputlen enclen fuel (done ++ written).length
        (before ++ [ch]).length (encodeSwitch (before.length % 3) ch temp).2
        ((done ++ written) ++ room.drop written.length) := by
  have happend : before ++ ch :: ahead = (before ++ [ch]) ++ ahead := by
    rw [List.append_assoc, List.singleton_append]
  rw [encodeLoop, if_pos hout, read_here rfl]
  simp only [ok_bind, hwritten]
  rw [writeAll_here rfl hroom]
  simp only [ok_bind]
  rw [happend, List.length_append, List.length_append, List.length_singleton]

theorem encodeLoop_done {input output : List UInt8} {outidx inidx : ℕ} (h : ¬ (outidx : ℤ) < enclen) :
    encodeLoop input inputlen enclen (fuel + 1) outidx inidx temp output = .ok output := by
  rw [encodeLoop, if_neg h]

/-- The first byte of a group that has a second one. -/
theorem encodeLoop_first (hgroup : before.length % 3 = 0) (hmore : before.length + 1 < inputlen)
    (hout : done.length < enclen) (hroom : 1 ≤ room.length) :
    encodeLoop (before ++ ch :: ahead) inputlen enclen (fuel + 1) done.length before.length temp
        (done ++ room) =
      encodeLoop ((before ++ [ch]) ++ ahead) inputlen enclen fuel (done ++ [symbol (ch.toNat / 4)]).length
        (before ++ [ch]).length (UInt8.ofNat (ch.toNat % 4 * 16))
        ((done ++ [symbol (ch.toNat / 4)]) ++ room.drop 1) := by
  have hwritten : (encodeSwitch (before.length % 3) ch temp).1 ++
      (if before.length + 1 ≥ inputlen ∧ before.length % 3 ≠ 2 then
        encodePadding (before.length % 3) (encodeSwitch (before.length % 3) ch temp).2 else []) =
        [symbol (ch.toNat / 4)] := by
    rw [hgroup, encodeSwitch_zero, if_neg (by omega), List.append_nil]
  rw [encodeLoop_round hout hwritten hroom, hgroup, encodeSwitch_zero, List.length_singleton]

/-- The second byte of a group that has a third one. -/
theorem encodeLoop_second {k : ℕ} (hk : k < 4) (hgroup : before.length % 3 = 1)
    (hmore : before.length + 1 < inputlen) (hout : done.length < enclen) (hroom : 1 ≤ room.length) :
    encodeLoop (before ++ ch :: ahead) inputlen enclen (fuel + 1) done.length before.length
        (UInt8.ofNat (k * 16)) (done ++ room) =
      encodeLoop ((before ++ [ch]) ++ ahead) inputlen enclen fuel
        (done ++ [symbol (k * 16 + ch.toNat / 16)]).length (before ++ [ch]).length
        (UInt8.ofNat (ch.toNat % 16 * 4)) ((done ++ [symbol (k * 16 + ch.toNat / 16)]) ++ room.drop 1) := by
  have hwritten : (encodeSwitch (before.length % 3) ch (UInt8.ofNat (k * 16))).1 ++
      (if before.length + 1 ≥ inputlen ∧ before.length % 3 ≠ 2 then
        encodePadding (before.length % 3) (encodeSwitch (before.length % 3) ch (UInt8.ofNat (k * 16))).2
        else []) = [symbol (k * 16 + ch.toNat / 16)] := by
    rw [hgroup, encodeSwitch_one ch hk, if_neg (by omega), List.append_nil]
  rw [encodeLoop_round hout hwritten hroom, hgroup, encodeSwitch_one ch hk, List.length_singleton]

/-- The third byte of a group. -/
theorem encodeLoop_third {k : ℕ} (hk : k < 16) (hgroup : before.length % 3 = 2)
    (hout : done.length < enclen) (hroom : 2 ≤ room.length) :
    encodeLoop (before ++ ch :: ahead) inputlen enclen (fuel + 1) done.length before.length
        (UInt8.ofNat (k * 4)) (done ++ room) =
      encodeLoop ((before ++ [ch]) ++ ahead) inputlen enclen fuel
        (done ++ [symbol (k * 4 + ch.toNat / 64), symbol (ch.toNat % 64)]).length (before ++ [ch]).length
        (UInt8.ofNat (k * 4))
        ((done ++ [symbol (k * 4 + ch.toNat / 64), symbol (ch.toNat % 64)]) ++ room.drop 2) := by
  have hwritten : (encodeSwitch (before.length % 3) ch (UInt8.ofNat (k * 4))).1 ++
      (if before.length + 1 ≥ inputlen ∧ before.length % 3 ≠ 2 then
        encodePadding (before.length % 3) (encodeSwitch (before.length % 3) ch (UInt8.ofNat (k * 4))).2
        else []) = [symbol (k * 4 + ch.toNat / 64), symbol (ch.toNat % 64)] := by
    rw [hgroup, encodeSwitch_two ch hk, if_neg (fun h => h.2 rfl), List.append_nil]
  rw [encodeLoop_round hout hwritten hroom, hgroup, encodeSwitch_two ch hk]
  rfl

/-- A whole group takes three rounds. -/
theorem encodeLoop_group (a b c : UInt8) (hgroup : before.length % 3 = 0) (hmore : before.length + 3 ≤ inputlen)
    (hout : done.length + 2 < enclen) (hroom : 4 ≤ room.length) :
    encodeLoop (before ++ a :: b :: c :: ahead) inputlen enclen (fuel + 3) done.length before.length temp
        (done ++ room) =
      encodeLoop ((before ++ [a, b, c]) ++ ahead) inputlen enclen fuel
        (done ++ [symbol (a.toNat / 4), symbol (a.toNat % 4 * 16 + b.toNat / 16),
          symbol (b.toNat % 16 * 4 + c.toNat / 64), symbol (c.toNat % 64)]).length
        (before ++ [a, b, c]).length (UInt8.ofNat (b.toNat % 16 * 4))
        ((done ++ [symbol (a.toNat / 4), symbol (a.toNat % 4 * 16 + b.toNat / 16),
          symbol (b.toNat % 16 * 4 + c.toNat / 64), symbol (c.toNat % 64)]) ++ room.drop 4) := by
  have ha := a.toNat_lt
  have hb := b.toNat_lt
  rw [encodeLoop_first hgroup (by omega) (by omega) (by omega), encodeLoop_second (by omega) ?_ ?_ ?_ ?_,
    encodeLoop_third (by omega) ?_ ?_ ?_]
  · simp only [List.append_assoc, List.cons_append, List.nil_append, List.drop_drop]
  all_goals
    simp only [List.length_append, List.length_cons, List.length_nil, List.length_drop]
    omega

/-- From the start of a group on the loop writes the text form of what is ahead. -/
theorem encodeLoop_textForm (x : List UInt8) (hgroup : before.length % 3 = 0)
    (hin : inputlen = before.length + x.length) (hout : enclen = done.length + (textForm x).length)
    (hroom : (textForm x).length ≤ room.length) (hfuel : x.length < fuel) :
    encodeLoop (before ++ x) inputlen enclen fuel done.length before.length temp (done ++ room) =
      .ok (done ++ textForm x ++ room.drop (textForm x).length) := by
  induction x using textForm.induct generalizing before done room fuel temp with
  | case1 =>
    obtain ⟨fuel, rfl⟩ : ∃ k, fuel = k + 1 := ⟨fuel - 1, by omega⟩
    simp only [textForm, List.length_nil, Nat.cast_zero, add_zero] at hout
    rw [encodeLoop_done (by omega), textForm, List.append_nil, List.length_nil, List.drop_zero]
  | case2 a =>
    obtain ⟨fuel, rfl⟩ : ∃ k, fuel = k + 2 := ⟨fuel - 2, by simp only [List.length_singleton] at hfuel; omega⟩
    rw [textForm_single] at hout hroom ⊢
    simp only [List.length_cons, List.length_nil] at hin hout
    rw [encodeLoop_round (by omega) ?_ hroom, encodeLoop_done]
    · rw [List.length_append]
      simp only [List.length_cons, List.length_nil]
      omega
    · rw [hgroup, encodeSwitch_zero, if_pos ⟨by omega, by decide⟩, encodePadding_zero (by omega)]
      rfl
  | case3 a b =>
    obtain ⟨fuel, rfl⟩ : ∃ k, fuel = k + 3 :=
      ⟨fuel - 3, by simp only [List.length_cons, List.length_nil] at hfuel; omega⟩
    have ha := a.toNat_lt
    have hb := b.toNat_lt
    rw [textForm_pair] at hout hroom ⊢
    simp only [List.length_cons, List.length_nil] at hin hout hroom
    have hlast : (encodeSwitch ((before ++ [a]).length % 3) b (UInt8.ofNat (a.toNat % 4 * 16))).1 ++
        (if ((before ++ [a]).length : ℤ) + 1 ≥ inputlen ∧ (before ++ [a]).length % 3 ≠ 2 then
          encodePadding ((before ++ [a]).length % 3)
            (encodeSwitch ((before ++ [a]).length % 3) b (UInt8.ofNat (a.toNat % 4 * 16))).2 else []) =
        [symbol (a.toNat % 4 * 16 + b.toNat / 16), symbol (b.toNat % 16 * 4), ascii '='] := by
      have hsecond : (before ++ [a]).length % 3 = 1 := by
        rw [List.length_append, List.length_singleton]
        omega
      rw [hsecond, encodeSwitch_one b (by omega), if_pos ⟨by simp only [List.length_append, List.length_singleton]; omega, by decide⟩,
        encodePadding_one (by omega)]
      rfl
    rw [encodeLoop_first hgroup (by omega) (by omega) (by omega), encodeLoop_round ?_ hlast ?_, encodeLoop_done ?_]
    · simp only [List.append_assoc, List.cons_append, List.nil_append, List.drop_drop, List.length_cons,
        List.length_nil]
    all_goals
      simp only [List.length_append, List.length_cons, List.length_nil, List.length_drop]
      omega
  | case4 a b c rest ih =>
    obtain ⟨fuel, rfl⟩ : ∃ k, fuel = k + 3 :=
      ⟨fuel - 3, by simp only [List.length_cons] at hfuel; omega⟩
    rw [textForm_cons] at hout hroom ⊢
    simp only [List.length_append, List.length_cons, List.length_nil] at hin hout hroom hfuel
    rw [encodeLoop_group a b c hgroup (by omega) (by omega) (by omega), ih]
    · simp only [List.append_assoc, List.cons_append, List.nil_append, List.drop_drop, List.length_cons,
        Nat.add_comm 4]
    case hfuel => omega
    all_goals
      simp only [List.length_append, List.length_cons, List.length_nil, List.length_drop]
      omega

theorem encodeLoop_start (x buf : List UInt8) (hbuf : (textForm x).length ≤ buf.length) :
    encodeLoop x x.length (textForm x).length ((textForm x).length + 1) 0 0 0 buf =
      .ok (textForm x ++ buf.drop (textForm x).length) := by
  have hlength := textForm_length x
  have hfrom : encodeLoop ([] ++ x) x.length (textForm x).length ((textForm x).length + 1)
      ([] : List UInt8).length ([] : List UInt8).length 0 ([] ++ buf) =
      .ok ([] ++ textForm x ++ buf.drop (textForm x).length) := by
    apply encodeLoop_textForm x rfl
    · simp only [List.length_nil, Nat.cast_zero, zero_add]
    · simp only [List.length_nil, Nat.cast_zero, zero_add]
    · exact hbuf
    · omega
  exact hfrom

/-- The encoder writes the text form, for every input whose text form has a length of type `int`. -/
theorem encode_eq (x : List UInt8) (hx : x.length ≤ 1610612733) (buf : List UInt8) (outlen : ℤ)
    (hbuf : (textForm x).length ≤ buf.length) (houtlen : (textForm x).length ≤ outlen) :
    encode x x.length (some buf) (some outlen) =
      .ok ⟨(textForm x).length, some (textForm x ++ buf.drop (textForm x).length), some outlen⟩ := by
  have hlen := textForm_length x
  have hsum : s32 (x.length + 2) = x.length + 2 := s32_of_mem (by omega) (by omega)
  have henclen : s32 ((s32 (x.length + 2)).tdiv 3 * 4) = (textForm x).length := by
    rw [hsum, Int.tdiv_eq_ediv_of_nonneg (by omega), s32_of_mem (by omega) (by omega), hlen]
    omega
  have hloop := encodeLoop_start x buf hbuf
  simp only [encode, henclen, if_neg (show ¬ (x.length : ℤ) < 0 by omega),
    if_neg (show ¬ outlen < (textForm x).length by omega), Int.toNat_natCast, hloop]

end Encoding

end LibXpf.Base64
