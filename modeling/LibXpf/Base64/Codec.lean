import LibXpf.Foundation.Buffers
import LibXpf.Platform

/-! # The base64 encoder and decoder

Both walk over their input with an index and write their output at another one.
Characters are signed, and all the arithmetic on them is that of `int`.
-/
namespace LibXpf.Base64
open Buffers

def chtab : List UInt8 :=
  "ABCDEFGHIJKLMNOPQRSTUVWXYZabcdefghijklmnopqrstuvwxyz0123456789+/".toList.map ascii

/-- An element of `chtab`; the array ends with a null character. -/
def chtabAt (i : Int32) : UInt8 := chtab.getD i.toNatClampNeg 0

def idxofch (c : UInt8) : Int32 :=
  let ch := promote c
  if ch ≥ promote (ascii 'A') ∧ ch ≤ promote (ascii 'Z') then ch - promote (ascii 'A')
  else if ch ≥ promote (ascii 'a') ∧ ch ≤ promote (ascii 'z') then ch - promote (ascii 'a') + 26
  else if ch ≥ promote (ascii '0') ∧ ch ≤ promote (ascii '9') then ch - promote (ascii '0') + 52
  else if ch = promote (ascii '+') then 62
  else if ch = promote (ascii '/') then 63
  else if ch = promote (ascii '=') then 0
  else -1

/-- What a call returns and leaves in its two output arguments. -/
structure Reply where
  ret : ℤ
  output : Option (List UInt8)
  outputlen : Option ℤ
  deriving DecidableEq, Repr

section Encoder

/-- The switch of the loop: the characters it writes and the new `temp`. -/
def encodeSwitch (mod : ℕ) (ch temp : UInt8) : List UInt8 × UInt8 :=
  match mod with
  | 0 => ([chtabAt ((promote ch >>> 2) &&& 0x3f)], toChar ((promote ch &&& 0x03) <<< 4))
  | 1 => ([chtabAt (((promote ch >>> 4) &&& 0x0f) ||| promote temp)], toChar ((promote ch &&& 0x0f) <<< 2))
  | _ => ([chtabAt (((promote ch >>> 6) &&& 0x03) ||| promote temp), chtabAt (promote ch &&& 0x3f)], temp)

/-- The padding after the last character of the input. -/
def encodePadding (mod : ℕ) (temp : UInt8) : List UInt8 :=
  match mod with
  | 0 => [chtabAt (promote temp), ascii '=', ascii '=']
  | _ => [chtabAt (promote temp), ascii '=']

def encodeLoop (input : List UInt8) (inputlen enclen : ℤ) :
    ℕ → (outidx inidx : ℕ) → (temp : UInt8) → (output : List UInt8) → Except Fault (List UInt8)
  | 0, _, _, _, _ => .error .diverges
  | fuel + 1, outidx, inidx, temp, output =>
    if outidx < enclen then do
      let ch ← read .outOfBounds input inidx
      let mod := inidx % 3
      let switched := encodeSwitch mod ch temp
      let padding :=
        if inidx + 1 ≥ inputlen ∧ mod ≠ 2 then encodePadding mod switched.2 else []
      let written := switched.1 ++ padding
      let output' ← writeAll .outOfBounds output outidx written
      encodeLoop input inputlen enclen fuel (outidx + written.length) (inidx + 1) switched.2 output'
    else .ok output

/-- Every round writes, so there are at most `enclen` of them. -/
def encode (input : List UInt8) (inputlen : ℤ) (output : Option (List UInt8)) (outputlen : Option ℤ) :
    Except Fault Reply :=
  if inputlen < 0 then .ok ⟨-1, output, outputlen⟩
  else
    let enclen := s32 ((s32 (inputlen + 2)).tdiv 3 * 4)
    match outputlen, output with
    | some outlen, some buf =>
      if outlen < enclen then .ok ⟨-1, some buf, some enclen⟩
      else
        match encodeLoop input inputlen enclen (enclen.toNat + 1) 0 0 0 buf with
        | .ok buf' => .ok ⟨enclen, some buf', some outlen⟩
        | .error e => .error e
    | some _, none => .ok ⟨enclen, none, some enclen⟩
    | none, output => .ok ⟨enclen, output, none⟩

end Encoder

section Decoder

/-- The three characters that a group of four gives, cut off by the padding. -/
def decodeGroup (c1 c2 c3 c4 : UInt8) : List UInt8 :=
  let ch1 := idxofch c1
  let ch2 := idxofch c2
  let ch3 := idxofch c3
  let ch4 := idxofch c4
  let first := toChar ((ch1 <<< 2) ||| ((ch2 >>> 4) &&& 0x03))
  if c3 = ascii '=' then [first]
  else
    let second := toChar (((ch2 &&& 0x0f) <<< 4) ||| ((ch3 >>> 2) &&& 0x0f))
    if c4 = ascii '=' then [first, second]
    else [first, second, toChar (((ch3 &&& 0x03) <<< 6) ||| ch4)]

/-- The test for corrupted data. -/
def corrupted (c1 c2 c3 c4 : UInt8) : Bool :=
  idxofch c1 = -1 || idxofch c2 = -1 || idxofch c3 = -1 || idxofch c4 = -1 || c1 = ascii '=' ||
    c2 = ascii '='

/-- The loop over the groups. It returns what `decode` returns, and the output. -/
def decodeLoop (input : List UInt8) (inputlen : ℤ) :
    ℕ → (inidx outidx : ℕ) → (output : List UInt8) → Except Fault (ℤ × List UInt8)
  | 0, _, _, _ => .error .diverges
  | fuel + 1, inidx, outidx, output =>
    if inidx < inputlen then do
      let c1 ← read .outOfBounds input inidx
      let c2 ← read .outOfBounds input (inidx + 1)
      let c3 ← read .outOfBounds input (inidx + 2)
      let c4 ← read .outOfBounds input (inidx + 3)
      if corrupted c1 c2 c3 c4 then .ok (-1, output)
      else
        let written := decodeGroup c1 c2 c3 c4
        let output' ← writeAll .outOfBounds output outidx written
        if c3 = ascii '=' ∨ c4 = ascii '=' then .ok (outidx + written.length, output')
        else decodeLoop input inputlen fuel (inidx + 4) (outidx + written.length) output'
    else .ok (outidx, output)

/-- The length of the decoded data, by the last two characters. -/
def decodedLength (input : List UInt8) (inputlen : ℤ) : Except Fault ℤ :=
  let declen := inputlen.tdiv 4 * 3
  if inputlen ≥ 4 then do
    let last ← read .outOfBounds input (inputlen - 1).toNat
    let previous ← read .outOfBounds input (inputlen - 2).toNat
    let declen := if last = ascii '=' then declen - 1 else declen
    .ok (if previous = ascii '=' then declen - 1 else declen)
  else .ok declen

def decode (input : List UInt8) (inputlen : ℤ) (output : Option (List UInt8)) (outputlen : Option ℤ) :
    Except Fault Reply :=
  if inputlen < 0 ∨ inputlen.tmod 4 ≠ 0 then .ok ⟨-1, output, outputlen⟩
  else do
    let declen ← decodedLength input inputlen
    match outputlen, output with
    | some outlen, some buf =>
      if outlen < declen then .ok ⟨-1, some buf, some declen⟩
      else
        match decodeLoop input inputlen (inputlen.toNat + 1) 0 0 buf with
        | .ok (ret, buf') => .ok ⟨ret, some buf', some outlen⟩
        | .error e => .error e
    | some _, none => .ok ⟨declen, none, some declen⟩
    | none, output => .ok ⟨declen, output, none⟩

end Decoder
end LibXpf.Base64
