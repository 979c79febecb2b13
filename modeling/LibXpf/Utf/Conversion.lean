import LibXpf.Foundation.Buffers
import LibXpf.Platform

/-! # The unicode converter

A reader takes code points from the source buffer and a writer puts them into the
destination buffer. Both keep a position and a count of the units that remain, and
a negative count is no bound.
-/
namespace LibXpf.Utf
open Buffers

def END_OF_STREAM : UInt32 := 0xFFFFFFFF
def BAD_FORMAT : UInt32 := 0xFFFFFFFE
def SUCCESS : UInt32 := 0

/-- The members `Current`, as an index, and `Remaining` of a reader or a writer. -/
structure Cursor where
  current : ℕ
  remaining : ℤ
  deriving DecidableEq, Repr

/-- Move on by some units, which are taken off a count above zero. -/
def Cursor.pass (cur : Cursor) (n : ℕ) : Cursor :=
  ⟨cur.current + n, if 0 < cur.remaining then cur.remaining - n else cur.remaining⟩

/-- The test of a count above zero before `n` units are taken off it. -/
def Cursor.short (cur : Cursor) (n : ℕ) : Prop := 0 < cur.remaining ∧ cur.remaining < n

instance (cur : Cursor) (n : ℕ) : Decidable (cur.short n) := inferInstanceAs (Decidable (_ ∧ _))

section Readers

namespace Utf8Reader

/-- The number of subsequent bytes, and the bits of the first byte. -/
def first (c : UInt8) : Option (ℕ × UInt32) :=
  if c &&& 0x80 = 0 then some (0, c.toUInt32)
  else if c &&& 0xE0 = 0xC0 then some (1, (c &&& 0x1F).toUInt32)
  else if c &&& 0xF0 = 0xE0 then some (2, (c &&& 0x0F).toUInt32)
  else if c &&& 0xF8 = 0xF0 then some (3, (c &&& 0x07).toUInt32)
  else if c &&& 0xFC = 0xF8 then some (4, (c &&& 0x03).toUInt32)
  else if c &&& 0xFE = 0xFC then some (5, (c &&& 0x01).toUInt32)
  else none

def extend (codepoint : UInt32) (c : UInt8) : UInt32 := (codepoint <<< 6) ||| (c &&& 0x3F).toUInt32

/-- The loop over the subsequent bytes. The bytes are already taken off the count. -/
def subsequent (buf : List UInt8) (remaining : ℤ) :
    ℕ → (current : ℕ) → (codepoint : UInt32) → Except Fault (UInt32 × Cursor)
  | 0, current, codepoint => .ok (codepoint, ⟨current + 1, remaining⟩)
  | sbcnt + 1, current, codepoint => do
    let c ← Buffers.read .outOfBounds buf (current + 1)
    if c &&& 0xC0 = 0x80 then subsequent buf remaining sbcnt (current + 1) (extend codepoint c)
    else .ok (BAD_FORMAT, ⟨current + 1, remaining⟩)

def read (buf : List UInt8) (cur : Cursor) : Except Fault (UInt32 × Cursor) :=
  if cur.remaining = 0 then .ok (END_OF_STREAM, cur)
  else do
    let c ← Buffers.read .outOfBounds buf cur.current
    if c = 0 then .ok (END_OF_STREAM, cur)
    else
      match first c with
      | none => .ok (BAD_FORMAT, cur)
      | some (sbcnt, codepoint) =>
        if cur.short (sbcnt + 1) then .ok (END_OF_STREAM, cur)
        else subsequent buf (cur.pass (sbcnt + 1)).remaining sbcnt cur.current codepoint

end Utf8Reader

namespace Ucs2Reader

def leadSurrogate (c : UInt16) : Prop := c ≥ 0xD800 ∧ c ≤ 0xDBFF

def trailSurrogate (c : UInt16) : Prop := c ≥ 0xDC00 ∧ c ≤ 0xDFFF

instance (c : UInt16) : Decidable (leadSurrogate c) := inferInstanceAs (Decidable (_ ∧ _))

instance (c : UInt16) : Decidable (trailSurrogate c) := inferInstanceAs (Decidable (_ ∧ _))

def combine (c t : UInt16) : UInt32 :=
  (((c - 0xD800).toUInt32 <<< 10) ||| (t - 0xDC00).toUInt32) + 0x10000

def read (buf : List UInt16) (cur : Cursor) : Except Fault (UInt32 × Cursor) :=
  if cur.remaining = 0 then .ok (END_OF_STREAM, cur)
  else do
    let c ← Buffers.read .outOfBounds buf cur.current
    if c = 0 then .ok (END_OF_STREAM, cur)
    else if leadSurrogate c then
      if cur.short 2 then .ok (END_OF_STREAM, cur)
      else do
        let t ← Buffers.read .outOfBounds buf (cur.current + 1)
        if trailSurrogate t then .ok (combine c t, cur.pass 2)
        else .ok (BAD_FORMAT, ⟨cur.current + 1, (cur.pass 2).remaining⟩)
    else if trailSurrogate c then .ok (BAD_FORMAT, cur)
    else .ok (c.toUInt32, cur.pass 1)

end Ucs2Reader

def Ucs4Reader.read (buf : List UInt32) (cur : Cursor) : Except Fault (UInt32 × Cursor) :=
  if cur.remaining = 0 then .ok (END_OF_STREAM, cur)
  else do
    let c ← Buffers.read .outOfBounds buf cur.current
    if c = 0 then .ok (END_OF_STREAM, cur) else .ok (c, cur.pass 1)

end Readers

section Writers
variable {β : Type}

/-- The writers differ in the units that they write for a code point. -/
def writeUnits (units : List β) (cur : Cursor) (buf : List β) :
    Except Fault (UInt32 × Cursor × List β) :=
  if cur.remaining = 0 ∨ cur.short units.length then .ok (END_OF_STREAM, cur, buf)
  else do
    let buf' ← writeAll .outOfBounds buf cur.current units
    .ok (SUCCESS, cur.pass units.length, buf')

/-- The null at the end, which is the same in the three writers. -/
def closure (nul : β) (cur : Cursor) (buf : List β) : Except Fault (UInt32 × List β) :=
  if cur.remaining ≠ 0 then do
    let buf' ← Buffers.write .outOfBounds buf cur.current nul
    .ok (SUCCESS, buf')
  else .ok (END_OF_STREAM, buf)

namespace Utf8Writer

def sbcnt (cp : UInt32) : ℕ :=
  if cp ≥ 0x4000000 then 5
  else if cp ≥ 0x200000 then 4
  else if cp ≥ 0x10000 then 3
  else if cp ≥ 0x800 then 2
  else if cp ≥ 0x80 then 1
  else 0

/-- The loop over the subsequent bytes, from the last one back, and what is left of `cp`. -/
def subsequent : ℕ → UInt32 → List UInt8 → UInt32 × List UInt8
  | 0, cp, bytes => (cp, bytes)
  | i + 1, cp, bytes => subsequent i (cp >>> 6) ((0x80 ||| (cp &&& 0x3F).toUInt8) :: bytes)

def first (sbcnt : ℕ) (cp : UInt32) : UInt8 :=
  match sbcnt with
  | 1 => 0xC0 ||| (cp &&& 0x1F).toUInt8
  | 2 => 0xE0 ||| (cp &&& 0x0F).toUInt8
  | 3 => 0xF0 ||| (cp &&& 0x07).toUInt8
  | 4 => 0xF8 ||| (cp &&& 0x03).toUInt8
  | 5 => 0xFC ||| (cp &&& 0x01).toUInt8
  | _ => (cp &&& 0xFF).toUInt8

def units (cp : UInt32) : List UInt8 :=
  let left := subsequent (sbcnt cp) cp []
  first (sbcnt cp) left.1 :: left.2

def write (cp : UInt32) := writeUnits (units cp)

end Utf8Writer

namespace Ucs2Writer

/-- There are no units for an impossible code point value. -/
def units (cp : UInt32) : List UInt16 :=
  if cp > 0x10FFFF then []
  else if cp ≥ 0x10000 then
    [(((cp - 0x10000) &&& 0xFFC00) >>> 10).toUInt16 + 0xD800,
      ((cp - 0x10000) &&& 0x3FF).toUInt16 + 0xDC00]
  else [cp.toUInt16]

def write (cp : UInt32) := writeUnits (units cp)

end Ucs2Writer

namespace Ucs4Writer

def units (cp : UInt32) : List UInt32 := [cp]

def write (cp : UInt32) := writeUnits (units cp)

end Ucs4Writer
end Writers

/-- The widths of a character that have a reader and a writer. -/
inductive Width where
  | one | two | four
  deriving DecidableEq, Repr

abbrev Width.Unit : Width → Type
  | .one => UInt8
  | .two => UInt16
  | .four => UInt32

def Width.nul : (w : Width) → w.Unit
  | .one => (0 : UInt8)
  | .two => (0 : UInt16)
  | .four => (0 : UInt32)

/-- Which call has ended the loop, and the status it returned. -/
inductive Stop where
  | read (status : UInt32)
  | write (status : UInt32)
  deriving DecidableEq, Repr

/-- What a conversion returns and leaves behind. -/
structure Conversion (β : Type) where
  cnt : ℤ
  dbuf : List β
  stop : Stop
  reader : Cursor
  writer : Cursor
  deriving DecidableEq, Repr

section Driver
variable {β : Type}

def convLoop (read : Cursor → Except Fault (UInt32 × Cursor))
    (write : UInt32 → Cursor → List β → Except Fault (UInt32 × Cursor × List β))
    (closure : Cursor → List β → Except Fault (UInt32 × List β)) :
    ℕ → (r w : Cursor) → List β → (cnt : ℤ) → Except Fault (Conversion β)
  | 0, _, _, _, _ => .error .diverges
  | fuel + 1, r, w, dbuf, cnt => do
    let (cp, r') ← read r
    if cp = END_OF_STREAM ∨ cp = BAD_FORMAT then
      let (_, dbuf') ← closure w dbuf
      .ok ⟨cnt, dbuf', .read cp, r', w⟩
    else
      let (status, w', dbuf') ← write cp w dbuf
      if status ≠ SUCCESS then .ok ⟨cnt, dbuf', .write status, r', w'⟩
      else convLoop read write closure fuel r' w' dbuf' (s32 (cnt + 1))

end Driver

/-- The switch that selects the reader. -/
def selectReader : (scw : Width) → List scw.Unit → Cursor → Except Fault (UInt32 × Cursor)
  | .one => Utf8Reader.read
  | .two => Ucs2Reader.read
  | .four => Ucs4Reader.read

/-- The switch that selects the writer. -/
def selectWriter : (dcw : Width) → UInt32 → Cursor → List dcw.Unit →
    Except Fault (UInt32 × Cursor × List dcw.Unit)
  | .one => Utf8Writer.write
  | .two => Ucs2Writer.write
  | .four => Ucs4Writer.write

/-- Every round but the last one moves over a unit of the source. -/
def utfConvInner (scw dcw : Width) (sbuf : List scw.Unit) (dbuf : List dcw.Unit) (scnt dcnt : ℤ) :
    Except Fault (Conversion dcw.Unit) :=
  convLoop (selectReader scw sbuf) (selectWriter dcw) (closure dcw.nul) (sbuf.length + 1)
    ⟨0, scnt⟩ ⟨0, dcnt⟩ dbuf 0

end LibXpf.Utf
