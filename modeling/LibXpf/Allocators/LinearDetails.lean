import LibXpf.Allocators.Sessions

/-! # `LinearAllocator`

The chunk is a stack of cells. A cell is an eight-byte `FreeCellRecord`
followed by the caller's bytes; the record names the cell below through
`PrevOffset`, whose top bit says that the cell has been freed.
-/
namespace LibXpf.Allocators
open ByteMemory

/-- The fields of the source, and the memory that `chunk` points into. -/
structure LinearAllocatorDetails where
  chunk : ℕ
  current : ℕ
  previous : ℕ
  capacity : ℕ
  hwmBytes : ℕ
  mem : Memory

namespace LinearAllocatorDetails

def sizeofFreeCellRecord : ℕ := 8

/-- `rec->PrevOffset` of the record at address `cell`. -/
def prevOffset (m : Memory) (cell : ℕ) : ℕ := load 4 m cell

/-- `rec->CRC` of the record at address `cell`. -/
def crc (m : Memory) (cell : ℕ) : ℕ := load 4 m (cell + 4)

/-- The capacity the constructor settles on. -/
def constructedCapacity (size : ℕ) : ℕ :=
  if size < 1 <<< minSizePowOf2 then 1 <<< minSizePowOf2
  else if size > 1 <<< maxSizePowOf2 then 1 <<< maxSizePowOf2
  else upgradeToMultipleOf8 size

/-- The constructor, given the address `malloc` returned and the bytes there. -/
def construct (size chunk : ℕ) (mem : Memory) : LinearAllocatorDetails where
  chunk := chunk
  current := 0
  previous := 0
  capacity := constructedCapacity size
  hwmBytes := 0
  mem := mem

def available (s : LinearAllocatorDetails) : ℕ :=
  let size := u32Sub s.capacity s.current
  if size < sizeofFreeCellRecord then 0 else size - sizeofFreeCellRecord

def used (s : LinearAllocatorDetails) : ℕ := s.current

def hwm (s : LinearAllocatorDetails) : ℕ := s.hwmBytes

def reset (s : LinearAllocatorDetails) : ℕ × LinearAllocatorDetails :=
  (s.hwmBytes, { s with current := 0, previous := 0, hwmBytes := 0 })

def alloc (s : LinearAllocatorDetails) (size : ℕ) : Except Fault (ℕ × LinearAllocatorDetails) := do
  let size := upgradeToMultipleOf8 (u32 (size + sizeofFreeCellRecord))
  if size > s.available then
    return (NULL, s)
  xpfAssert "Expecting Current < Capacity" (s.current < s.capacity)
  if s.current < s.capacity then
    let cell := s.chunk + s.current
    let mem := store 4 s.mem cell s.previous
    -- the checksum is taken of the word just written
    let mem := store 4 mem (cell + 4) (prevOffset mem cell ^^^ 0x5FEE1299)
    xpfAssert "Expecting PrevOffset < (1<<MAXSIZE_POWOF2)" (prevOffset mem cell < 1 <<< maxSizePowOf2)
    let current := u32 (s.current + size)
    return (cell + sizeofFreeCellRecord,
      { s with mem := mem, previous := s.current, current := current,
               hwmBytes := if current > s.hwmBytes then current else s.hwmBytes })
  return (NULL, s)

/-- The `while (true)` loop of `free`: `recOffset` is the offset of the record
in hand when a pass starts. -/
def rollback : ℕ → LinearAllocatorDetails → ℕ → Except Fault LinearAllocatorDetails
  | 0, _, _ => .error .diverges
  | fuel + 1, s, recOffset => do
    let s := { s with current := u32 recOffset }
    if s.current = 0 then
      return { s with previous := 0 }
    let recOffset := s.previous
    let word := prevOffset s.mem (s.chunk + recOffset)
    xpfAssert "Checksum matched (data corrupted)"
      ((word &&& 0x7FFFFFFF) ^^^ 0x5FEE1299 = crc s.mem (s.chunk + recOffset))
    let s := { s with previous := word &&& 0x7FFFFFFF }
    if word &&& 0x80000000 = 0 then
      return s
    rollback fuel s recOffset

/-- Passes of the rollback loop after which it is taken to diverge. Offsets
fall from the second pass on, so a loop that ends needs fewer. -/
def rollbackBudget (s : LinearAllocatorDetails) : ℕ := s.capacity + 2

def free (s : LinearAllocatorDetails) (p : ℕ) : Except Fault LinearAllocatorDetails := do
  let cell := p - sizeofFreeCellRecord
  xpfAssert "Expecting managed pointer." (s.chunk ≤ cell ∧ cell < s.chunk + s.capacity)
  if s.chunk ≤ cell ∧ cell < s.chunk + s.capacity then
    let word := prevOffset s.mem cell
    xpfAssert "Checksum matched (data corrupted)" ((word &&& 0x7FFFFFFF) ^^^ 0x5FEE1299 = crc s.mem cell)
    xpfAssert "In-using cell" (word &&& 0x80000000 = 0)
    let s := { s with mem := store 4 s.mem cell (word ||| 0x80000000) }
    -- a cell below the top of the stack is only marked
    if s.previous ≠ cell - s.chunk then
      return s
    rollback s.rollbackBudget s (cell - s.chunk)
  else
    return s

def dealloc (s : LinearAllocatorDetails) (p _size : ℕ) : Except Fault LinearAllocatorDetails := s.free p

/-- The body of `realloc`, with the `memcpy` that it calls. -/
def reallocCopying (s : LinearAllocatorDetails) (p size : ℕ) :
    Except Fault (Option Memcpy × ℕ × LinearAllocatorDetails) := do
  if size = 0 then
    return (none, NULL, s)
  let (ptr, s) ← s.alloc size
  if ptr ≠ NULL ∧ p ≠ NULL then
    let memcpy : Memcpy := ⟨ptr, p, size⟩
    let s ← free { s with mem := memcpy.run s.mem } p
    return (some memcpy, ptr, s)
  return (none, ptr, s)

def realloc (s : LinearAllocatorDetails) (p size : ℕ) : Except Fault (ℕ × LinearAllocatorDetails) := do
  let (_, ptr, s) ← s.reallocCopying p size
  return (ptr, s)

theorem realloc_eq (s : LinearAllocatorDetails) (p size : ℕ) :
    s.realloc p size =
      if size = 0 then .ok (NULL, s)
      else s.alloc size >>= fun r =>
        if r.1 ≠ NULL ∧ p ≠ NULL then
          free { r.2 with mem := copy r.2.mem r.1 p size } p >>= fun t => .ok (r.1, t)
        else .ok (r.1, r.2) := by
  rw [realloc, reallocCopying]
  split
  · rfl
  · cases s.alloc size with
    | error e => rfl
    | ok r =>
      simp only [ok_bind]
      split
      · change (free { r.2 with mem := copy r.2.mem r.1 p size } p >>= _) >>= _ = _
        cases free { r.2 with mem := copy r.2.mem r.1 p size } p with
        | error e => rfl
        | ok t => rfl
      · rfl

def calloc (s : LinearAllocatorDetails) (num size : ℕ) : Except Fault (ℕ × LinearAllocatorDetails) := do
  let length := u32 (num * size)
  let (ptr, s) ← s.alloc length
  if ptr ≠ NULL then
    return (ptr, { s with mem := fill s.mem ptr 0 length })
  return (ptr, s)

/-- `LinearAllocator` as its caller sees it. -/
def interface : Interface LinearAllocatorDetails where
  alloc := alloc
  calloc := calloc
  realloc := realloc
  free := free
  dealloc := dealloc
  reset := reset
  write := fun s a v => { s with mem := Function.update s.mem a v }
  reallocZeroFrees := false
  resetReleases := true

end LinearAllocatorDetails
end LibXpf.Allocators
