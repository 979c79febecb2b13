import LibXpf.Allocators.Sessions
import LibXpf.Foundation.LinkedChain

/-! # `BuddyAllocator`

Tier `0` is the whole chunk; the blocks of each tier below are halves of those
above. A bit per block says whether it is in use. The free blocks of a tier form
a chain of `FreeBlockRecord`s, each stored in the last bytes of its block.
-/
namespace LibXpf.Allocators
open ByteMemory LinkedChain

/-- An address space, with the static assertion the constructor makes of it. -/
structure AddressSpace where
  sizeofPointer : ℕ
  recordFits : 2 * sizeofPointer ≤ 1 <<< minSizePowOf2

def model64 : AddressSpace := ⟨8, by decide⟩

/-- Memory that `malloc` returned: not null, and inside the address space. -/
structure MallocBlock (space : AddressSpace) (bytes : ℕ) where
  addr : ℕ
  notNull : addr ≠ NULL
  inSpace : addr + bytes ≤ 256 ^ space.sizeofPointer

/-- The fields of the source, and the memory that `chunk` points into. The two
arrays beside the chunk are functions of their index. -/
structure BuddyAllocatorDetails (space : AddressSpace) where
  capacity : ℕ
  chunk : ℕ
  flagsLen : ℕ
  flags : ℕ → UInt8
  tierNum : ℕ
  freeChainHead : ℕ → ℕ
  usedBytes : ℕ
  hwmBytes : ℕ
  mem : Memory

namespace BuddyAllocatorDetails
variable {space : AddressSpace}

def sizeofFreeBlockRecord (space : AddressSpace) : ℕ := 2 * space.sizeofPointer

section Blocks

def buddyIdOf (blockId : ℕ) : ℕ := blockId ^^^ 0x1

def blockSizeOf (s : BuddyAllocatorDetails space) (tier : ℕ) : Except Fault ℕ := do
  xpfAssert "Expecting a valid tier index." (tier < s.tierNum)
  return u32 (1 <<< (minSizePowOf2 + s.tierNum - tier - 1))

/-- The loop of `tierOf` with `tiers` tiers left, the lowest of blocks of `s` bytes. -/
def tierOfLoop (size : ℕ) : (tiers s : ℕ) → ℕ
  | 0, _ => invalidValue
  | t + 1, s => if size ≤ s then t else tierOfLoop size t (u32 (s <<< 1))

def tierOf (s : BuddyAllocatorDetails space) (size : ℕ) : ℕ :=
  tierOfLoop size s.tierNum (1 <<< minSizePowOf2)

/-- The bit of a flag byte that stands for the block of index `idx`. -/
def flagMask (idx : ℕ) : UInt8 := 1 <<< UInt8.ofNat (idx &&& 0x7)

def flagIndex (tier blockId : ℕ) : ℕ := u32 (1 <<< tier + blockId)

def isBlockInUse (s : BuddyAllocatorDetails space) (tier blockId : ℕ) : Except Fault Bool := do
  xpfAssert "Expecting a valid tier index." (tier < s.tierNum)
  let idx := flagIndex tier blockId
  return s.flags (idx >>> 3) &&& flagMask idx ≠ 0

def setBlockInUse (s : BuddyAllocatorDetails space) (tier blockId : ℕ) (val : Bool) :
    Except Fault (BuddyAllocatorDetails space) := do
  xpfAssert "Expecting a valid tier index." (tier < s.tierNum)
  let idx := flagIndex tier blockId
  let byte := s.flags (idx >>> 3)
  if val then
    return { s with flags := Function.update s.flags (idx >>> 3) (byte ||| flagMask idx) }
  else
    return { s with flags := Function.update s.flags (idx >>> 3) (byte &&& (flagMask idx ^^^ 0xFF)) }

def isValidPtr (s : BuddyAllocatorDetails space) (p : ℕ) : Except Fault Bool := do
  xpfAssert "Expecting a managed pointer (>= bulk start)." (p ≥ s.chunk)
  if p < s.chunk then
    return false
  let offset := u32 (p - s.chunk)
  xpfAssert "Expecting a managed pointer ( < bulk length)." (offset < s.capacity)
  if offset ≥ s.capacity then
    return false
  let aligned := offset = offset &&& u32 (0xFFFFFFFF <<< minSizePowOf2)
  xpfAssert "Expecting an aligned pointer." aligned
  return aligned

def blockIdOf (s : BuddyAllocatorDetails space) (tier p : ℕ) : Except Fault ℕ := do
  let valid ← s.isValidPtr p
  xpfAssert "Expecting a valid pointer." (valid = true)
  if ¬ valid then
    return invalidValue
  let offset := u32 (p - s.chunk)
  let mask := u32 (0xFFFFFFFF <<< (minSizePowOf2 + s.tierNum - tier - 1))
  xpfAssert "Expecting an aligned pointer." (offset = offset &&& mask)
  if offset ≠ offset &&& mask then
    return invalidValue
  return offset / (← s.blockSizeOf tier)

/-- The loop of `locateBlockInUse`, with the tiers below `tiers` left to try. -/
def locateLoop (s : BuddyAllocatorDetails space) (p : ℕ) :
    (tiers : ℕ) → Except Fault (Option (ℕ × ℕ))
  | 0 => return none
  | t + 1 => do
    let blockId ← s.blockIdOf t p
    xpfAssert "Expecting a valid blockId." (blockId ≠ invalidValue)
    if blockId = invalidValue then
      return none
    if ← s.isBlockInUse t blockId then
      return some (t, blockId)
    s.locateLoop p t

/-- The tier and block id of the block in use at `p`. -/
def locateBlockInUse (s : BuddyAllocatorDetails space) (p : ℕ) : Except Fault (Option (ℕ × ℕ)) :=
  s.locateLoop p s.tierNum

end Blocks

section FreeChains

/-- The record in the last bytes of a block. -/
def freeBlockRecord (s : BuddyAllocatorDetails space) (blockSize blockId : ℕ) : ℕ :=
  s.chunk + u32 (blockSize * u32 (blockId + 1)) - sizeofFreeBlockRecord space

/-- Step 1 of `obtain`: hand out the first block of the chain. -/
def obtainFirst (s : BuddyAllocatorDetails space) (tier : ℕ) :
    Except Fault (ℕ × BuddyAllocatorDetails space) := do
  let fbr := s.freeChainHead tier
  let blockSize ← s.blockSizeOf tier
  let blockId := u32 (fbr - s.chunk) / blockSize
  let s := { s with
    freeChainHead := Function.update s.freeChainHead tier (next space.sizeofPointer s.mem fbr)
    mem := if next space.sizeofPointer s.mem fbr ≠ NULL then
        setPrev space.sizeofPointer s.mem (next space.sizeofPointer s.mem fbr) NULL
      else s.mem }
  let s ← s.setBlockInUse tier blockId true
  return (blockId, s)

/-- Step 1 of `recycle`: the block was in use and no longer is. -/
def recycleFlag (s : BuddyAllocatorDetails space) (tier blockId : ℕ) :
    Except Fault (BuddyAllocatorDetails space) := do
  let inUse ← s.isBlockInUse tier blockId
  xpfAssert "Expecting a in-using blockId." (inUse = true)
  s.setBlockInUse tier blockId false

/-- Step 2a of `recycle`: push the block in front of the chain. -/
def recyclePush (s : BuddyAllocatorDetails space) (tier blockId : ℕ) :
    Except Fault (BuddyAllocatorDetails space) := do
  let blockSize ← s.blockSizeOf tier
  let fbr := s.freeBlockRecord blockSize blockId
  let head := s.freeChainHead tier
  let mem := if head ≠ NULL then setPrev space.sizeofPointer s.mem head fbr else s.mem
  let mem := setNext space.sizeofPointer mem fbr head
  let mem := setPrev space.sizeofPointer mem fbr NULL
  return { s with mem := mem, freeChainHead := Function.update s.freeChainHead tier fbr }

/-- Step 2b of `recycle`: take the buddy block off the chain. -/
def recycleUnlink (s : BuddyAllocatorDetails space) (tier buddyBlockId : ℕ) :
    Except Fault (BuddyAllocatorDetails space) := do
  let w := space.sizeofPointer
  let blockSize ← s.blockSizeOf tier
  let fbr := s.freeBlockRecord blockSize buddyBlockId
  let head := s.freeChainHead tier
  let mem := if prev w s.mem fbr ≠ NULL then
    setNext w s.mem (prev w s.mem fbr) (next w s.mem fbr) else s.mem
  let mem := if next w mem fbr ≠ NULL then
    setPrev w mem (next w mem fbr) (prev w mem fbr) else mem
  let head := if fbr = head then
    (if prev w mem fbr ≠ NULL then prev w mem fbr else next w mem fbr) else head
  return { s with mem := mem, freeChainHead := Function.update s.freeChainHead tier head }

def recycle (s : BuddyAllocatorDetails space) : (tier blockId : ℕ) →
    Except Fault (BuddyAllocatorDetails space)
  | 0, blockId => do
    let s ← s.recycleFlag 0 blockId
    s.recyclePush 0 blockId
  | tier + 1, blockId => do
    let s ← s.recycleFlag (tier + 1) blockId
    let buddyBlockId := buddyIdOf blockId
    if ← s.isBlockInUse (tier + 1) buddyBlockId then
      s.recyclePush (tier + 1) blockId
    else
      let s ← s.recycleUnlink (tier + 1) buddyBlockId
      s.recycle tier (blockId >>> 1)

/-- `obtain` of the source. -/
def obtainBlock (s : BuddyAllocatorDetails space) : (tier : ℕ) →
    Except Fault (ℕ × BuddyAllocatorDetails space)
  | 0 => if s.freeChainHead 0 ≠ NULL then s.obtainFirst 0 else return (invalidValue, s)
  | tier + 1 => do
    if s.freeChainHead (tier + 1) ≠ NULL then
      s.obtainFirst (tier + 1)
    else
      let (upperBlockId, s) ← s.obtainBlock tier
      if upperBlockId ≠ invalidValue then
        let blockId1 := u32 (upperBlockId <<< 1)
        let blockId2 := u32 (blockId1 + 1)
        let s ← s.setBlockInUse (tier + 1) blockId1 true
        let s ← s.setBlockInUse (tier + 1) blockId2 true
        let s ← s.recycle (tier + 1) blockId2
        return (blockId1, s)
      else
        return (invalidValue, s)

end FreeChains

section Interface

def alloc (s : BuddyAllocatorDetails space) (size : ℕ) :
    Except Fault (ℕ × BuddyAllocatorDetails space) := do
  let tier := s.tierOf size
  if tier = invalidValue then
    return (NULL, s)
  let (blockId, s) ← s.obtainBlock tier
  if blockId = invalidValue then
    return (NULL, s)
  let bsize ← s.blockSizeOf tier
  let usedBytes := u32 (s.usedBytes + bsize)
  return (s.chunk + u32 (blockId * bsize),
    { s with usedBytes := usedBytes, hwmBytes := if usedBytes > s.hwmBytes then usedBytes else s.hwmBytes })

/-- Give a block back and count its bytes as unused. -/
def recycleUsed (s : BuddyAllocatorDetails space) (tier blockId : ℕ) :
    Except Fault (BuddyAllocatorDetails space) := do
  let s ← s.recycle tier blockId
  let bsize ← s.blockSizeOf tier
  return { s with usedBytes := u32Sub s.usedBytes bsize }

def dealloc (s : BuddyAllocatorDetails space) (p size : ℕ) :
    Except Fault (BuddyAllocatorDetails space) := do
  let tier := s.tierOf size
  xpfAssert "Expecting a valid tier index." (tier ≠ invalidValue)
  if tier = invalidValue then
    return s
  let blockId ← s.blockIdOf tier p
  xpfAssert "Expecting a valid blockId." (blockId ≠ invalidValue)
  if blockId ≠ invalidValue then
    s.recycleUsed tier blockId
  else
    return s

def free (s : BuddyAllocatorDetails space) (p : ℕ) : Except Fault (BuddyAllocatorDetails space) := do
  let located ← s.locateBlockInUse p
  xpfAssert "Expecting a managed pointer." (located.isSome = true)
  match located with
  | some (tier, blockId) => s.recycleUsed tier blockId
  | none => return s

/-- Move the contents of a block of `blockSize` bytes to a new block for `size`
bytes; `length` of them are copied. -/
def reallocMove (s : BuddyAllocatorDetails space) (p size blockSize length : ℕ) :
    Except Fault (ℕ × BuddyAllocatorDetails space) := do
  let (b, s) ← s.alloc size
  if b ≠ NULL then
    let s ← dealloc { s with mem := copy s.mem b p length } p blockSize
    return (b, s)
  return (b, s)

def realloc (s : BuddyAllocatorDetails space) (p size : ℕ) :
    Except Fault (ℕ × BuddyAllocatorDetails space) := do
  if p = NULL then
    return ← s.alloc size
  if size = 0 then
    let s ← s.free p
    return (NULL, s)
  match ← s.locateBlockInUse p with
  | some (tier, _) =>
    let blockSize ← s.blockSizeOf tier
    if tier = 0 ∧ size > blockSize then
      return (NULL, s)
    if s.tierNum - 1 = tier ∧ size ≤ blockSize then
      return (p, s)
    if size > blockSize then
      return ← s.reallocMove p size blockSize blockSize
    if size ≤ blockSize >>> 1 then
      return ← s.reallocMove p size blockSize size
    return (p, s)
  | none => return (NULL, s)

def calloc (s : BuddyAllocatorDetails space) (num size : ℕ) :
    Except Fault (ℕ × BuddyAllocatorDetails space) := do
  let length := u32 (num * size)
  let (ptr, s) ← s.alloc length
  if ptr ≠ NULL then
    return (ptr, { s with mem := fill s.mem ptr 0 length })
  return (ptr, s)

def available (s : BuddyAllocatorDetails space) : Except Fault ℕ :=
  match (List.range s.tierNum).find? (fun t => s.freeChainHead t ≠ NULL) with
  | some t => s.blockSizeOf t
  | none => return 0

def used (s : BuddyAllocatorDetails space) : ℕ := s.usedBytes

def hwm (s : BuddyAllocatorDetails space) : ℕ := s.hwmBytes

def reset (s : BuddyAllocatorDetails space) : ℕ × BuddyAllocatorDetails space :=
  (s.hwmBytes, { s with hwmBytes := 0 })

/-- `BuddyAllocator` as its caller sees it. -/
def interface (space : AddressSpace) : Interface (BuddyAllocatorDetails space) where
  alloc := alloc
  calloc := calloc
  realloc := realloc
  free := free
  dealloc := dealloc
  reset := reset
  write := fun s a v => { s with mem := Function.update s.mem a v }
  reallocZeroFrees := true
  resetReleases := false

end Interface

section Construction

/-- The sizing loop of the constructor: capacity and number of tiers. -/
def sizingLoop (size : ℕ) : (fuel capacity tierNum : ℕ) → ℕ × ℕ
  | 0, capacity, tierNum => (capacity, tierNum)
  | fuel + 1, capacity, tierNum =>
    if capacity < size then
      let capacity := u32 (capacity <<< 1)
      let tierNum := tierNum + 1
      if 1 <<< maxSizePowOf2 = capacity then (capacity, tierNum)
      else sizingLoop size fuel capacity tierNum
    else (capacity, tierNum)

/-- Doublings of the smallest block after which the loop has left by itself. -/
def sizingBudget : ℕ := maxSizePowOf2 - minSizePowOf2

def sizing (size : ℕ) : ℕ × ℕ := sizingLoop size sizingBudget (1 <<< minSizePowOf2) 1

/-- The constructor, given the memory `malloc` returned for the chunk. -/
def construct (size : ℕ) (chunk : MallocBlock space (sizing size).1) (mem : Memory) :
    Except Fault (BuddyAllocatorDetails space) := do
  let (capacity, tierNum) := sizing size
  let s : BuddyAllocatorDetails space :=
    { capacity := capacity
      chunk := chunk.addr
      flagsLen := 1 <<< (if tierNum ≤ 3 then 0 else tierNum - 3)
      flags := fun _ => 0
      tierNum := tierNum
      freeChainHead := fun _ => NULL
      usedBytes := 0
      hwmBytes := 0
      mem := mem }
  let s ← s.setBlockInUse 0 0 true
  s.recycle 0 0

end Construction
end BuddyAllocatorDetails
end LibXpf.Allocators
