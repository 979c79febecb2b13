import LibXpf.Platform
import LibXpf.Foundation.ByteMemory
import LibXpf.Foundation.GuardedRuns
import Mathlib.Data.List.Pairwise

/-! # Allocators and the callers that use them

`BuddyAllocator` and `LinearAllocator` expose the same interface. A session is
an allocator together with what its caller holds: the pointers that are live
and the size last requested for each. The caller also writes into the bytes it
requested, so the memory between two calls is not the allocator's own.
-/
namespace LibXpf.Allocators
open ByteMemory

def minSizePowOf2 : ℕ := 4
def maxSizePowOf2 : ℕ := 31
def invalidValue : ℕ := 0xFFFFFFFF

/-- A pointer the caller holds, with the size last requested for it. -/
structure LiveBlock where
  ptr : ℕ
  size : ℕ
  deriving DecidableEq, Repr

/-- The public calls of an allocator, and a caller's own store of one byte at
offset `i` of the block at `p`. -/
inductive Request where
  | alloc (size : ℕ)
  | calloc (num size : ℕ)
  | realloc (p size : ℕ)
  | free (p : ℕ)
  | dealloc (p size : ℕ)
  | reset
  | write (p i : ℕ) (v : UInt8)
  deriving DecidableEq

/-- The interface both allocators expose. The last two fields say what the
caller loses: whether `realloc` to size zero frees, and whether `reset` does. -/
structure Interface (σ : Type) where
  alloc : σ → ℕ → Except Fault (ℕ × σ)
  calloc : σ → ℕ → ℕ → Except Fault (ℕ × σ)
  realloc : σ → ℕ → ℕ → Except Fault (ℕ × σ)
  free : σ → ℕ → Except Fault σ
  dealloc : σ → ℕ → ℕ → Except Fault σ
  reset : σ → ℕ × σ
  write : σ → ℕ → UInt8 → σ
  reallocZeroFrees : Bool
  resetReleases : Bool

structure Session (σ : Type) where
  details : σ
  live : List LiveBlock

/-- The live blocks after a call that returned `p` for `size` bytes. -/
def granted (p size : ℕ) (live : List LiveBlock) : List LiveBlock :=
  if p = NULL then live else ⟨p, size⟩ :: live

/-- The live blocks after `p` was given back. -/
def released (p : ℕ) (live : List LiveBlock) : List LiveBlock := live.filter (fun b => b.ptr ≠ p)

def IsLive (live : List LiveBlock) (p : ℕ) : Prop := ∃ b ∈ live, b.ptr = p

instance (live : List LiveBlock) (p : ℕ) : Decidable (IsLive live p) :=
  inferInstanceAs (Decidable (∃ b ∈ live, b.ptr = p))

/-- What every caller owes: pointers it passes are live, and it writes only
within the size it requested. -/
def Request.argumentsLive (live : List LiveBlock) : Request → Prop
  | .realloc p _ => p = NULL ∨ IsLive live p
  | .free p => IsLive live p
  | .dealloc p _ => IsLive live p
  | .write p i _ => ∃ b ∈ live, b.ptr = p ∧ i < b.size
  | _ => True

instance (live : List LiveBlock) (r : Request) : Decidable (r.argumentsLive live) := by
  cases r <;> simp only [Request.argumentsLive] <;> infer_instance

namespace Session
variable {σ : Type} (A : Interface σ)

def step (w : Session σ) : Request → Except Fault (Session σ)
  | .alloc size => do
    let (p, s) ← A.alloc w.details size
    return ⟨s, granted p size w.live⟩
  | .calloc num size => do
    let (p, s) ← A.calloc w.details num size
    return ⟨s, granted p (u32 (num * size)) w.live⟩
  | .realloc p size => do
    let (q, s) ← A.realloc w.details p size
    if q ≠ NULL then
      return ⟨s, granted q size (released p w.live)⟩
    else if size = 0 ∧ A.reallocZeroFrees then
      return ⟨s, released p w.live⟩
    else
      return ⟨s, w.live⟩
  | .free p => do
    let s ← A.free w.details p
    return ⟨s, released p w.live⟩
  | .dealloc p size => do
    let s ← A.dealloc w.details p size
    return ⟨s, released p w.live⟩
  | .reset => return ⟨(A.reset w.details).2, if A.resetReleases then [] else w.live⟩
  | .write p i v => return ⟨A.write w.details (p + i) v, w.live⟩

/-- The allocator after a request has returned. -/
inductive Answered (s : σ) : Request → σ → Prop
  | alloc {size p : ℕ} {t : σ} (h : A.alloc s size = .ok (p, t)) : Answered s (.alloc size) t
  | calloc {num size p : ℕ} {t : σ} (h : A.calloc s num size = .ok (p, t)) : Answered s (.calloc num size) t
  | realloc {p size q : ℕ} {t : σ} (h : A.realloc s p size = .ok (q, t)) : Answered s (.realloc p size) t
  | free {p : ℕ} {t : σ} (h : A.free s p = .ok t) : Answered s (.free p) t
  | dealloc {p size : ℕ} {t : σ} (h : A.dealloc s p size = .ok t) : Answered s (.dealloc p size) t
  | reset : Answered s .reset (A.reset s).2
  | write (p i : ℕ) (v : UInt8) : Answered s (.write p i v) (A.write s (p + i) v)

variable {A}

theorem step_answered {w w' : Session σ} {r : Request} (h : step A w r = .ok w') :
    Answered A w.details r w'.details := by
  cases r with
  | alloc size =>
    obtain ⟨⟨p, t⟩, hcall, hok⟩ := ok_of_bind h
    cases hok
    exact .alloc hcall
  | calloc num size =>
    obtain ⟨⟨p, t⟩, hcall, hok⟩ := ok_of_bind h
    cases hok
    exact .calloc hcall
  | realloc p size =>
    obtain ⟨⟨q, t⟩, hcall, hok⟩ := ok_of_bind h
    -- the three outcomes differ in the live blocks only
    have hdetails : w'.details = t := by
      dsimp only at hok
      split at hok
      · cases hok
        rfl
      · split at hok
        · cases hok
          rfl
        · cases hok
          rfl
    rw [hdetails]
    exact .realloc hcall
  | free p =>
    obtain ⟨t, hcall, hok⟩ := ok_of_bind h
    cases hok
    exact .free hcall
  | dealloc p size =>
    obtain ⟨t, hcall, hok⟩ := ok_of_bind h
    cases hok
    exact .dealloc hcall
  | reset =>
    cases h
    exact .reset
  | write p i v =>
    cases h
    exact .write p i v

end Session

theorem mem_granted {p size : ℕ} (hp : p ≠ NULL) {live : List LiveBlock} {b : LiveBlock} :
    b ∈ granted p size live ↔ b = ⟨p, size⟩ ∨ b ∈ live := by
  simp only [granted, if_neg hp, List.mem_cons]

@[simp] theorem granted_null (size : ℕ) (live : List LiveBlock) : granted NULL size live = live :=
  if_pos rfl

theorem mem_released {p : ℕ} {live : List LiveBlock} {b : LiveBlock} :
    b ∈ released p live ↔ b ∈ live ∧ b.ptr ≠ p := by
  simp [released, List.mem_filter]

theorem released_of_not_live {p : ℕ} {live : List LiveBlock} (h : ∀ b ∈ live, b.ptr ≠ p) :
    released p live = live := by
  refine List.filter_eq_self.mpr ?_
  intro b hb
  simpa using h b hb

theorem released_granted {p q size : ℕ} (hq : q ≠ NULL) (hpq : q ≠ p) (live : List LiveBlock) :
    released p (granted q size live) = granted q size (released p live) := by
  simp [granted, released, hq, hpq]

/-- Pointers held at the same time are distinct. -/
def DistinctPointers (live : List LiveBlock) : Prop := live.Pairwise (fun a b => a.ptr ≠ b.ptr)

theorem DistinctPointers.released {live : List LiveBlock} (h : DistinctPointers live) (p : ℕ) :
    DistinctPointers (released p live) := List.Pairwise.filter _ h

theorem DistinctPointers.cons {live : List LiveBlock} (h : DistinctPointers live) {b : LiveBlock}
    (hb : ∀ c ∈ live, c.ptr ≠ b.ptr) : DistinctPointers (b :: live) :=
  List.pairwise_cons.mpr ⟨fun c hc => (hb c hc).symm, h⟩

theorem DistinctPointers.eq_of_ptr {live : List LiveBlock} (h : DistinctPointers live) {a b : LiveBlock}
    (ha : a ∈ live) (hb : b ∈ live) (hptr : a.ptr = b.ptr) : a = b := by
  have : Std.Symm (fun a b : LiveBlock => a.ptr ≠ b.ptr) := ⟨fun _ _ hne => hne.symm⟩
  by_contra hne
  exact List.Pairwise.forall h ha hb hne hptr

end LibXpf.Allocators
