import LibXpf.Allocators.LinearDetails
import Mathlib.Logic.Relation

/-! # The stack of cells inside the chunk

The cells are listed from the top of the stack down. They fill `[0, Current)`
without gaps, whatever has been freed, and each record holds the offset of some
lower cell. `Previous` names a cell of the stack, not always its top cell: the
rollback leaves it below a live cell it stops at.
-/
namespace LibXpf.Allocators
open ByteMemory Relation

/-- A cell at offset `off` of total length `len`, as its record describes it. -/
structure Cell where
  off : ℕ
  len : ℕ
  prev : ℕ
  freed : Bool
  deriving DecidableEq

/-- The cells fill `[0, top)` from the top down, each with room for its record. -/
def Stacked : ℕ → List Cell → Prop
  | top, [] => top = 0
  | top, c :: below => c.off + c.len = top ∧ 8 ≤ c.len ∧ Stacked c.off below

namespace Stacked
variable {top : ℕ} {cells above below : List Cell} {c d : Cell}

theorem mem_le (h : Stacked top cells) (hc : c ∈ cells) : c.off + c.len ≤ top ∧ 8 ≤ c.len := by
  induction cells generalizing top with
  | nil => simp at hc
  | cons e rest ih =>
    obtain ⟨htop, hlen, hrest⟩ := h
    rcases List.mem_cons.mp hc with rfl | hc
    · exact ⟨by omega, hlen⟩
    · obtain ⟨hle, hlen'⟩ := ih hrest hc
      exact ⟨by omega, hlen'⟩

theorem eq_or_apart (h : Stacked top cells) (hc : c ∈ cells) (hd : d ∈ cells) :
    c = d ∨ c.off + c.len ≤ d.off ∨ d.off + d.len ≤ c.off := by
  induction cells generalizing top with
  | nil => simp at hc
  | cons e rest ih =>
    obtain ⟨_, _, hrest⟩ := h
    rcases List.mem_cons.mp hc with rfl | hcr
    · rcases List.mem_cons.mp hd with rfl | hdr
      · exact Or.inl rfl
      · exact Or.inr (Or.inr (hrest.mem_le hdr).1)
    · rcases List.mem_cons.mp hd with rfl | hdr
      · exact Or.inr (Or.inl (hrest.mem_le hcr).1)
      · exact ih hrest hcr hdr

theorem eq_of_off (h : Stacked top cells) (hc : c ∈ cells) (hd : d ∈ cells) (ho : c.off = d.off) :
    c = d := by
  have hcl := (h.mem_le hc).2
  have hdl := (h.mem_le hd).2
  rcases h.eq_or_apart hc hd with heq | hlt | hlt
  · exact heq
  · omega
  · omega

theorem cut (h : Stacked top (above ++ c :: below)) : Stacked c.off below := by
  induction above generalizing top with
  | nil => exact h.2.2
  | cons e rest ih => exact ih h.2.2

theorem mem_below_iff (h : Stacked top (above ++ c :: below)) (hd : d ∈ above ++ c :: below) :
    d ∈ below ↔ d.off < c.off := by
  have hcl := (h.mem_le (List.mem_append_right above List.mem_cons_self)).2
  constructor
  · intro hd'
    have hle := (h.cut.mem_le hd').1
    have hlen := (h.cut.mem_le hd').2
    omega
  · intro hlt
    induction above generalizing top with
    | nil =>
      rcases List.mem_cons.mp hd with rfl | hd
      · omega
      · exact hd
    | cons e rest ih =>
      rcases List.mem_cons.mp hd with rfl | hd
      · have hc := (h.2.2.mem_le (List.mem_append_right rest List.mem_cons_self)).1
        omega
      · exact ih h.2.2 hd

end Stacked

/-- What the record of a cell holds. -/
def CellRecord (mem : Memory) (chunk : ℕ) (c : Cell) : Prop :=
  LinearAllocatorDetails.prevOffset mem (chunk + c.off) = c.prev + (if c.freed then 2 ^ 31 else 0) ∧
  LinearAllocatorDetails.crc mem (chunk + c.off) = c.prev ^^^ 0x5FEE1299

/-- The link of a record goes to a lower cell; the bottom cell links to itself. -/
def LinkedBelow (cells : List Cell) (c : Cell) : Prop :=
  c.off = 0 ∧ c.prev = 0 ∨ ∃ d ∈ cells, d.off < c.off ∧ c.prev = d.off

/-- The representation of a stack of cells by the allocator's fields and memory. -/
structure CellStack (s : LinearAllocatorDetails) (cells : List Cell) : Prop where
  capacity_le : s.capacity ≤ 2 ^ 31
  current_le : s.current ≤ s.capacity
  stacked : Stacked s.current cells
  records : ∀ c ∈ cells, CellRecord s.mem s.chunk c
  links : ∀ c ∈ cells, LinkedBelow cells c
  previous : cells = [] ∧ s.previous = 0 ∨ ∃ c ∈ cells, s.previous = c.off

namespace CellRecord
open LinearAllocatorDetails
variable {mem mem' : Memory} {chunk : ℕ} {c : Cell}

/-- A record depends on its own eight bytes. -/
theorem congr (h : CellRecord mem chunk c)
    (hm : ∀ x, chunk + c.off ≤ x → x < chunk + c.off + 8 → mem' x = mem x) :
    CellRecord mem' chunk c := by
  have hprev : prevOffset mem' (chunk + c.off) = prevOffset mem (chunk + c.off) :=
    load_congr (fun x hlo hhi => hm x hlo (by omega))
  have hcrc : crc mem' (chunk + c.off) = crc mem (chunk + c.off) :=
    load_congr (fun x hlo hhi => hm x (by omega) (by omega))
  exact ⟨hprev.trans h.1, hcrc.trans h.2⟩

theorem link (h : CellRecord mem chunk c) (hc : c.prev < 2 ^ 31) :
    prevOffset mem (chunk + c.off) &&& 0x7FFFFFFF = c.prev := by
  rw [h.1, land_0x7FFFFFFF]
  split <;> omega

/-- The flag test of the source reads the cell's state. -/
theorem flag (h : CellRecord mem chunk c) (hc : c.prev < 2 ^ 31) :
    prevOffset mem (chunk + c.off) &&& 0x80000000 = 0 ↔ c.freed = false := by
  rw [h.1]
  cases hf : c.freed with
  | false => simpa using land_0x80000000_of_lt hc
  | true => simpa using land_0x80000000_of_flag hc

theorem checksum (h : CellRecord mem chunk c) (hc : c.prev < 2 ^ 31) :
    (prevOffset mem (chunk + c.off) &&& 0x7FFFFFFF) ^^^ 0x5FEE1299 = crc mem (chunk + c.off) := by
  rw [h.link hc, h.2]

/-- Setting the top bit of `PrevOffset` marks the cell and changes nothing else. -/
theorem mark (h : CellRecord mem chunk c) (hc : c.prev < 2 ^ 31) (hf : c.freed = false) :
    CellRecord (store 4 mem (chunk + c.off) (prevOffset mem (chunk + c.off) ||| 0x80000000)) chunk
      { c with freed := true } := by
  have hword : prevOffset mem (chunk + c.off) = c.prev := by simpa [hf] using h.1
  constructor
  · rw [hword, lor_0x80000000 hc]
    exact load_store (by norm_num; omega)
  · exact (load_store_apart (Or.inl le_rfl)).trans h.2

end CellRecord

namespace CellStack
open LinearAllocatorDetails
variable {s : LinearAllocatorDetails} {cells : List Cell} {c d : Cell} {mem' : Memory}

theorem mem_le (h : CellStack s cells) (hc : c ∈ cells) : c.off + c.len ≤ s.current ∧ 8 ≤ c.len :=
  h.stacked.mem_le hc

theorem prev_le_off (h : CellStack s cells) (hc : c ∈ cells) : c.prev ≤ c.off := by
  rcases h.links c hc with ⟨_, hprev⟩ | ⟨d, _, hlt, hprev⟩ <;> omega

theorem off_lt (h : CellStack s cells) (hc : c ∈ cells) : c.off < 2 ^ 31 := by
  have hle := h.mem_le hc
  have hcur := h.current_le
  have hcap := h.capacity_le
  omega

theorem prev_lt (h : CellStack s cells) (hc : c ∈ cells) : c.prev < 2 ^ 31 :=
  (h.prev_le_off hc).trans_lt (h.off_lt hc)

theorem previous_lt (h : CellStack s cells) : s.previous < 2 ^ 31 := by
  rcases h.previous with ⟨_, hprev⟩ | ⟨c, hc, hprev⟩
  · omega
  · exact hprev ▸ h.off_lt hc

theorem of_mem (h : CellStack s cells)
    (hm : ∀ c ∈ cells, ∀ x, s.chunk + c.off ≤ x → x < s.chunk + c.off + 8 → mem' x = s.mem x) :
    CellStack { s with mem := mem' } cells where
  capacity_le := h.capacity_le
  current_le := h.current_le
  stacked := h.stacked
  records := fun c hc => (h.records c hc).congr (hm c hc)
  links := h.links
  previous := h.previous

theorem of_payload (h : CellStack s cells) (mem' : Memory) (hc : c ∈ cells)
    (hm : ∀ x, x < s.chunk + c.off + 8 ∨ s.chunk + c.off + c.len ≤ x → mem' x = s.mem x) :
    CellStack { s with mem := mem' } cells := by
  refine h.of_mem (fun d hd x hlo hhi => hm x ?_)
  have hdl := (h.mem_le hd).2
  rcases h.stacked.eq_or_apart hd hc with rfl | hlt | hlt <;> omega

end CellStack

end LibXpf.Allocators
