import Mathlib.Data.List.Basic
import Mathlib.Tactic.Ring

/-! # Codes written in units

A text is a list of codes, and each code is written as a block of units. A reader
takes one code off the front of a list of units, or refuses. It decodes a list as
far as it can. If it undoes every block it undoes the text. A writer with bounded
room stops before the first block that does not fit.
-/
namespace LibXpf.UnitCodes

variable {α κ : Type*}

/-- A reader: the code at the front and the units behind it. -/
abbrev Next (α κ : Type*) := List α → Option (κ × List α)

/-- A reader consumes units. -/
def Shrinks (next : Next α κ) : Prop := ∀ l c rest, next l = some (c, rest) → rest.length < l.length

def decodeWithin (next : Next α κ) : ℕ → List α → List κ × List α
  | 0, l => ([], l)
  | fuel + 1, l =>
    match next l with
    | none => ([], l)
    | some (c, rest) =>
      let r := decodeWithin next fuel rest
      (c :: r.1, r.2)

/-- The codes a reader takes off one by one, and the units it refuses. -/
def decode (next : Next α κ) (l : List α) : List κ × List α := decodeWithin next l.length l

variable {next : Next α κ} {l rest : List α} {c : κ}

theorem decodeWithin_eq (hs : Shrinks next) {fuel : ℕ} (h : l.length ≤ fuel) :
    decodeWithin next fuel l = decode next l := by
  induction fuel using Nat.strong_induction_on generalizing l with
  | _ fuel ih =>
    cases hnext : next l with
    | none =>
      have hany : ∀ k, decodeWithin next k l = ([], l) := by
        intro k
        cases k with
        | zero => rfl
        | succ k => simp only [decodeWithin, hnext]
      rw [decode, hany, hany]
    | some p =>
      obtain ⟨c, rest⟩ := p
      have hlt := hs l c rest hnext
      obtain ⟨fuel, rfl⟩ : ∃ k, fuel = k + 1 := ⟨fuel - 1, by omega⟩
      obtain ⟨len, hlen⟩ : ∃ k, l.length = k + 1 := ⟨l.length - 1, by omega⟩
      rw [decode, hlen]
      simp only [decodeWithin, hnext]
      rw [ih fuel (by omega) (by omega), ih len (by omega) (by omega)]

theorem decode_none (h : next l = none) : decode next l = ([], l) := by
  rw [decode]
  cases l with
  | nil => rfl
  | cons a l => simp only [List.length_cons, decodeWithin, h]

theorem decode_some (hs : Shrinks next) (h : next l = some (c, rest)) :
    decode next l = (c :: (decode next rest).1, (decode next rest).2) := by
  have hlt := hs l c rest h
  obtain ⟨len, hlen⟩ : ∃ k, l.length = k + 1 := ⟨l.length - 1, by omega⟩
  rw [decode, hlen]
  simp only [decodeWithin, h]
  rw [decodeWithin_eq hs (by omega)]

@[elab_as_elim]
theorem decode_induction (hs : Shrinks next) {motive : List α → Prop}
    (stop : ∀ l, next l = none → motive l)
    (step : ∀ l c rest, next l = some (c, rest) → motive rest → motive l) (l : List α) : motive l := by
  induction hlen : l.length using Nat.strong_induction_on generalizing l with
  | _ len ih =>
    cases h : next l with
    | none => exact stop l h
    | some p =>
      obtain ⟨c, rest⟩ := p
      exact step l c rest h (ih rest.length (hlen ▸ hs l c rest h) rest rfl)

/-- A reader that undoes the blocks of some codes undoes every text of such codes. -/
theorem decode_flatMap (hs : Shrinks next) {units : κ → List α} {cs : List κ} {tail : List α}
    (hread : ∀ c ∈ cs, ∀ rest, next (units c ++ rest) = some (c, rest)) (hstop : next tail = none) :
    decode next (cs.flatMap units ++ tail) = (cs, tail) := by
  induction cs with
  | nil => exact decode_none hstop
  | cons c cs ih =>
    have hrest := ih (fun d hd => hread d (List.mem_cons_of_mem c hd))
    rw [List.flatMap_cons, List.append_assoc, decode_some hs (hread c List.mem_cons_self _), hrest]

theorem decode_length_le (hs : Shrinks next) (l : List α) : (decode next l).1.length ≤ l.length := by
  induction l using decode_induction hs with
  | stop l h =>
    rw [decode_none h]
    exact Nat.zero_le _
  | step l c rest h ih =>
    have hlt := hs l c rest h
    rw [decode_some hs h, List.length_cons]
    omega

/-- What holds of the code of each block holds of the codes decoded. -/
theorem decode_forall (hs : Shrinks next) {P : κ → Prop} (h : ∀ l c rest, next l = some (c, rest) → P c)
    (l : List α) : ∀ c ∈ (decode next l).1, P c := by
  induction l using decode_induction hs with
  | stop l hnone =>
    rw [decode_none hnone]
    exact fun c hc => absurd hc List.not_mem_nil
  | step l c rest hsome ih =>
    rw [decode_some hs hsome]
    intro d hd
    rcases List.mem_cons.mp hd with rfl | hd
    · exact h l d rest hsome
    · exact ih d hd

section Fitting
variable {units : κ → List α} {room : ℕ} {cs p q rest : List κ}

/-- The codes whose blocks are written into some room, one after the other. With no room left nothing
is written, not even an empty block. -/
def fitting (units : κ → List α) : ℕ → List κ → List κ
  | _, [] => []
  | room, c :: cs =>
    if room = 0 ∨ room < (units c).length then []
    else c :: fitting units (room - (units c).length) cs

theorem fitting_starts (units : κ → List α) (room : ℕ) (cs : List κ) : fitting units room cs <+: cs := by
  induction cs generalizing room with
  | nil => exact List.prefix_rfl
  | cons c cs ih =>
    rw [fitting]
    split
    · exact List.nil_prefix
    · exact (List.prefix_cons_inj c).mpr (ih _)

theorem fitting_length_le (units : κ → List α) (room : ℕ) (cs : List κ) :
    ((fitting units room cs).flatMap units).length ≤ room := by
  induction cs generalizing room with
  | nil => exact Nat.zero_le room
  | cons c cs ih =>
    rw [fitting]
    split
    · exact Nat.zero_le room
    · have hrest := ih (room - (units c).length)
      rw [List.flatMap_cons, List.length_append]
      omega

/-- The room is used up, or the next block does not fit. -/
theorem fitting_next (h : cs = fitting units room cs ++ c :: rest) :
    ((fitting units room cs).flatMap units).length = room ∨
      room < ((fitting units room cs ++ [c]).flatMap units).length := by
  induction cs generalizing room with
  | nil => simp [fitting] at h
  | cons d cs ih =>
    rw [fitting] at h ⊢
    split at h
    next hstop =>
      obtain ⟨rfl, rfl⟩ := List.cons.inj h
      rw [if_pos hstop]
      rcases hstop with hzero | hlt
      · exact .inl hzero.symm
      · exact .inr (by simpa using hlt)
    next hgo =>
      rw [if_neg hgo]
      have hrest := ih (List.cons.inj h).2
      simp only [List.cons_append, List.flatMap_cons, List.length_append] at hrest ⊢
      omega

/-- No longer prefix fits, if every block has units. -/
theorem fitting_longest (hunits : ∀ c ∈ cs, units c ≠ []) (hq : q <+: cs)
    (hroom : (q.flatMap units).length ≤ room) : q <+: fitting units room cs := by
  have hfit := fitting_starts units room cs
  rcases List.prefix_or_prefix_of_prefix hq hfit with hshort | hlong
  · exact hshort
  · -- a longer prefix has the code that did not fit
    obtain ⟨more, rfl⟩ := hlong
    cases more with
    | nil => simp
    | cons c more =>
      obtain ⟨rest, hrest⟩ := hq
      have hcs : cs = fitting units room cs ++ c :: (more ++ rest) := by
        rw [← List.cons_append, ← List.append_assoc, hrest]
      have hpos : 0 < (units c).length := by
        refine List.length_pos_iff.mpr (hunits c ?_)
        rw [hcs]
        exact List.mem_append_right _ List.mem_cons_self
      have hnext := fitting_next hcs
      simp only [List.flatMap_append, List.flatMap_cons, List.flatMap_nil, List.append_nil,
        List.length_append] at hnext hroom
      omega

/-- The codes in front of one that starts within the room and ends beyond it. -/
theorem fitting_straddled (hstart : (p.flatMap units).length < room)
    (hend : room < ((p ++ [c]).flatMap units).length) : fitting units room (p ++ c :: rest) = p := by
  induction p generalizing room with
  | nil =>
    rw [List.nil_append, fitting, if_pos]
    exact .inr (by simpa using hend)
  | cons d p ih =>
    simp only [List.cons_append, List.flatMap_cons, List.length_append] at hstart hend
    rw [List.cons_append, fitting, if_neg (by omega), ih (by omega) (by omega)]

theorem fitting_map {ι : Type*} (f : ι → κ) (room : ℕ) (is : List ι) :
    fitting units room (is.map f) = (fitting (fun i => units (f i)) room is).map f := by
  induction is generalizing room with
  | nil => rfl
  | cons i is ih =>
    rw [List.map_cons, fitting, fitting]
    split
    · rfl
    · rw [List.map_cons, ih]

end Fitting

end LibXpf.UnitCodes
