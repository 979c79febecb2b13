import Mathlib.Data.List.Nodup
import Mathlib.Logic.Function.Basic

/-! # Singly linked cells

A memory holds cells, and a cell has a value and a pointer to another cell or to none.
A segment lists the cells on the way from one pointer to another one, and a chain those
up to the end. A memory can be shared out between the owners of chains: no cell has two
owners, and none is without one.
-/
namespace LibXpf.LinkedCells

variable {ι γ α κ : Type*} (link : γ → Option ι) (value : γ → α) (mem : ι → Option γ)

/-- The addresses and the values on the way from one pointer to another one. -/
def Segment : Option ι → List (ι × α) → Option ι → Prop
  | p, [], q => p = q
  | p, (a, x) :: rest, q => p = some a ∧ ∃ c, mem a = some c ∧ value c = x ∧ Segment (link c) rest q

def Chain (p : Option ι) (l : List (ι × α)) : Prop := Segment link value mem p l none

def addresses (l : List (ι × α)) : List ι := l.map Prod.fst

def values (l : List (ι × α)) : List α := l.map Prod.snd

theorem values_length (l : List (ι × α)) : (values l).length = l.length := List.length_map ..

theorem values_append (l₁ l₂ : List (ι × α)) : values (l₁ ++ l₂) = values l₁ ++ values l₂ := List.map_append

theorem values_eraseP (r : α → Bool) (l : List (ι × α)) :
    values (l.eraseP (fun y => r y.2)) = (values l).eraseP r :=
  (List.eraseP_map ..).symm

variable {link value mem} {mem' : ι → Option γ} {p q r : Option ι} {l l' l₁ l₂ : List (ι × α)} {a b : ι} {x : α}
  {c : γ}

section Segments

theorem segment_append :
    Segment link value mem p (l₁ ++ l₂) q ↔ ∃ r, Segment link value mem p l₁ r ∧ Segment link value mem r l₂ q := by
  induction l₁ generalizing p with
  | nil => exact ⟨fun h => ⟨p, rfl, h⟩, fun ⟨r, hr, h⟩ => hr ▸ h⟩
  | cons y rest ih =>
    simp only [List.cons_append, Segment, ih]
    constructor
    · rintro ⟨hp, c, hc, hx, r, hrest, hq⟩
      exact ⟨r, ⟨hp, c, hc, hx, hrest⟩, hq⟩
    · rintro ⟨r, ⟨hp, c, hc, hx, hrest⟩, hq⟩
      exact ⟨hp, c, hc, hx, r, hrest, hq⟩

/-- What a segment does not pass may change. -/
theorem Segment.congr (h : Segment link value mem p l q) (hmem : ∀ a ∈ addresses l, mem' a = mem a) :
    Segment link value mem' p l q := by
  induction l generalizing p with
  | nil => exact h
  | cons y rest ih =>
    obtain ⟨hp, c, hc, hx, hrest⟩ := h
    refine ⟨hp, c, ?_, hx, ih hrest (fun a ha => hmem a (List.mem_cons_of_mem _ ha))⟩
    rw [hmem y.1 List.mem_cons_self, hc]

theorem Segment.cell (h : Segment link value mem p l q) (ha : a ∈ addresses l) : ∃ c, mem a = some c := by
  induction l generalizing p with
  | nil => cases ha
  | cons y rest ih =>
    obtain ⟨_, c, hc, _, hrest⟩ := h
    rcases List.mem_cons.mp ha with rfl | ha
    · exact ⟨c, hc⟩
    · exact ih hrest ha

theorem Segment.value_eq (h : Segment link value mem p l q) (ha : (a, x) ∈ l) : ∃ c, mem a = some c ∧ value c = x := by
  induction l generalizing p with
  | nil => cases ha
  | cons y rest ih =>
    obtain ⟨_, c, hc, hx, hrest⟩ := h
    rcases List.mem_cons.mp ha with rfl | ha
    · exact ⟨c, hc, hx⟩
    · exact ih hrest ha

/-- The last cell of a segment is made to point elsewhere. -/
theorem Segment.redirect [DecidableEq ι] (h : Segment link value mem p (l ++ [(a, x)]) r) (ha : a ∉ addresses l)
    (hlink : link c = q) (hvalue : value c = x) :
    Segment link value (Function.update mem a (some c)) p (l ++ [(a, x)]) q := by
  obtain ⟨p', hsegment, rfl, _, _, _, _⟩ := segment_append.mp h
  apply segment_append.mpr
  refine ⟨some a, hsegment.congr ?_, rfl, c, Function.update_self .., hvalue, hlink⟩
  intro b hb
  apply Function.update_of_ne
  rintro rfl
  exact ha hb

end Segments

section Chains

@[simp] theorem chain_none : Chain link value mem none l ↔ l = [] := by
  cases l with
  | nil => exact iff_of_true rfl rfl
  | cons y rest => exact iff_of_false (fun h => by cases h.1) (List.cons_ne_nil _ _)

theorem chain_some :
    Chain link value mem (some a) l ↔
      ∃ c rest, mem a = some c ∧ l = (a, value c) :: rest ∧ Chain link value mem (link c) rest := by
  constructor
  · intro h
    cases l with
    | nil => cases h
    | cons y rest =>
      obtain ⟨hp, c, hc, hx, hrest⟩ := h
      obtain rfl := Option.some.inj hp
      exact ⟨c, rest, hc, by rw [hx], hrest⟩
  · rintro ⟨c, rest, hc, rfl, hrest⟩
    exact ⟨rfl, c, hc, rfl, hrest⟩

theorem Chain.unique (h : Chain link value mem p l) (h' : Chain link value mem p l') : l = l' := by
  induction l generalizing p l' with
  | nil =>
    obtain rfl : p = none := h
    exact (chain_none.mp h').symm
  | cons y rest ih =>
    obtain ⟨rfl, c, hc, hx, hrest⟩ := h
    obtain ⟨c', rest', hc', rfl, hrest'⟩ := chain_some.mp h'
    obtain rfl := Option.some.inj (hc.symm.trans hc')
    rw [ih hrest hrest', hx]

/-- A chain comes to its end, so it does not pass a cell twice. -/
theorem Chain.nodup (h : Chain link value mem p l) : (addresses l).Nodup := by
  induction l generalizing p with
  | nil => exact List.nodup_nil
  | cons y rest ih =>
    obtain ⟨rfl, c, hc, hx, hrest⟩ := h
    refine List.nodup_cons.mpr ⟨fun hmem => ?_, ih hrest⟩
    -- The chain from the cell on would be its own tail.
    obtain ⟨z, hz, heq⟩ := List.mem_map.mp hmem
    obtain ⟨l₁, l₂, rfl⟩ := List.append_of_mem hz
    obtain ⟨r, _, hr, hcell⟩ := segment_append.mp hrest
    have htail : Chain link value mem (some y.1) (z :: l₂) := by
      rw [← heq]
      exact ⟨rfl, hcell⟩
    have hwhole : Chain link value mem (some y.1) (y :: (l₁ ++ z :: l₂)) := ⟨rfl, c, hc, hx, hrest⟩
    have hlength := congrArg List.length (hwhole.unique htail)
    simp only [List.length_cons, List.length_append] at hlength
    omega

theorem Chain.congr (h : Chain link value mem p l) (hmem : ∀ a ∈ addresses l, mem' a = mem a) :
    Chain link value mem' p l :=
  Segment.congr h hmem

/-- A cell is put in front of a chain. -/
theorem Chain.push [DecidableEq ι] (h : Chain link value mem (link c) l) (ha : a ∉ addresses l) :
    Chain link value (Function.update mem a (some c)) (some a) ((a, value c) :: l) := by
  refine ⟨rfl, c, Function.update_self .., rfl, h.congr ?_⟩
  intro b hb
  apply Function.update_of_ne
  rintro rfl
  exact ha hb

end Chains

section Sharing

variable [DecidableEq κ] {heads : κ → Option ι} {chains : κ → List (ι × α)} {j k : κ}

/-- The memory is shared out between chains. -/
structure Shared (link : γ → Option ι) (value : γ → α) (mem : ι → Option γ) (heads : κ → Option ι)
    (chains : κ → List (ι × α)) : Prop where
  chain : ∀ k, Chain link value mem (heads k) (chains k)
  disjoint : ∀ j k, j ≠ k → ∀ a ∈ addresses (chains j), a ∉ addresses (chains k)
  covered : ∀ a c, mem a = some c → ∃ k, a ∈ addresses (chains k)

namespace Shared

omit [DecidableEq κ] in
theorem ne_of_free (h : Shared link value mem heads chains) (ha : mem a = none) : a ∉ addresses (chains k) := by
  intro hmem
  obtain ⟨c, hc⟩ := (h.chain k).cell hmem
  rw [ha] at hc
  cases hc

/-- One owner replaces its chain, with cells that it had or that were free. -/
theorem replace (h : Shared link value mem heads chains) (k : κ) (hchain : Chain link value mem' p l)
    (hframe : ∀ a, a ∉ addresses (chains k) → a ∉ addresses l → mem' a = mem a)
    (hgone : ∀ a ∈ addresses (chains k), a ∉ addresses l → mem' a = none)
    (hnew : ∀ a ∈ addresses l, a ∉ addresses (chains k) → mem a = none) :
    Shared link value mem' (Function.update heads k p) (Function.update chains k l) := by
  have hother : ∀ j, j ≠ k → ∀ a ∈ addresses (chains j), a ∉ addresses (chains k) ∧ a ∉ addresses l := by
    intro j hj a ha
    have hnot := h.disjoint j k hj a ha
    refine ⟨hnot, fun hl => ?_⟩
    exact h.ne_of_free (hnew a hl hnot) ha
  constructor
  · intro j
    by_cases hj : j = k
    · rw [hj, Function.update_self, Function.update_self]
      exact hchain
    · rw [Function.update_of_ne hj, Function.update_of_ne hj]
      exact (h.chain j).congr (fun a ha => hframe a (hother j hj a ha).1 (hother j hj a ha).2)
  · intro i j hij a ha
    by_cases hi : i = k
    · rw [hi, Function.update_self] at ha
      rw [Function.update_of_ne (hi ▸ hij.symm)]
      exact fun hj => (hother j (hi ▸ hij.symm) a hj).2 ha
    · rw [Function.update_of_ne hi] at ha
      by_cases hj : j = k
      · rw [hj, Function.update_self]
        exact (hother i hi a ha).2
      · rw [Function.update_of_ne hj]
        exact h.disjoint i j hij a ha
  · intro a c hc
    by_cases hl : a ∈ addresses l
    · exact ⟨k, by rwa [Function.update_self]⟩
    · by_cases hk : a ∈ addresses (chains k)
      · rw [hgone a hk hl] at hc
        cases hc
      · rw [hframe a hk hl] at hc
        obtain ⟨j, hj⟩ := h.covered a c hc
        refine ⟨j, ?_⟩
        rwa [Function.update_of_ne]
        rintro rfl
        exact hk hj

/-- A chain changes its owner. -/
theorem hand (h : Shared link value mem heads chains) (hjk : j ≠ k) (hk : chains k = []) :
    Shared link value mem (Function.update (Function.update heads k (heads j)) j none)
      (Function.update (Function.update chains k (chains j)) j []) := by
  have hchains : ∀ i, Function.update (Function.update chains k (chains j)) j [] i =
      if i = j then [] else if i = k then chains j else chains i := by
    intro i
    rw [Function.update_apply, Function.update_apply]
  constructor
  · intro i
    rw [hchains, Function.update_apply, Function.update_apply]
    split
    · exact chain_none.mpr rfl
    · split
      · exact h.chain j
      · exact h.chain i
  · intro i i' hne a ha
    rw [hchains] at ha ⊢
    split at ha
    · cases ha
    · next hi =>
      split
      · exact List.not_mem_nil
      · next hi' =>
        split at ha
        · next hik =>
          rw [if_neg (fun heq => hne (hik.trans heq.symm))]
          exact h.disjoint j i' (Ne.symm hi') a ha
        · split
          · exact h.disjoint i j hi a ha
          · exact h.disjoint i i' hne a ha
  · intro a c hc
    obtain ⟨i, hi⟩ := h.covered a c hc
    by_cases hij : i = j
    · exact ⟨k, by rwa [hchains, if_neg (Ne.symm hjk), if_pos rfl, ← hij]⟩
    · refine ⟨i, ?_⟩
      rw [hchains, if_neg hij, if_neg]
      · exact hi
      · rintro rfl
        rw [hk] at hi
        cases hi

end Shared
end Sharing

end LibXpf.LinkedCells
