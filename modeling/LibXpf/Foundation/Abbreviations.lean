import Mathlib.Data.List.Basic
import Mathlib.Data.List.Nodup

/-! # Names and their abbreviations

Some entries of a list have names. A given name designates the entry that has it, or else
the only entry whose name starts with it.
-/
namespace LibXpf.Abbreviations

section Designation
variable {α β : Type*} (key : β → Option (List α)) (given : List α)

/-- The entry has the given name, or it is the only one whose name starts with it. -/
def Designates (entries : List β) (x : β) : Prop :=
  x ∈ entries ∧ (key x = some given ∨
    (∀ y ∈ entries, key y ≠ some given) ∧ (∃ name, key x = some name ∧ given <+: name) ∧
      ∀ y ∈ entries, ∀ name, key y = some name → given <+: name → y = x)

variable {key given} {entries entries' : List β} {x y : β}

theorem designates_perm (h : entries.Perm entries') : Designates key given entries x ↔ Designates key given entries' x := by
  simp only [Designates, h.mem_iff]

theorem place_unique (hnames : (entries.filterMap key).Nodup) {i j : ℕ} {name : List α} (hi : entries[i]? = some x)
    (hj : entries[j]? = some y) (hx : key x = some name) (hy : key y = some name) : i = j := by
  rw [List.Nodup, List.pairwise_filterMap, List.pairwise_iff_getElem] at hnames
  obtain ⟨hilt, rfl⟩ := List.getElem?_eq_some_iff.mp hi
  obtain ⟨hjlt, rfl⟩ := List.getElem?_eq_some_iff.mp hj
  rcases Nat.lt_trichotomy i j with hlt | heq | hgt
  · exact absurd rfl (hnames i j hilt hjlt hlt name hx name hy)
  · exact heq
  · exact absurd rfl (hnames j i hjlt hilt hgt name hy name hx)

end Designation

section Hits
variable {α β : Type*} [DecidableEq α] (key : β → Option (List α)) (given : List α)

def abbreviates (x : β) : Bool := (key x).any fun name => given.isPrefixOf name

/-- The entries whose names start with the given one, with their places. -/
def hits (entries : List β) (index : ℕ) : List (β × ℕ) :=
  (entries.zipIdx index).filter fun p => abbreviates key given p.1

variable {key given} {entries rest : List β} {x : β}

theorem abbreviates_iff : abbreviates key given x = true ↔ ∃ name, key x = some name ∧ given <+: name := by
  simp only [abbreviates, Option.any_eq_true, List.isPrefixOf_iff_prefix]

theorem hits_cons (index : ℕ) : hits key given (x :: rest) index =
    if abbreviates key given x then (x, index) :: hits key given rest (index + 1) else hits key given rest (index + 1) := by
  rw [hits, List.zipIdx_cons, List.filter_cons]
  rfl

theorem mem_hits {p : β × ℕ} :
    p ∈ hits key given entries 0 ↔ entries[p.2]? = some p.1 ∧ abbreviates key given p.1 = true := by
  rw [hits, List.mem_filter, List.mem_zipIdx_iff_getElem?]

theorem hits_nodup : (hits key given entries 0).Nodup := by
  have hplaces : (entries.zipIdx.map Prod.snd).Nodup := by
    rw [List.zipIdx_map_snd]
    exact List.nodup_range' _
  exact (hplaces.of_map Prod.snd).filter _

/-- There is one hit if all entries that are hit are the same one. -/
theorem hits_eq_singleton_iff (hnames : (entries.filterMap key).Nodup) (i : ℕ) :
    hits key given entries 0 = [(x, i)] ↔ entries[i]? = some x ∧ (∃ name, key x = some name ∧ given <+: name) ∧
      ∀ y ∈ entries, ∀ name, key y = some name → given <+: name → y = x := by
  rw [← List.perm_singleton, List.perm_ext_iff_of_nodup hits_nodup (List.nodup_singleton _)]
  simp only [List.mem_singleton, mem_hits, abbreviates_iff]
  constructor
  · intro h
    obtain ⟨hi, hx⟩ := (h (x, i)).mpr rfl
    refine ⟨hi, hx, fun y hy name hname hstarts => ?_⟩
    obtain ⟨j, hj⟩ := List.getElem?_of_mem hy
    exact congrArg Prod.fst ((h (y, j)).mp ⟨hj, name, hname, hstarts⟩)
  · rintro ⟨hi, ⟨name, hname, hstarts⟩, honly⟩ ⟨y, j⟩
    constructor
    · rintro ⟨hj, name', hname', hstarts'⟩
      obtain rfl := honly y (List.mem_of_getElem? hj) name' hname' hstarts'
      exact congrArg (Prod.mk y) (place_unique hnames hj hi hname hname)
    · intro heq
      obtain ⟨rfl, rfl⟩ := Prod.mk.inj heq
      exact ⟨hi, name, hname, hstarts⟩

end Hits
end LibXpf.Abbreviations
