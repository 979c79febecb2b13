import LibXpf.Delegate.Delegate
import Mathlib.Data.List.Perm.Subperm

/-! # The nodes of the delegates

Every node belongs to one delegate, or to a temporary one during an operation, and
what a delegate points to is the chain of its nodes. Each function on the heap
comes with the rule of what it does to the chains, whether or not a copy throws.
-/
namespace LibXpf.Delegate
open LinkedCells

variable {F : Type} {h h' : Heap F} {p pp last : Option ℕ} {l l' l₁ l₂ : List (ℕ × F)} {a d fuel : ℕ} {f : F}
  {same : F → F → Bool}

theorem ok_bind {α β : Type} (x : α) (k : α → Except Fault β) : (Except.ok x >>= k) = k x := rfl

/-- The nodes from a pointer on, the newest first. -/
abbrev Heap.Nodes (h : Heap F) (p : Option ℕ) (l : List (ℕ × F)) : Prop :=
  Chain DelegateImpl.previous DelegateImpl.functor h.node p l

section Reading

theorem read_ok {impl : DelegateImpl F} (hnode : h.node a = some impl) : h.read a = .ok impl := by
  rw [Heap.read, hnode]

theorem delete_ok {impl : DelegateImpl F} (hnode : h.node a = some impl) :
    h.delete a = .ok { h with node := Function.update h.node a none } := by
  rw [Heap.delete, hnode]

theorem free_spec (hnodes : h.Nodes p l) (hfuel : l.length ≤ fuel) :
    Heap.freeDelegateList fuel h p = .ok { h with node := fun a => if a ∈ addresses l then none else h.node a } := by
  induction l generalizing h p fuel with
  | nil =>
    obtain rfl : p = none := hnodes
    cases fuel <;> rfl
  | cons y rest ih =>
    obtain ⟨k, rfl⟩ : ∃ k, fuel = k + 1 := ⟨fuel - 1, by simp only [List.length_cons] at hfuel; omega⟩
    have hnotin := (List.nodup_cons.mp hnodes.nodup).1
    obtain ⟨rfl, impl, himpl, hfunctor, hrest⟩ := hnodes
    rw [Heap.freeDelegateList, read_ok himpl, ok_bind, delete_ok himpl, ok_bind]
    have hrest' : Heap.Nodes { h with node := Function.update h.node y.1 none } impl.previous rest := by
      apply Chain.congr hrest
      intro b hb
      apply Function.update_of_ne
      rintro rfl
      exact hnotin hb
    rw [ih hrest' (by simp only [List.length_cons] at hfuel; omega)]
    congr 2
    funext b
    by_cases hb : b = y.1
    · subst hb
      simp only [Function.update_self, ite_self, addresses, List.map_cons, List.mem_cons, true_or, if_true]
    · simp only [Function.update_of_ne hb, addresses, List.map_cons, List.mem_cons, hb, false_or]

/-- The functors are called from the oldest to the newest. -/
theorem invoke_spec (hnodes : h.Nodes p l) (hfuel : l.length ≤ fuel) :
    h.invokeDelegateList fuel p = .ok (addresses l).reverse := by
  induction l generalizing p fuel with
  | nil =>
    obtain rfl : p = none := hnodes
    cases fuel <;> rfl
  | cons y rest ih =>
    obtain ⟨k, rfl⟩ : ∃ k, fuel = k + 1 := ⟨fuel - 1, by simp only [List.length_cons] at hfuel; omega⟩
    obtain ⟨rfl, impl, himpl, _, hrest⟩ := hnodes
    rw [Heap.invokeDelegateList, read_ok himpl, ok_bind, ih hrest (by simp only [List.length_cons] at hfuel; omega),
      ok_bind, addresses, addresses, List.map_cons, List.reverse_cons]

theorem equals_spec (hnodes : h.Nodes p l) :
    h.equals same p f = .ok (match values l with
      | [g] => same g f
      | _ => false) := by
  cases l with
  | nil =>
    obtain rfl : p = none := hnodes
    rfl
  | cons y rest =>
    obtain ⟨rfl, impl, himpl, hfunctor, hrest⟩ := hnodes
    rw [Heap.equals, read_ok himpl, ok_bind]
    cases rest with
    | nil =>
      rw [show impl.previous = none from hrest, hfunctor]
      rfl
    | cons z rest =>
      rw [hrest.1]
      rfl

theorem isMulticast_spec (hnodes : h.Nodes p l) : h.isMulticast p = .ok (decide (2 ≤ l.length)) := by
  cases l with
  | nil =>
    obtain rfl : p = none := hnodes
    rfl
  | cons y rest =>
    obtain ⟨rfl, impl, himpl, _, hrest⟩ := hnodes
    rw [Heap.isMulticast, read_ok himpl, ok_bind]
    cases rest with
    | nil =>
      rw [show impl.previous = none from hrest]
      rfl
    | cons z rest =>
      rw [hrest.1]
      rfl

/-- The pointer behind a segment is written, which `head` is where the segment is empty. -/
theorem store_spec {head q : Option ℕ} (q' : Option ℕ) (hsegment : Segment DelegateImpl.previous DelegateImpl.functor h.node head l q)
    (hnodup : (addresses l).Nodup) :
    ∃ h' p, h.store head (l.getLast?.map Prod.fst) q' = .ok (h', p) ∧
      Segment DelegateImpl.previous DelegateImpl.functor h'.node p l q' ∧
      (∀ a, a ∉ addresses l → h'.node a = h.node a) ∧ h'.nextNode = h.nextNode ∧ h'.copies = h.copies := by
  rcases List.eq_nil_or_concat l with rfl | ⟨l, ⟨b, x⟩, rfl⟩
  · exact ⟨h, q', rfl, rfl, fun _ _ => rfl, rfl, rfl⟩
  · rw [List.concat_eq_append] at hsegment hnodup ⊢
    have hlast : b ∉ addresses l := by
      rw [addresses, List.map_append, List.nodup_append] at hnodup
      exact fun hb => hnodup.2.2 b hb b (List.mem_singleton.mpr rfl) rfl
    obtain ⟨_, _, rfl, impl, himpl, hfunctor, _⟩ := segment_append.mp hsegment
    refine ⟨⟨Function.update h.node b (some ⟨impl.functor, q'⟩), h.nextNode, h.copies⟩, head, ?_, ?_, ?_, rfl, rfl⟩
    · rw [List.getLast?_append, List.getLast?_singleton]
      change (Heap.read h b >>= _) = _
      rw [read_ok himpl, ok_bind]
    · exact Segment.redirect hsegment hlast rfl hfunctor
    · intro a ha
      apply Function.update_of_ne
      rintro rfl
      exact ha (List.mem_map_of_mem (List.mem_append_right l (List.mem_singleton.mpr rfl)))

end Reading

section Rules

variable {heads : Option ℕ → Option ℕ} {chains : Option ℕ → List (ℕ × F)} {j k : Option ℕ}

/-- The nodes are shared out between the delegates and a temporary one. -/
structure Owns (h : Heap F) (heads : Option ℕ → Option ℕ) (chains : Option ℕ → List (ℕ × F)) : Prop where
  shared : Shared DelegateImpl.previous DelegateImpl.functor h.node heads chains
  fresh : ∀ a, h.nextNode ≤ a → h.node a = none

/-- As many copies succeed. -/
def Affords (copies : Option ℕ) (n : ℕ) : Prop := ∀ c, copies = some c → n ≤ c

instance : (copies : Option ℕ) → (n : ℕ) → Decidable (Affords copies n)
  | none, _ => isTrue (fun _ hc => absurd hc (Option.some_ne_none _).symm)
  | some c, n => decidable_of_iff (n ≤ c) ⟨fun hle _ hc => Option.some.inj hc ▸ hle, fun hall => hall c rfl⟩

abbrev Heap.Affords (h : Heap F) (n : ℕ) : Prop := LibXpf.Delegate.Affords h.copies n

namespace Owns

theorem address_lt (hown : Owns h heads chains) (ha : a ∈ addresses (chains k)) : a < h.nextNode := by
  by_contra hge
  exact hown.shared.ne_of_free (hown.fresh a (Nat.not_lt.mp hge)) ha

theorem length_le (hown : Owns h heads chains) (k : Option ℕ) : (chains k).length ≤ h.nextNode := by
  have hsub : (addresses (chains k)).Subperm (List.range h.nextNode) := by
    apply List.subperm_of_subset (hown.shared.chain k).nodup
    intro a ha
    exact List.mem_range.mpr (hown.address_lt ha)
  have hle := hsub.length_le
  rwa [List.length_range, addresses, List.length_map] at hle

theorem free (hown : Owns h heads chains) (k : Option ℕ) :
    ∃ h', Heap.freeDelegateList h.nextNode h (heads k) = .ok h' ∧ h'.copies = h.copies ∧
      Owns h' (Function.update heads k none) (Function.update chains k []) := by
  refine ⟨_, free_spec (hown.shared.chain k) (hown.length_le k), rfl, ?_, ?_⟩
  · apply hown.shared.replace k (chain_none.mpr rfl)
    · exact fun a ha _ => if_neg ha
    · exact fun a ha _ => if_pos ha
    · exact fun a ha => absurd ha List.not_mem_nil
  · intro a ha
    dsimp only
    split
    · rfl
    · exact hown.fresh a ha

theorem new_ok (hcopies : h.copies ≠ some 0) (f : F) :
    h.new f = some
      ({ node := Function.update h.node h.nextNode (some ⟨f, none⟩)
         nextNode := h.nextNode + 1
         copies := h.copies.map (· - 1) }, h.nextNode) :=
  if_neg hcopies

/-- A node is put behind the oldest one. -/
theorem append (hown : Owns h heads chains) (j : Option ℕ) (hcopies : h.copies ≠ some 0) (f : F) :
    ∃ h₁ h₂ p, h.new f = some (h₁, h.nextNode) ∧
      h₁.store (heads j) ((chains j).getLast?.map Prod.fst) (some h.nextNode) = .ok (h₂, p) ∧
      h₂.copies = h.copies.map (· - 1) ∧ (∀ a, a ∉ addresses (chains j) → a ≠ h.nextNode → h₂.node a = h.node a) ∧
      Owns h₂ (Function.update heads j p) (Function.update chains j (chains j ++ [(h.nextNode, f)])) := by
  have hfree : h.node h.nextNode = none := hown.fresh _ (Nat.le_refl _)
  have hnotin : h.nextNode ∉ addresses (chains j) := hown.shared.ne_of_free hfree
  have hchain := hown.shared.chain j
  have hchain' : Chain DelegateImpl.previous DelegateImpl.functor
      (Function.update h.node h.nextNode (some ⟨f, none⟩)) (heads j) (chains j) := by
    apply hchain.congr
    intro a ha
    apply Function.update_of_ne
    rintro rfl
    exact hnotin ha
  have hmem : ∀ a, a ∈ addresses (chains j ++ [(h.nextNode, f)]) ↔ a ∈ addresses (chains j) ∨ a = h.nextNode := by
    intro a
    rw [addresses, List.map_append, List.mem_append, List.map_singleton, List.mem_singleton]
    rfl
  obtain ⟨h₂, p, hstore, hsegment, hframe, hnext, hcopies₂⟩ :=
    store_spec (h := ⟨_, h.nextNode + 1, h.copies.map (· - 1)⟩) (some h.nextNode) hchain' hchain.nodup
  have hsame : ∀ a, a ∉ addresses (chains j) → a ≠ h.nextNode → h₂.node a = h.node a :=
    fun a ha hne => (hframe a ha).trans (Function.update_of_ne hne ..)
  refine ⟨_, h₂, p, new_ok hcopies f, hstore, hcopies₂, hsame, ?_, ?_⟩
  · apply hown.shared.replace j
    · apply segment_append.mpr
      refine ⟨some h.nextNode, hsegment, rfl, ⟨f, none⟩, ?_, rfl, rfl⟩
      exact (hframe _ hnotin).trans (Function.update_self ..)
    · exact fun a ha hnew => hsame a ha (fun heq => hnew ((hmem a).mpr (.inr heq)))
    · exact fun a ha hnew => absurd ((hmem a).mpr (.inl ha)) hnew
    · intro a ha hnot
      rw [((hmem a).mp ha).resolve_left hnot]
      exact hfree
  · intro a ha
    rw [hnext] at ha
    have hlt : h.nextNode + 1 ≤ a := ha
    have hnone := hown.fresh a (by omega)
    rw [hsame a (hown.shared.ne_of_free hnone) (by omega), hnone]

/-- A node is put in front of the newest one. -/
theorem push (hown : Owns h heads chains) (k : Option ℕ) (hcopies : h.copies ≠ some 0) (f : F) :
    ∃ h', h.add (heads k) f = .ok (h', some (some h.nextNode)) ∧ h'.copies = h.copies.map (· - 1) ∧
      Owns h' (Function.update heads k (some h.nextNode)) (Function.update chains k ((h.nextNode, f) :: chains k)) := by
  have hfree : h.node h.nextNode = none := hown.fresh _ (Nat.le_refl _)
  have hnotin : h.nextNode ∉ addresses (chains k) := hown.shared.ne_of_free hfree
  refine ⟨⟨Function.update h.node h.nextNode (some ⟨f, heads k⟩), h.nextNode + 1, h.copies.map (· - 1)⟩, ?_, rfl, ?_, ?_⟩
  · rw [Heap.add, new_ok hcopies f]
    change (Heap.read _ h.nextNode >>= _) >>= _ = _
    rw [read_ok (Function.update_self ..), ok_bind, ok_bind, Function.update_idem]
  · apply hown.shared.replace k
    · exact Chain.push (hown.shared.chain k) hnotin
    · intro a _ hnew
      apply Function.update_of_ne
      rintro rfl
      exact hnew List.mem_cons_self
    · exact fun a ha hnew => absurd (List.mem_cons_of_mem _ ha) hnew
    · intro a ha hnot
      rw [(List.mem_cons.mp ha).resolve_right hnot]
      exact hfree
  · intro a ha
    have hlt : h.nextNode + 1 ≤ a := ha
    exact (Function.update_of_ne (by omega) ..).trans (hown.fresh a (by omega))

/-- The first functor that is the same is taken out. -/
theorem removeLoop (hown : Owns h heads chains) (same : F → F → Bool) (f : F) {k : Option ℕ} {d : Option ℕ} (hsplit : chains k = l₁ ++ l₂)
    (hsegment : Segment DelegateImpl.previous DelegateImpl.functor h.node (heads k) l₁ d) (hnodes : h.Nodes d l₂)
    (hfuel : l₂.length ≤ fuel) :
    ∃ h' p, h.removeLoop same f fuel (heads k) d (l₁.getLast?.map Prod.fst) =
        .ok (h', p, l₂.any (fun y => same y.2 f)) ∧ h'.copies = h.copies ∧
      Owns h' (Function.update heads k p) (Function.update chains k (l₁ ++ l₂.eraseP (fun y => same y.2 f))) := by
  induction l₂ generalizing l₁ d fuel with
  | nil =>
    obtain rfl : d = none := hnodes
    refine ⟨h, heads k, ?_, rfl, ?_⟩
    · cases fuel <;> rfl
    · rw [List.eraseP_nil, ← hsplit, Function.update_eq_self, Function.update_eq_self]
      exact hown
  | cons y rest ih =>
    obtain ⟨fuel', rfl⟩ : ∃ m, fuel = m + 1 := ⟨fuel - 1, by simp only [List.length_cons] at hfuel; omega⟩
    have hnodup := (hown.shared.chain k).nodup
    rw [hsplit] at hnodup
    obtain ⟨rfl, impl, himpl, hfunctor, hrest⟩ := hnodes
    rw [Heap.removeLoop, read_ok himpl, ok_bind, hfunctor]
    by_cases hsame : same y.2 f = true
    · rw [addresses, List.map_append, List.map_cons] at hnodup
      obtain ⟨hnodup₁, hnodup₂, hdisjoint⟩ := List.nodup_append.mp hnodup
      obtain ⟨hnotrest, _⟩ := List.nodup_cons.mp hnodup₂
      have hnot₁ : y.1 ∉ addresses l₁ := fun hmem => hdisjoint y.1 hmem y.1 List.mem_cons_self rfl
      obtain ⟨h₁, p, hstore, hstored, hframe, hnext, hcopies⟩ := store_spec impl.previous hsegment hnodup₁
      have himpl₁ : h₁.node y.1 = some impl := (hframe _ hnot₁).trans himpl
      rw [if_pos hsame, hstore, ok_bind]
      dsimp only
      rw [delete_ok himpl₁, ok_bind, List.any_cons, hsame, Bool.true_or,
        List.eraseP_cons_of_pos (a := y) (p := fun y => same y.2 f) hsame]
      have hmem : ∀ a, a ∈ addresses (chains k) ↔ a ∈ addresses l₁ ∨ a = y.1 ∨ a ∈ addresses rest := by
        intro a
        rw [hsplit, addresses, List.map_append, List.mem_append, List.map_cons, List.mem_cons]
        rfl
      have hmem' : ∀ a, a ∈ addresses (l₁ ++ rest) ↔ a ∈ addresses l₁ ∨ a ∈ addresses rest := by
        intro a
        rw [addresses, List.map_append, List.mem_append]
        rfl
      refine ⟨_, p, rfl, hcopies, ?_, ?_⟩
      · apply hown.shared.replace k
        · apply segment_append.mpr
          refine ⟨impl.previous, hstored.congr ?_, hrest.congr ?_⟩
          · intro a ha
            apply Function.update_of_ne
            rintro rfl
            exact hnot₁ ha
          · intro a ha
            have hne : a ≠ y.1 := by
              rintro rfl
              exact hnotrest ha
            refine (Function.update_of_ne hne ..).trans (hframe a (fun hmem => ?_))
            exact hdisjoint a hmem a (List.mem_cons_of_mem _ ha) rfl
        · intro a ha _
          rw [hmem, not_or, not_or] at ha
          exact (Function.update_of_ne ha.2.1 ..).trans (hframe a ha.1)
        · intro a ha hgone
          rw [hmem', not_or] at hgone
          have heq := (((hmem a).mp ha).resolve_left hgone.1).resolve_right hgone.2
          rw [heq]
          exact Function.update_self ..
        · exact fun a ha hnot => absurd ((hmem a).mpr (((hmem' a).mp ha).imp_right .inr)) hnot
      · intro a ha
        have hnone := hown.fresh a (hnext ▸ ha)
        by_cases hay : a = y.1
        · rw [hay]
          exact Function.update_self ..
        · refine (Function.update_of_ne hay ..).trans ((hframe a (fun hmem₁ => ?_)).trans hnone)
          exact hown.shared.ne_of_free hnone ((hmem a).mpr (.inl hmem₁))
    · rw [if_neg hsame, List.any_cons, List.eraseP_cons_of_neg (a := y) (p := fun y => same y.2 f) hsame, Bool.eq_false_iff.mpr hsame, Bool.false_or]
      have hsegment' : Segment DelegateImpl.previous DelegateImpl.functor h.node (heads k) (l₁ ++ [y]) impl.previous :=
        segment_append.mpr ⟨some y.1, hsegment, rfl, impl, himpl, hfunctor, rfl⟩
      have hsplit' : chains k = (l₁ ++ [y]) ++ rest := by rw [hsplit, List.append_assoc]; rfl
      have hresult := ih hsplit' hsegment' hrest (Nat.le_of_succ_le_succ hfuel)
      rw [List.getLast?_append, List.getLast?_singleton, List.append_assoc] at hresult
      exact hresult

theorem remove (hown : Owns h heads chains) (same : F → F → Bool) (k : Option ℕ) (f : F) :
    ∃ h' p, h.remove same (heads k) f = .ok (h', p, (values (chains k)).any (same · f)) ∧ h'.copies = h.copies ∧
      Owns h' (Function.update heads k p) (Function.update chains k ((chains k).eraseP (fun y => same y.2 f))) := by
  obtain ⟨h', p, hloop, hcopies, hown'⟩ := hown.removeLoop same f (List.nil_append _).symm rfl
    (hown.shared.chain k) (hown.length_le k)
  refine ⟨h', p, ?_, hcopies, hown'⟩
  rw [values, List.any_map]
  exact hloop

/-- The loop of `CloneDelegateList` has cloned the nodes in front of `list2`. -/
theorem cloneLoop (hown : Owns h heads chains) (hne : j ≠ k) {list2 : Option ℕ} (hsplit : chains k = l₁ ++ l₂)
    (hnodes : h.Nodes list2 l₂) (hcloned : values (chains j) = values l₁) (hfuel : l₂.length ≤ fuel) :
    (h.Affords l₂.length → ∃ h' p l', Heap.cloneLoop fuel h list2 (heads j) ((chains j).getLast?.map Prod.fst) =
        .ok (h', some p) ∧ h'.copies = h.copies.map (· - l₂.length) ∧ values l' = values (chains k) ∧
        Owns h' (Function.update heads j p) (Function.update chains j l')) ∧
      (¬ h.Affords l₂.length → ∃ h', Heap.cloneLoop fuel h list2 (heads j) ((chains j).getLast?.map Prod.fst) =
        .ok (h', none) ∧ Owns h' (Function.update heads j none) (Function.update chains j [])) := by
  induction l₂ generalizing h heads chains l₁ list2 fuel with
  | nil =>
    obtain rfl : list2 = none := hnodes
    refine ⟨fun _ => ?_, fun hnot => absurd (fun _ _ => Nat.zero_le _) hnot⟩
    refine ⟨h, heads j, chains j, ?_, ?_, ?_, ?_⟩
    · cases fuel <;> rfl
    · simp only [List.length_nil, Nat.sub_zero, Option.map_id']
    · rw [hcloned, hsplit, List.append_nil]
    · rwa [Function.update_eq_self, Function.update_eq_self]
  | cons y rest ih =>
    obtain ⟨fuel', rfl⟩ : ∃ m, fuel = m + 1 := ⟨fuel - 1, by simp only [List.length_cons] at hfuel; omega⟩
    obtain ⟨rfl, impl, himpl, hfunctor, hrest⟩ := hnodes
    rw [Heap.cloneLoop, read_ok himpl, ok_bind]
    by_cases hcopies : h.copies = some 0
    · have hnot : ¬ h.Affords (y :: rest).length := fun hafford => Nat.not_succ_le_zero _ (hafford 0 hcopies)
      refine ⟨fun hafford => absurd hafford hnot, fun _ => ?_⟩
      obtain ⟨h', hfree, _, hown'⟩ := hown.free j
      refine ⟨h', ?_, hown'⟩
      rw [Heap.new, if_pos hcopies]
      dsimp only
      rw [hfree, ok_bind]
    · obtain ⟨h₁, h₂, p, hnew, hstore, hcopies₂, hframe, hown₂⟩ := hown.append j hcopies impl.functor
      rw [hnew]
      dsimp only
      rw [hstore, ok_bind]
      dsimp only
      have hmem : ∀ a ∈ addresses (y :: rest), a ∉ addresses (chains j) ∧ a ≠ h.nextNode := by
        intro a ha
        have hk : a ∈ addresses (chains k) := by
          rw [hsplit, addresses, List.map_append]
          exact List.mem_append_right _ ha
        exact ⟨hown.shared.disjoint k j (Ne.symm hne) a hk, Nat.ne_of_lt (hown.address_lt hk)⟩
      have himpl₂ : h₂.node y.1 = some impl :=
        (hframe y.1 (hmem _ List.mem_cons_self).1 (hmem _ List.mem_cons_self).2).trans himpl
      have hrest₂ : h₂.Nodes impl.previous rest := by
        apply Chain.congr hrest
        intro a ha
        have hboth := hmem a (List.mem_cons_of_mem _ ha)
        exact hframe a hboth.1 hboth.2
      have hafford : h.Affords (y :: rest).length ↔ h₂.Affords rest.length := by
        simp only [Affords, hcopies₂, Option.map_eq_some_iff, List.length_cons]
        constructor
        · rintro hall _ ⟨c, hc, rfl⟩
          have hle := hall c hc
          omega
        · intro hall c hc
          have hle := hall (c - 1) ⟨c, hc, rfl⟩
          have hpos : c ≠ 0 := fun hzero => hcopies (hzero ▸ hc)
          omega
      have hsplit₂ : Function.update chains j (chains j ++ [(h.nextNode, impl.functor)]) k = (l₁ ++ [y]) ++ rest := by
        rw [Function.update_of_ne (Ne.symm hne), hsplit, List.append_assoc]
        rfl
      have hcloned₂ : values (Function.update chains j (chains j ++ [(h.nextNode, impl.functor)]) j) =
          values (l₁ ++ [y]) := by
        rw [Function.update_self, values_append, values_append, hcloned, hfunctor]
        rfl
      have hrun := ih hown₂ hsplit₂ hrest₂ hcloned₂ (Nat.le_of_succ_le_succ hfuel)
      rw [Function.update_self, Function.update_self, List.getLast?_append, List.getLast?_singleton,
        Function.update_idem, Function.update_of_ne (Ne.symm hne)] at hrun
      rw [read_ok himpl₂, ok_bind, hafford]
      refine ⟨fun haff => ?_, fun hnot => ?_⟩
      · obtain ⟨h', p', l', hloop, hcopies', hvalues, hown'⟩ := hrun.1 haff
        refine ⟨h', p', l', hloop, ?_, hvalues, ?_⟩
        · rw [hcopies', hcopies₂, Option.map_map]
          congr 1
          funext c
          simp only [Function.comp_apply, List.length_cons]
          omega
        · rwa [Function.update_idem, Function.update_idem] at hown'
      · obtain ⟨h', hloop, hown'⟩ := hrun.2 hnot
        exact ⟨h', hloop, by rwa [Function.update_idem] at hown'⟩

theorem head_none (hown : Owns h heads chains) (hnil : chains j = []) : heads j = none := by
  have hchain := hown.shared.chain j
  rw [hnil] at hchain
  exact hchain

end Owns

/-- An operation gives a delegate the functors `fs`, or it throws and leaves every delegate as it
was. Which of both it does is up to the number of copies that succeed. -/
structure Yields (h : Heap F) (heads : Option ℕ → Option ℕ) (chains : Option ℕ → List (ℕ × F)) (k : Option ℕ)
    (cost : ℕ) (fs : List F) (r : Except Fault (Heap F × Option (Option ℕ))) : Prop where
  succeeds : h.Affords cost → ∃ h' p l, r = .ok (h', some p) ∧ h'.copies = h.copies.map (· - cost) ∧ values l = fs ∧
    Owns h' (Function.update heads k p) (Function.update chains k l)
  throws : ¬ h.Affords cost → ∃ h', r = .ok (h', none) ∧ Owns h' heads chains

theorem affords_add {m n : ℕ} (hcopies : h'.copies = h.copies.map (· - m)) :
    h.Affords (m + n) ↔ h.Affords m ∧ h'.Affords n := by
  simp only [Affords, hcopies, Option.map_eq_some_iff]
  constructor
  · intro hall
    refine ⟨fun c hc => ?_, ?_⟩
    · have hle := hall c hc
      omega
    · rintro _ ⟨c, hc, rfl⟩
      have hle := hall c hc
      omega
  · rintro ⟨hall, hall'⟩ c hc
    have hle := hall c hc
    have hle' := hall' (c - m) ⟨c, hc, rfl⟩
    omega

theorem copies_add {m n : ℕ} (hcopies : h'.copies = h.copies.map (· - m)) {h'' : Heap F}
    (hcopies' : h''.copies = h'.copies.map (· - n)) : h''.copies = h.copies.map (· - (m + n)) := by
  rw [hcopies', hcopies, Option.map_map]
  congr 1
  funext c
  exact Nat.sub_sub c m n

/-- What follows an operation costs what is left of the copies. -/
theorem Yields.after {m n : ℕ} {fs : List F} {r : Except Fault (Heap F × Option (Option ℕ))}
    (hyields : Yields h' heads chains j n fs r) (hafford : h.Affords m) (hcopies : h'.copies = h.copies.map (· - m)) :
    Yields h heads chains j (m + n) fs r where
  succeeds haff := by
    obtain ⟨h'', p, l, hr, hcopies', hrest⟩ := hyields.succeeds ((affords_add hcopies).mp haff).2
    exact ⟨h'', p, l, hr, copies_add hcopies hcopies', hrest⟩
  throws hnot := hyields.throws (fun haff => hnot ((affords_add hcopies).mpr ⟨hafford, haff⟩))

namespace Owns

theorem add (hown : Owns h heads chains) (k : Option ℕ) (f : F) :
    Yields h heads chains k 1 (f :: values (chains k)) (h.add (heads k) f) where
  succeeds hafford := by
    obtain ⟨h', hadd, hcopies, hown'⟩ := hown.push k (fun hzero => Nat.not_succ_le_zero 0 (hafford 0 hzero)) f
    exact ⟨h', _, _, hadd, hcopies, rfl, hown'⟩
  throws hnot := by
    refine ⟨h, ?_, hown⟩
    have hzero : h.copies = some 0 := by
      simp only [Affords, not_forall, Nat.not_le, Nat.lt_one_iff] at hnot
      obtain ⟨c, hc, rfl⟩ := hnot
      exact hc
    rw [Heap.add, Heap.new, if_pos hzero]

/-- Nothing is made for an owner that has no functor to begin with. -/
theorem empty (hown : Owns h heads chains) (hnil : chains j = []) :
    Yields h heads chains j 0 [] (.ok (h, some none)) where
  succeeds _ := by
    refine ⟨h, none, [], rfl, ?_, rfl, ?_⟩
    · simp only [Nat.sub_zero, Option.map_id']
    · rwa [Function.update_eq_self_iff.mpr (hown.head_none hnil).symm, Function.update_eq_self_iff.mpr hnil.symm]
  throws hnot := absurd (fun _ _ => Nat.zero_le _) hnot

/-- A list is cloned to an owner that has none. -/
theorem clone (hown : Owns h heads chains) (hnil : chains j = []) (hne : j ≠ k) :
    Yields h heads chains j (chains k).length (values (chains k)) (h.cloneDelegateList (heads k)) := by
  have hnone := hown.head_none hnil
  obtain ⟨hsucceeds, hthrows⟩ := hown.cloneLoop hne (List.nil_append _).symm (hown.shared.chain k) (by rw [hnil])
    (hown.length_le k)
  rw [hnone, hnil] at hsucceeds hthrows
  constructor
  · exact hsucceeds
  · intro hnot
    obtain ⟨h', hloop, hown'⟩ := hthrows hnot
    rw [← hnone, Function.update_eq_self, ← hnil, Function.update_eq_self] at hown'
    exact ⟨h', hloop, hown'⟩

theorem free_none (fuel : ℕ) (h : Heap F) : Heap.freeDelegateList fuel h none = .ok h := by
  cases fuel <;> rfl

/-- A delegate is made from another one. -/
theorem copy (hown : Owns h heads chains) (hnil : chains j = []) (hne : j ≠ k) :
    Yields h heads chains j (chains k).length (values (chains k)) (h.assignDelegate none (heads k)) where
  succeeds hafford := by
    obtain ⟨h', p, l, hclone, hrest⟩ := (hown.clone hnil hne).succeeds hafford
    refine ⟨h', p, l, ?_, hrest⟩
    rw [Heap.assignDelegate, hclone, ok_bind]
    dsimp only
    rw [free_none, ok_bind]
  throws hnot := by
    obtain ⟨h', hclone, hown'⟩ := (hown.clone hnil hne).throws hnot
    exact ⟨h', by rw [Heap.assignDelegate, hclone, ok_bind], hown'⟩

/-- What was made for nobody replaces the list of a delegate. -/
theorem replaced (hown : Owns h heads chains) (hnone : chains none = []) (hk : k ≠ none)
    (hmade : Owns h' (Function.update heads none p) (Function.update chains none l)) :
    ∃ h'', Heap.freeDelegateList h'.nextNode h' (heads k) = .ok h'' ∧ h''.copies = h'.copies ∧
      Owns h'' (Function.update heads k p) (Function.update chains k l) := by
  obtain ⟨h'', hfree, hcopies, hfreed⟩ := hmade.free k
  rw [Function.update_of_ne hk] at hfree
  refine ⟨h'', hfree, hcopies, ?_, hfreed.fresh⟩
  have hhand := hfreed.shared.hand (j := none) (k := k) (Ne.symm hk) (Function.update_self ..)
  have hupdate : ∀ {β : Type} (g : Option ℕ → β) (x y z : β), g none = z → Function.update (Function.update
      (Function.update (Function.update g none x) k y) k (Function.update (Function.update g none x) k y none))
        none z = Function.update g k x := by
    intro β g x y z hz
    funext i
    by_cases hi : i = none
    · rw [hi, Function.update_self, Function.update_of_ne (Ne.symm hk), hz]
    · by_cases hik : i = k
      · rw [hik, Function.update_of_ne hk, Function.update_self, Function.update_self,
          Function.update_of_ne (Ne.symm hk), Function.update_self]
      · rw [Function.update_of_ne hi, Function.update_of_ne hik, Function.update_of_ne hik, Function.update_of_ne hi,
          Function.update_of_ne hik]
  rwa [hupdate heads p none none (hown.head_none hnone), hupdate chains l [] [] hnone] at hhand

theorem assign (hown : Owns h heads chains) (hnone : chains none = []) (hk : k ≠ none) (f : F) :
    Yields h heads chains k 1 [f] (h.assign (heads k) f) where
  succeeds hafford := by
    have hcopies : h.copies ≠ some 0 := fun hzero => Nat.not_succ_le_zero 0 (hafford 0 hzero)
    obtain ⟨h₁, h₂, p, hnew, hstore, hcopies₂, _, hown₂⟩ := hown.append none hcopies f
    rw [hnone, hown.head_none hnone] at hstore
    obtain ⟨rfl, rfl⟩ := Prod.mk.inj (Except.ok.inj hstore)
    rw [hnone, List.nil_append] at hown₂
    obtain ⟨h', hfree, hcopies', hown'⟩ := hown.replaced hnone hk hown₂
    refine ⟨h', _, _, ?_, by rw [hcopies', hcopies₂], rfl, hown'⟩
    rw [Heap.assign, hnew]
    dsimp only
    rw [hfree, ok_bind]
  throws hnot := by
    refine ⟨h, ?_, hown⟩
    have hzero : h.copies = some 0 := by
      simp only [Affords, not_forall, Nat.not_le, Nat.lt_one_iff] at hnot
      obtain ⟨c, hc, rfl⟩ := hnot
      exact hc
    rw [Heap.assign, Heap.new, if_pos hzero]

theorem assignDelegate (hown : Owns h heads chains) (hnone : chains none = []) (hj : j ≠ none) (hk : k ≠ none) :
    Yields h heads chains j (chains k).length (values (chains k)) (h.assignDelegate (heads j) (heads k)) where
  succeeds hafford := by
    obtain ⟨h₁, p, l, hclone, hcopies, hvalues, hown₁⟩ := (hown.clone hnone (Ne.symm hk)).succeeds hafford
    obtain ⟨h', hfree, hcopies', hown'⟩ := hown.replaced hnone hj hown₁
    refine ⟨h', p, l, ?_, hcopies'.trans hcopies, hvalues, hown'⟩
    rw [Heap.assignDelegate, hclone, ok_bind]
    dsimp only
    rw [hfree, ok_bind]
  throws hnot := by
    obtain ⟨h', hclone, hown'⟩ := (hown.clone hnone (Ne.symm hk)).throws hnot
    exact ⟨h', by rw [Heap.assignDelegate, hclone, ok_bind], hown'⟩

/-- A temporary delegate is destroyed. -/
theorem dropped (hown : Owns h heads chains) (hnone : chains none = [])
    (hmade : Owns h' (Function.update heads none p) (Function.update chains none l)) :
    ∃ h'', Heap.freeDelegateList h'.nextNode h' p = .ok h'' ∧ h''.copies = h'.copies ∧ Owns h'' heads chains := by
  obtain ⟨h'', hfree, hcopies, hfreed⟩ := hmade.free none
  rw [Function.update_self] at hfree
  rw [Function.update_idem, Function.update_idem, Function.update_eq_self_iff.mpr (hown.head_none hnone).symm,
    Function.update_eq_self_iff.mpr hnone.symm] at hfreed
  exact ⟨h'', hfree, hcopies, hfreed⟩

/-- A temporary delegate is copied to the owner of the result and destroyed, whether or not
the copy throws. -/
theorem returned (hown : Owns h heads chains) (hnone : chains none = []) (hj : j ≠ none) (hnil : chains j = [])
    (hmade : Owns h' (Function.update heads none p) (Function.update chains none l)) :
    Yields h' heads chains j l.length (values l) (h'.returned p) := by
  have hcopy := hmade.copy (j := j) (k := none) (by rwa [Function.update_of_ne hj]) hj
  rw [Function.update_self, Function.update_self] at hcopy
  constructor
  · intro hafford
    obtain ⟨h₁, p₁, l₁, hassign, hcopies, hvalues, hown₁⟩ := hcopy.succeeds hafford
    obtain ⟨h'', hfree, hcopies', hown'⟩ := hown₁.free none
    rw [Function.update_of_ne (Ne.symm hj), Function.update_self] at hfree
    have hheads : Function.update heads none none = heads :=
      Function.update_eq_self_iff.mpr (hown.head_none hnone).symm
    have hchains : Function.update chains none [] = chains := Function.update_eq_self_iff.mpr hnone.symm
    rw [Function.update_comm hj, Function.update_comm hj, Function.update_idem, Function.update_idem, hheads,
      hchains] at hown'
    refine ⟨h'', p₁, l₁, ?_, hcopies'.trans hcopies, hvalues, hown'⟩
    rw [Heap.returned, hassign, ok_bind]
    dsimp only
    rw [hfree, ok_bind]
  · intro hnot
    obtain ⟨h₁, hassign, hown₁⟩ := hcopy.throws hnot
    obtain ⟨h'', hfree, _, hown'⟩ := hown.dropped hnone hown₁
    refine ⟨h'', ?_, hown'⟩
    rw [Heap.returned, hassign, ok_bind]
    dsimp only
    rw [hfree, ok_bind]

/-- The temporary delegate is gone, whether or not the result could be made of it. -/
theorem plus (hown : Owns h heads chains) (hnone : chains none = []) (hj : j ≠ none) (hnil : chains j = [])
    (hk : k ≠ none) (f : F) :
    Yields h heads chains j ((chains k).length + (1 + ((chains k).length + 1))) (f :: values (chains k))
      (h.plus (heads k) f) := by
  have hcopy := hown.copy hnone (Ne.symm hk)
  by_cases hafford : h.Affords (chains k).length
  · obtain ⟨h₁, p, l, hassign, hcopies, hvalues, hown₁⟩ := hcopy.succeeds hafford
    refine Yields.after ?_ hafford hcopies
    rw [Heap.plus, hassign, ok_bind]
    dsimp only
    have hlength : (chains k).length = l.length := by rw [← values_length, ← hvalues, values_length]
    have hsum := hown₁.add none f
    rw [Function.update_self, Function.update_self] at hsum
    rw [hlength, ← hvalues]
    by_cases hone : h₁.Affords 1
    · obtain ⟨h₂, p₂, l₂, hadd, hcopies₂, hvalues₂, hown₂⟩ := hsum.succeeds hone
      rw [Function.update_idem, Function.update_idem] at hown₂
      refine Yields.after ?_ hone hcopies₂
      rw [hadd, ok_bind]
      dsimp only
      have hlength₂ : l.length + 1 = l₂.length := by rw [← values_length l₂, hvalues₂, List.length_cons, values_length]
      rw [hlength₂, ← hvalues₂]
      exact hown.returned hnone hj hnil hown₂
    · obtain ⟨h₂, hadd, hown₂⟩ := hsum.throws hone
      obtain ⟨h₃, hfree, _, hown₃⟩ := hown.dropped hnone hown₂
      rw [hadd, ok_bind]
      dsimp only
      rw [hfree, ok_bind]
      refine ⟨fun haff => absurd (fun c hc => ?_) hone, fun _ => ⟨h₃, rfl, hown₃⟩⟩
      have hle := haff c hc
      omega
  · obtain ⟨h₁, hassign, hown₁⟩ := hcopy.throws hafford
    rw [Heap.plus, hassign, ok_bind]
    refine ⟨fun haff => absurd (fun c hc => ?_) hafford, fun _ => ⟨h₁, rfl, hown₁⟩⟩
    have hle := haff c hc
    omega

theorem minus (hown : Owns h heads chains) (same : F → F → Bool) (hnone : chains none = []) (hj : j ≠ none) (hnil : chains j = [])
    (hk : k ≠ none) (f : F) :
    Yields h heads chains j ((chains k).length + ((values (chains k)).eraseP (same · f)).length)
      ((values (chains k)).eraseP (same · f)) (h.minus same (heads k) f) := by
  have hcopy := hown.copy hnone (Ne.symm hk)
  by_cases hafford : h.Affords (chains k).length
  · obtain ⟨h₁, p, l, hassign, hcopies, hvalues, hown₁⟩ := hcopy.succeeds hafford
    refine Yields.after ?_ hafford hcopies
    obtain ⟨h₂, p₂, hremove, hcopies₂, hown₂⟩ := hown₁.remove same none f
    rw [Function.update_self] at hremove
    rw [Function.update_self, Function.update_idem, Function.update_idem] at hown₂
    have hreturned := hown.returned hnone hj hnil hown₂
    rw [← values_length, values_eraseP (same · f) l, hvalues] at hreturned
    rw [Heap.minus, hassign, ok_bind]
    dsimp only
    rw [hremove, ok_bind]
    have hsame : h₁.copies = h₂.copies := hcopies₂.symm
    constructor
    · intro haff
      obtain ⟨h', p', l', hr, hcopies', hrest⟩ := hreturned.succeeds (by rwa [Heap.Affords, ← hsame])
      exact ⟨h', p', l', hr, by rw [hcopies', hsame], hrest⟩
    · exact fun hnot => hreturned.throws (by rwa [Heap.Affords, ← hsame])
  · obtain ⟨h₁, hassign, hown₁⟩ := hcopy.throws hafford
    rw [Heap.minus, hassign, ok_bind]
    refine ⟨fun haff => absurd (fun c hc => ?_) hafford, fun _ => ⟨h₁, rfl, hown₁⟩⟩
    have hle := haff c hc
    omega

end Owns
end Rules

end LibXpf.Delegate
