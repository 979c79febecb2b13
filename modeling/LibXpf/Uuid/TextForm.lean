import LibXpf.Foundation.Pairs
import LibXpf.Platform
import LibXpf.Uuid.Comparison

/-! # The text form of UUIDs

`fromString` pairs up the hexadecimal digits of its text, and skips everything else. It
keeps the first digit of a pair in a byte that is `0xff` while there is none.
-/
namespace LibXpf.Uuid
open Pairs

section Parsing

/-- The digit that a character stands for. -/
def digit (v : UInt8) : Option UInt8 :=
  if ascii '0' ≤ v ∧ v ≤ ascii '9' then some (v - ascii '0')
  else if ascii 'a' ≤ v ∧ v ≤ ascii 'f' then some (10 + (v - ascii 'a'))
  else if ascii 'A' ≤ v ∧ v ≤ ascii 'F' then some (10 + (v - ascii 'A'))
  else none

/-- The loop of `fromString` over what can be read from `p` on. There is no result if it reads beyond. -/
def fromStringLoop : (p : List UInt8) → (u : Uuid) → (cnt w : UInt8) → Option Uuid
  | [], _, _, _ => none
  | c :: p, u, cnt, w =>
    if h : c ≠ 0 ∧ cnt < 16 then
      match digit c with
      | none => fromStringLoop p u cnt w
      | some v =>
        if w = 0xff then fromStringLoop p u cnt v
        else fromStringLoop p ⟨u.mOctet.set cnt.toNat (w <<< 4 ||| v) (UInt8.lt_iff_toNat_lt.mp h.2)⟩ (cnt + 1) 0xff
    else some u

def null : Uuid := ⟨Vector.replicate 16 0⟩

def fromString (string : List UInt8) : Option Uuid := fromStringLoop string null 0 0xff

end Parsing

section Printing

def map : List UInt8 := chars "0123456789abcdef"

/-- The two characters of an octet. -/
def octetText (c : UInt8) : List UInt8 := [map.getD (c >>> 4).toNat 0, map.getD (c &&& 0xF).toNat 0]

def asString (u : Uuid) : List UInt8 :=
  (List.finRange 16).foldl
    (fun str i => str ++ octetText u.mOctet[i] ++ if i = 3 ∨ i = 5 ∨ i = 7 ∨ i = 9 then chars "-" else []) []

end Printing

section Specification

/-- The value of a hexadecimal digit. -/
def hexValue (c : UInt8) : Option ℕ :=
  if c ∈ chars "0123456789abcdef" then some ((chars "0123456789abcdef").idxOf c)
  else if c ∈ chars "0123456789ABCDEF" then some ((chars "0123456789ABCDEF").idxOf c)
  else none

def octet (p : ℕ × ℕ) : UInt8 := UInt8.ofNat (16 * p.1 + p.2)

/-- The consecutive pairs of hexadecimal digits of a text. -/
def pairedOctets (s : List UInt8) : List UInt8 := (pairs (s.filterMap hexValue)).map octet

/-- The first sixteen pairs, filled up with zeros. -/
def ofText (s : List UInt8) : Uuid := ⟨Vector.ofFn fun i : Fin 16 => (pairedOctets s).getD i 0⟩

/-- The groups of 8, 4, 4, 4 and 12 characters. -/
def grouped (ds : List UInt8) : List UInt8 :=
  ds.take 8 ++ chars "-" ++ (ds.drop 8).take 4 ++ chars "-" ++ (ds.drop 12).take 4 ++ chars "-" ++ (ds.drop 16).take 4 ++
    chars "-" ++ ds.drop 20

/-- A text of 32 small hexadecimal digits in groups. -/
def CanonicalText (t : List UInt8) : Prop :=
  ∃ ds, ds.length = 32 ∧ (∀ c ∈ ds, c ∈ chars "0123456789abcdef") ∧ t = grouped ds

end Specification

section Loop
variable {u : Uuid} {cnt w : UInt8} {s rest : List UInt8} {ds : List ℕ}

theorem digit_eq (c : UInt8) : digit c = (hexValue c).map UInt8.ofNat :=
  forall_byte (P := fun c => digit c = (hexValue c).map UInt8.ofNat) (by decide +kernel) c

theorem hexValue_lt {c : UInt8} {d : ℕ} (h : hexValue c = some d) : d < 16 := by
  rw [hexValue] at h
  split at h
  next hsmall =>
    obtain rfl := Option.some.inj h
    exact List.idxOf_lt_length_of_mem hsmall
  next =>
    split at h
    next hcapital =>
      obtain rfl := Option.some.inj h
      exact List.idxOf_lt_length_of_mem hcapital
    next => cases h

/-- The digit that waits for another one. -/
def pending (w : UInt8) : List ℕ := if w = 0xff then [] else [w.toNat]

/-- A UUID whose octets from `cnt` on are the pairs of some digits, as far as there are any. -/
def filled (u : Uuid) (cnt : ℕ) (ds : List ℕ) : Uuid :=
  ⟨Vector.ofFn fun i : Fin 16 => if i < cnt then u.mOctet[i] else ((pairs ds).map octet).getD (i - cnt) u.mOctet[i]⟩

theorem uuid_ext {a b : Uuid} (h : ∀ i : Fin 16, a.mOctet[i] = b.mOctet[i]) : a = b := by
  cases a
  cases b
  exact congrArg mk (Vector.ext fun i hi => h ⟨i, hi⟩)

theorem filled_get (i : Fin 16) :
    (filled u cnt.toNat ds).mOctet[i] =
      if i < cnt.toNat then u.mOctet[i] else ((pairs ds).map octet).getD (i - cnt.toNat) u.mOctet[i] := by
  simp only [filled, Fin.getElem_fin, Vector.getElem_ofFn]

theorem filled_of_none (h : pairs ds = [] ∨ 16 ≤ cnt.toNat) : filled u cnt.toNat ds = u := by
  refine uuid_ext fun i => ?_
  rw [filled_get]
  rcases h with hnone | hend
  · rw [hnone]
    exact ite_self _
  · exact if_pos (i.isLt.trans_le hend)

theorem filled_pair {a b : ℕ} (h : cnt.toNat < 16) :
    filled u cnt.toNat (a :: b :: ds) = filled ⟨u.mOctet.set cnt.toNat (octet (a, b)) h⟩ (cnt.toNat + 1) ds := by
  refine uuid_ext fun i => ?_
  simp only [filled, Fin.getElem_fin, Vector.getElem_ofFn, pairs, List.map_cons]
  rw [Vector.getElem_set]
  rcases lt_trichotomy i.val cnt.toNat with hlt | heq | hgt
  · rw [if_pos hlt, if_pos (by omega), if_neg hlt.ne']
  · have hfirst : i.val - cnt.toNat = 0 := by omega
    rw [if_neg (by omega), if_pos (by omega), if_pos heq.symm, hfirst]
    rfl
  · obtain ⟨k, hk⟩ : ∃ k, i.val - cnt.toNat = k + 1 := ⟨i.val - cnt.toNat - 1, by omega⟩
    have hnext : i.val - (cnt.toNat + 1) = k := by omega
    rw [if_neg (by omega), if_neg (by omega), if_neg hgt.ne, hk, hnext]
    rfl

theorem octet_eq {a b : ℕ} (ha : a < 16) (hb : b < 16) : UInt8.ofNat a <<< 4 ||| UInt8.ofNat b = octet (a, b) := by
  have hall : ∀ a < 16, ∀ b < 16, UInt8.ofNat a <<< 4 ||| UInt8.ofNat b = octet (a, b) := by decide +kernel
  exact hall a ha b hb

theorem fromStringLoop_eq (hs : 0 ∉ s) (hcnt : cnt.toNat ≤ 16) (hw : w = 0xff ∨ w.toNat < 16) :
    fromStringLoop (s ++ 0 :: rest) u cnt w = some (filled u cnt.toNat (pending w ++ s.filterMap hexValue)) := by
  induction s generalizing u cnt w with
  | nil =>
    have hnone : pairs (pending w ++ List.filterMap hexValue []) = [] := by
      rw [pending]
      split <;> rfl
    rw [filled_of_none (.inl hnone), List.nil_append, fromStringLoop, dif_neg fun h => h.1 rfl]
  | cons c s ih =>
    rw [List.mem_cons, not_or] at hs
    obtain ⟨hc, hs⟩ := hs
    rw [List.cons_append, fromStringLoop]
    by_cases hroom : cnt < 16
    · have hlt : cnt.toNat < 16 := UInt8.lt_iff_toNat_lt.mp hroom
      rw [dif_pos ⟨Ne.symm hc, hroom⟩, digit_eq]
      cases hvalue : hexValue c with
      | none =>
        rw [List.filterMap_cons_none hvalue]
        exact ih hs hcnt hw
      | some d =>
        have hd := hexValue_lt hvalue
        have hbyte : (UInt8.ofNat d).toNat = d := Nat.mod_eq_of_lt (by omega)
        rw [List.filterMap_cons_some hvalue]
        simp only [Option.map_some]
        split
        next hnone =>
          have hpending : pending (UInt8.ofNat d) = [d] := by
            rw [pending, if_neg, hbyte]
            intro h
            have hmax : d = 255 := hbyte.symm.trans (congrArg UInt8.toNat h)
            omega
          rw [ih hs hcnt (.inr (hbyte.trans_lt hd)), hpending, pending, if_pos hnone]
          rfl
        next hsome =>
          have hfirst := hw.resolve_left hsome
          have hoctet : w <<< 4 ||| UInt8.ofNat d = octet (w.toNat, d) := by
            rw [← octet_eq hfirst hd, UInt8.ofNat_toNat]
          have hnext : (cnt + 1).toNat = cnt.toNat + 1 := by
            rw [UInt8.toNat_add]
            exact Nat.mod_eq_of_lt (by change cnt.toNat + 1 < 2 ^ 8; omega)
          rw [ih hs (by omega) (.inl rfl), hnext, pending, pending, if_pos rfl, if_neg hsome]
          simp only [hoctet]
          exact congrArg some (filled_pair hlt).symm
    · have hend : 16 ≤ cnt.toNat := by
        rw [UInt8.lt_iff_toNat_lt] at hroom
        exact Nat.le_of_not_lt hroom
      rw [dif_neg fun h => hroom h.2, filled_of_none (.inr hend)]

/-- `fromString` reads no further than to the null, and pairs up the digits in front of it. -/
theorem fromString_eq (hs : 0 ∉ s) : fromString (s ++ 0 :: rest) = some (ofText s) := by
  rw [fromString, fromStringLoop_eq hs (by decide) (.inl rfl)]
  refine congrArg some (uuid_ext fun i => ?_)
  have hzero : null.mOctet[i] = 0 := Vector.getElem_replicate _
  rw [filled_get, hzero]
  simp only [ofText, Fin.getElem_fin, Vector.getElem_ofFn]
  exact if_neg (Nat.not_lt_zero _)

end Loop

section Texts
variable {u : Uuid} {c : UInt8} {ds : List UInt8}

def octets (u : Uuid) : List UInt8 := (List.finRange 16).map fun i => u.mOctet[i]

/-- The dashes stand between the groups. -/
theorem grouped_flatMap (f g : Fin 16 → UInt8) :
    (List.finRange 16).flatMap (fun i => [f i, g i] ++ if i = 3 ∨ i = 5 ∨ i = 7 ∨ i = 9 then chars "-" else []) =
      grouped ((List.finRange 16).flatMap fun i => [f i, g i]) := by
  have hrange : List.finRange 16 = [0, 1, 2, 3, 4, 5, 6, 7, 8, 9, 10, 11, 12, 13, 14, 15] := by decide
  rw [hrange]
  rfl

theorem asString_eq (u : Uuid) : asString u = grouped (u.octets.flatMap octetText) := by
  rw [octets, List.flatMap_map, asString]
  simp only [List.append_assoc]
  rw [← List.flatMap_eq_foldl]
  exact grouped_flatMap _ _

theorem parts_eq (ds : List UInt8) :
    ds.take 8 ++ (ds.drop 8).take 4 ++ (ds.drop 12).take 4 ++ (ds.drop 16).take 4 ++ ds.drop 20 = ds := by
  have hpart : ∀ n k, (ds.drop n).take k ++ ds.drop (n + k) = ds.drop n := by
    intro n k
    rw [← List.drop_drop, List.take_append_drop]
  simp only [List.append_assoc]
  rw [hpart 16 4, hpart 12 4, hpart 8 4, List.take_append_drop]

/-- The characters of a text in groups are the digits and the dash. -/
theorem mem_grouped (h : c ∈ grouped ds) : c = ascii '-' ∨ c ∈ ds := by
  have hdash : chars "-" = [ascii '-'] := rfl
  have hparts : c ∈ ds ↔ c ∈ ds.take 8 ++ (ds.drop 8).take 4 ++ (ds.drop 12).take 4 ++ (ds.drop 16).take 4 ++ ds.drop 20 := by
    rw [parts_eq]
  rw [hparts]
  simp only [grouped, hdash, List.mem_append, List.mem_singleton] at h ⊢
  tauto

/-- The dashes are skipped. -/
theorem filterMap_grouped (ds : List UInt8) : (grouped ds).filterMap hexValue = ds.filterMap hexValue := by
  have hdash : (chars "-").filterMap hexValue = [] := by decide
  conv_rhs => rw [← parts_eq ds]
  simp only [grouped, List.filterMap_append, hdash, List.append_nil]

theorem octet_values (c : UInt8) : octet (c.toNat / 16, c.toNat % 16) = c := by
  have hvalue : 16 * (c.toNat / 16) + c.toNat % 16 = c.toNat := Nat.div_add_mod _ _
  rw [octet, hvalue, UInt8.ofNat_toNat]

theorem octetText_octet {a b : ℕ} (ha : a < 16) (hb : b < 16) :
    octetText (octet (a, b)) = (unpair (a, b)).map fun d => map.getD d 0 := by
  have hall : ∀ a < 16, ∀ b < 16, octetText (octet (a, b)) = (unpair (a, b)).map fun d => map.getD d 0 := by decide +kernel
  exact hall a ha b hb

theorem octetText_eq (c : UInt8) : octetText c = (unpair (c.toNat / 16, c.toNat % 16)).map fun d => map.getD d 0 := by
  have hlt := c.toNat_lt
  have htext : octetText (octet (c.toNat / 16, c.toNat % 16)) = _ := octetText_octet (by omega) (by omega)
  rwa [octet_values] at htext

theorem octetText_values (c : UInt8) : (octetText c).filterMap hexValue = unpair (c.toNat / 16, c.toNat % 16) := by
  have hdigit : ∀ d < 16, hexValue (map.getD d 0) = some d := by decide +kernel
  have hlt := c.toNat_lt
  rw [octetText_eq, unpair, List.map_cons, List.map_singleton, List.filterMap_cons_some (hdigit _ (by omega)),
    List.filterMap_cons_some (hdigit _ (by omega)), List.filterMap_nil]

theorem pairedOctets_asString (u : Uuid) : pairedOctets (asString u) = u.octets := by
  rw [pairedOctets, asString_eq, filterMap_grouped, List.filterMap_flatMap]
  simp only [octetText_values]
  rw [pairs_flatMap (fun c : UInt8 => (c.toNat / 16, c.toNat % 16)), List.map_map]
  exact (List.map_congr_left fun c _ => octet_values c).trans (List.map_id _)

theorem length_octets (u : Uuid) : u.octets.length = 16 := by
  rw [octets, List.length_map, List.length_finRange]

theorem octets_get (u : Uuid) (i : Fin 16) : u.octets.getD i 0 = u.mOctet[i] := by
  have hlt : i.val < u.octets.length := i.isLt.trans_eq u.length_octets.symm
  rw [List.getD_eq_getElem _ _ hlt]
  simp only [octets, List.getElem_map, List.getElem_finRange]
  rfl

theorem ofText_asString (u : Uuid) : ofText (asString u) = u := by
  refine uuid_ext fun i => ?_
  simp only [ofText, Fin.getElem_fin, Vector.getElem_ofFn, pairedOctets_asString]
  exact octets_get u i

theorem octets_ofText {t : List UInt8} (h : (pairedOctets t).length = 16) : (ofText t).octets = pairedOctets t := by
  refine List.ext_getElem ((length_octets _).trans h.symm) fun i hi hi' => ?_
  simp only [octets, List.getElem_map, List.getElem_finRange, ofText, Fin.getElem_fin, Vector.getElem_ofFn]
  exact List.getD_eq_getElem _ _ hi'

theorem filterMap_small (h : ∀ c ∈ ds, c ∈ map) : ds.filterMap hexValue = ds.map map.idxOf := by
  have hcongr : ds.filterMap hexValue = ds.filterMap (some ∘ map.idxOf) := List.filterMap_congr fun c hc => if_pos (h c hc)
  exact hcongr.trans (congrFun List.filterMap_eq_map ds)

theorem asString_ofText {t : List UInt8} (h : CanonicalText t) : asString (ofText t) = t := by
  obtain ⟨ds, hlen, hsmall, rfl⟩ := h
  have hvalues : (grouped ds).filterMap hexValue = ds.map map.idxOf := (filterMap_grouped ds).trans (filterMap_small hsmall)
  have hpaired : pairedOctets (grouped ds) = (pairs (ds.map map.idxOf)).map octet := by rw [pairedOctets, hvalues]
  have hcount : (pairedOctets (grouped ds)).length = 16 := by
    rw [hpaired, List.length_map, length_pairs, List.length_map, hlen]
  have hvalue : ∀ d ∈ ds.map map.idxOf, d < 16 := by
    intro d hd
    obtain ⟨c, hc, rfl⟩ := List.mem_map.mp hd
    exact List.idxOf_lt_length_of_mem (hsmall c hc)
  have htexts : (pairs (ds.map map.idxOf)).flatMap (fun p => octetText (octet p)) =
      (pairs (ds.map map.idxOf)).flatMap fun p => (unpair p).map fun d => map.getD d 0 :=
    List.flatMap_congr fun p hp => octetText_octet (hvalue _ (mem_pairs hp).1) (hvalue _ (mem_pairs hp).2)
  have hpairs : (pairs (ds.map map.idxOf)).flatMap unpair = ds.map map.idxOf :=
    flatMap_pairs ((List.length_map _).trans (show ds.length = 2 * 16 from hlen))
  have hback : ∀ c ∈ ds, map.getD (map.idxOf c) 0 = c := by
    intro c hc
    have hlt : map.idxOf c < map.length := List.idxOf_lt_length_of_mem (hsmall c hc)
    rw [List.getD_eq_getElem _ _ hlt, List.getElem_idxOf hlt]
  rw [asString_eq, octets_ofText hcount, hpaired, List.flatMap_map, htexts, ← List.map_flatMap, hpairs, List.map_map]
  exact congrArg grouped ((List.map_congr_left hback).trans (List.map_id ds))

theorem notMem_grouped (h : ∀ c ∈ ds, c ∈ map) : 0 ∉ grouped ds := by
  intro hmem
  rcases mem_grouped hmem with hdash | hdigit
  · exact absurd hdash (by decide)
  · exact absurd (h 0 hdigit) (by decide)

theorem octetText_small (c : UInt8) : ∀ d ∈ octetText c, d ∈ map := by
  have hdigit : ∀ d < 16, map.getD d 0 ∈ map := by decide +kernel
  have hlt := c.toNat_lt
  rw [octetText_eq, unpair, List.map_cons, List.map_singleton, List.forall_mem_cons, List.forall_mem_singleton]
  exact ⟨hdigit _ (by omega), hdigit _ (by omega)⟩

theorem notMem_asString (u : Uuid) : 0 ∉ asString u := by
  rw [asString_eq]
  refine notMem_grouped fun d hd => ?_
  obtain ⟨c, -, hc⟩ := List.mem_flatMap.mp hd
  exact octetText_small c d hc

/-- Printing and parsing are inverse to each other, and parsing pairs up the hexadecimal digits. -/
theorem text_form :
    (∀ u : Uuid, ∃ v, fromString (asString u ++ [0]) = some v ∧ v.operatorEq u = true) ∧
      (∀ s rest : List UInt8, 0 ∉ s → fromString (s ++ 0 :: rest) = some (ofText s)) ∧
      ∀ t : List UInt8, CanonicalText t → ∃ v, fromString (t ++ [0]) = some v ∧ asString v = t := by
  refine ⟨fun u => ?_, fun s rest hs => fromString_eq hs, fun t ht => ?_⟩
  · exact ⟨_, fromString_eq (notMem_asString u), operatorEq_iff.mpr (ofText_asString u)⟩
  · have hnull : 0 ∉ t := by
      obtain ⟨ds, -, hsmall, rfl⟩ := ht
      exact notMem_grouped hsmall
    exact ⟨_, fromString_eq hnull, asString_ofText ht⟩

/-- A text with an odd number of digits and other characters, and a text in groups. -/
theorem text_form_sample :
    fromString (chars "f-0g2" ++ 0 :: chars "3") = some (ofText (chars "f-0g2")) ∧
      ∃ v, fromString (chars "0123abcd-0000-4000-8000-00000000000f" ++ [0]) = some v ∧
        asString v = chars "0123abcd-0000-4000-8000-00000000000f" :=
  ⟨text_form.2.1 (chars "f-0g2") (chars "3") (by decide),
    text_form.2.2 (chars "0123abcd-0000-4000-8000-00000000000f")
      ⟨chars "0123abcd00004000800000000000000f", by decide, by decide +kernel, by decide⟩⟩

end Texts
end LibXpf.Uuid
