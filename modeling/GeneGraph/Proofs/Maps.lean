import GeneGraph.SortedMap
import Mathlib.Data.List.Nodup

/-!
# Look-ups in sorted maps

A map that is written from a list whose keys differ answers with the entries of the list
(`SortedMap.get?_ofList_eq_some_iff`), and the keys of a map are those it has an answer for.
-/

namespace GeneGraph

/-- Ascending lists of the same elements are equal. -/
theorem eq_of_ascending {κ : Type} [SortKey κ] {l l' : List κ} (hl : l.Pairwise Before)
    (hl' : l'.Pairwise Before) (hmem : ∀ k, k ∈ l ↔ k ∈ l') : l = l' := by
  have hperm : l.Perm l' :=
    (List.perm_ext_iff_of_nodup (hl.imp Before.ne) (hl'.imp Before.ne)).mpr hmem
  exact hperm.eq_of_pairwise (fun a b _ _ h h' => absurd h' h.asymm) hl hl'

/-- The first element of an ascending list for which `p` holds depends on these elements only. -/
theorem find?_eq_of_ascending {κ : Type} [SortKey κ] {l l' : List κ} {p : κ → Bool}
    (hl : l.Pairwise Before) (hl' : l'.Pairwise Before)
    (hmem : ∀ k, p k = true → (k ∈ l ↔ k ∈ l')) : l.find? p = l'.find? p := by
  have hfilter : l.filter p = l'.filter p := by
    refine eq_of_ascending (hl.filter p) (hl'.filter p) fun k => ?_
    rw [List.mem_filter, List.mem_filter]
    exact and_congr_left (hmem k)
  rw [← List.head?_filter, hfilter, List.head?_filter]

namespace SortedMap

variable {κ ν : Type} [SortKey κ] [DecidableEq κ] {m : SortedMap κ ν} {l : List (κ × ν)}
  {k : κ} {v : ν}

theorem mem_keys : k ∈ m.keys ↔ (m.get? k).isSome := by
  rw [keys, List.mem_map, Option.isSome_iff_exists]
  constructor
  · rintro ⟨e, he, rfl⟩
    exact ⟨e.2, get?_eq_some_iff.mpr he⟩
  · rintro ⟨v, hv⟩
    exact ⟨(k, v), get?_eq_some_iff.mp hv, rfl⟩

omit [DecidableEq κ] in
theorem pairwise_keys (m : SortedMap κ ν) : m.keys.Pairwise Before := by
  rw [keys, List.pairwise_map]
  exact m.ascending

omit [DecidableEq κ] in
theorem nodup_keys (m : SortedMap κ ν) : m.keys.Nodup := m.pairwise_keys.imp Before.ne

omit [DecidableEq κ] in
/-- A key comes once in the entries of a map. -/
theorem not_mem_before {pre post : List (κ × ν)} {e : κ × ν} (h : m.toList = pre ++ e :: post) :
    e.1 ∉ pre.map Prod.fst := by
  have hnodup := m.nodup_keys
  rw [keys, h, List.map_append, List.map_cons, List.nodup_middle, List.nodup_cons,
    List.mem_append, not_or] at hnodup
  exact hnodup.1.1

/-- Erasing a key that the map does not have changes nothing. -/
theorem erase_of_get?_none (h : m.get? k = none) : m.erase k = m := by
  refine ext fun k' => ?_
  rw [get?_erase]
  split
  · rename_i hk
    rw [hk, h]
  · rfl

omit [DecidableEq κ] in
theorem nodup_toList (m : SortedMap κ ν) : m.toList.Nodup := m.nodup_keys.of_map

/-- An entry and what is left when it is erased are the entries of the map. -/
theorem toList_perm_of_get? (h : m.get? k = some v) :
    m.toList.Perm ((k, v) :: (m.erase k).toList) := by
  have hmem : ∀ e, e ∈ (m.erase k).toList ↔ e ∈ m.toList ∧ e.1 ≠ k := fun e => by
    rw [erase, filter, List.mem_filter, decide_eq_true_eq]
  refine (List.perm_ext_iff_of_nodup m.nodup_toList
    (List.nodup_cons.mpr ⟨fun hk => ((hmem _).mp hk).2 rfl, nodup_toList _⟩)).mpr fun e => ?_
  rw [List.mem_cons, hmem]
  constructor
  · intro he
    by_cases hk : e.1 = k
    · have hv := get?_eq_some_iff.mpr he
      rw [hk, h] at hv
      exact Or.inl (Prod.ext hk (Option.some.inj hv).symm)
    · exact Or.inr ⟨he, hk⟩
  · rintro (rfl | he)
    · exact get?_eq_some_iff.mp h
    · exact he.1

/-- The entries after one is written are this one and those of other keys. -/
theorem toList_insert_perm (m : SortedMap κ ν) (k : κ) (v : ν) :
    (m.insert k v).toList.Perm ((k, v) :: (m.erase k).toList) := by
  have herase : (m.insert k v).erase k = m.erase k := by
    refine ext fun k' => ?_
    rw [get?_erase, get?_erase, get?_insert]
    split <;> rfl
  rw [← herase]
  exact toList_perm_of_get? ((get?_insert m k k v).trans (if_pos rfl))

/-! ## Maps from lists -/

theorem get?_insertAll_of_not_mem (m : SortedMap κ ν) (h : k ∉ l.map Prod.fst) :
    (m.insertAll l).get? k = m.get? k := by
  induction l generalizing m with
  | nil => rfl
  | cons e l ih =>
    rw [List.map_cons, List.mem_cons, not_or] at h
    show ((m.insert e.1 e.2).insertAll l).get? k = m.get? k
    rw [ih _ h.2, get?_insert, if_neg h.1]

theorem get?_insertAll_of_mem (m : SortedMap κ ν) (hl : (l.map Prod.fst).Nodup)
    (h : (k, v) ∈ l) : (m.insertAll l).get? k = some v := by
  induction l generalizing m with
  | nil => cases h
  | cons e l ih =>
    rw [List.map_cons, List.nodup_cons] at hl
    show ((m.insert e.1 e.2).insertAll l).get? k = some v
    rcases List.mem_cons.mp h with rfl | h
    · rw [get?_insertAll_of_not_mem _ hl.1, get?_insert, if_pos rfl]
    · exact ih _ hl.2 h

theorem contains_insertAll (m : SortedMap κ ν) :
    (m.insertAll l).contains k = true ↔ m.contains k = true ∨ k ∈ l.map Prod.fst := by
  induction l generalizing m with
  | nil => simp [insertAll]
  | cons e l ih =>
    show ((m.insert e.1 e.2).insertAll l).contains k = true ↔ _
    rw [ih, contains, get?_insert, List.map_cons, List.mem_cons]
    by_cases hk : k = e.1
    · simp [hk]
    · simp [hk, contains]

/-- A list whose keys differ is what the map written from it answers. -/
theorem get?_ofList_eq_some_iff (hl : (l.map Prod.fst).Nodup) :
    (ofList l).get? k = some v ↔ (k, v) ∈ l := by
  constructor
  · intro h
    by_cases hk : k ∈ l.map Prod.fst
    · obtain ⟨⟨k', w⟩, he, rfl⟩ := List.mem_map.mp hk
      have hw : (ofList l).get? k' = some w := get?_insertAll_of_mem empty hl he
      rw [h, Option.some.injEq] at hw
      exact hw ▸ he
    · have hn : (ofList l).get? k = none := get?_insertAll_of_not_mem empty hk
      rw [h] at hn
      cases hn
  · exact get?_insertAll_of_mem empty hl

/-- A map that is written over another answers first. -/
theorem get?_insertAll_toList (m m' : SortedMap κ ν) (k : κ) :
    (m.insertAll m'.toList).get? k = (m'.get? k).or (m.get? k) := by
  cases h : m'.get? k with
  | some v => exact get?_insertAll_of_mem m m'.nodup_keys (get?_eq_some_iff.mp h)
  | none =>
    have hk : k ∉ m'.keys := fun hk => by
      rw [mem_keys, h] at hk
      cases hk
    exact get?_insertAll_of_not_mem m hk

theorem ofList_toList (m : SortedMap κ ν) : ofList m.toList = m := by
  apply ext
  intro k
  apply Option.ext
  intro v
  rw [get?_ofList_eq_some_iff m.nodup_keys, get?_eq_some_iff]

end SortedMap

end GeneGraph
