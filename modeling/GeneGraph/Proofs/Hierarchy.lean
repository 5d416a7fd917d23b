import GeneGraph.Proofs.Maps
import GeneGraph.Registry
import Mathlib.Logic.Relation

/-!
# The registry as it grows

A registry is asked for a type by its identifier or by its name, for the subtypes of a type, and
for all types in the order of their registration. `Registry.Coherent` says that all these answers
fit together. Each registration keeps it, and so every registry has it (`Registry.coherent`). As
parents are registered before their children, the way up from a type never comes back to it
(`Registry.Coherent.acyclic`).
-/

namespace GeneGraph

/-! ## Look-ups in lists -/

/-- Where no two items have the same key, an item is found by its key. -/
theorem find?_eq_some_iff_of_nodup {α κ : Type} [DecidableEq κ] {key : α → κ} {l : List α}
    (h : (l.map key).Nodup) {k : κ} {x : α} :
    (l.find? fun y => key y = k) = some x ↔ x ∈ l ∧ key x = k := by
  induction l with
  | nil => simp
  | cons y l ih =>
    rw [List.map_cons, List.nodup_cons] at h
    rw [List.find?_cons]
    by_cases hy : key y = k
    · subst hy
      simp only [decide_true, Option.some.injEq, List.mem_cons]
      constructor
      · rintro rfl
        exact ⟨Or.inl rfl, rfl⟩
      · rintro ⟨rfl | hx, hk⟩
        · rfl
        · exact absurd (List.mem_map.mpr ⟨x, hx, hk⟩) h.1
    · simp only [decide_eq_false hy, ih h.2, List.mem_cons]
      refine and_congr_left fun hk => ⟨Or.inr, fun hx => hx.resolve_left ?_⟩
      rintro rfl
      exact hy hk

/-- A key that is not in use can be added. -/
theorem nodup_map_concat {α κ : Type} {key : α → κ} {l : List α} {x : α}
    (h : (l.map key).Nodup) (hx : ∀ y ∈ l, key y ≠ key x) : ((l ++ [x]).map key).Nodup := by
  rw [List.map_append, List.map_singleton]
  refine List.nodup_append.mpr ⟨h, List.nodup_singleton _, fun k hk k' hk' => ?_⟩
  obtain ⟨y, hy, rfl⟩ := List.mem_map.mp hk
  rw [List.mem_singleton.mp hk']
  exact hx y hy

theorem UidSet.contains_ofUids {us : List TypeUid} {u : TypeUid} :
    (UidSet.ofUids us).contains u = true ↔ u ∈ us := by
  rw [UidSet.ofUids, SortedMap.ofList, ← SortedMap.insertAll, SortedMap.contains_insertAll,
    List.map_map]
  simp [SortedMap.contains, Function.comp_def]

theorem UidSet.ext {us vs : UidSet} (h : ∀ u, us.contains u = true ↔ vs.contains u = true) :
    us = vs := by
  refine SortedMap.ext fun u => ?_
  have hu := Bool.eq_iff_iff.mpr (h u)
  unfold SortedMap.contains at hu
  cases hus : us.get? u <;> cases hvs : vs.get? u <;> simp_all

theorem UidSet.contains_insert {us : UidSet} {u v : TypeUid} :
    (us.insert u ()).contains v = true ↔ v = u ∨ us.contains v = true := by
  unfold SortedMap.contains
  rw [SortedMap.get?_insert]
  by_cases hv : v = u <;> simp [hv]

/-- What an admissible definition declares is what its identifier says. -/
theorem Admissible.eq_ofUid {defs : List TypeDef} {d : TypeDef} (h : Admissible defs d) :
    d = .ofUid d.uid d.name d.kind d.parents := by
  obtain ⟨uid, name, kind, parents, arity, origin, inst⟩ := d
  simpa [TypeDef.ofUid] using ⟨h.arity_eq, h.origin_eq, h.inst_eq⟩

namespace Registry

variable {r r' : Registry} {d e : TypeDef} {u p c : TypeUid} {n : String}

/-! ## Registration -/

theorem mem_toList : d ∈ r.toList ↔ d ∈ r.defs := List.mem_reverse

theorem contains_iff : r.contains u = true ↔ ∃ d ∈ r.defs, d.uid = u := by
  simp [contains]

/-- A definition is registered if and only if it is admissible. -/
theorem register_eq_ok_iff :
    r.register d = .ok r' ↔ Admissible r.defs d ∧ r'.defs = d :: r.defs := by
  constructor
  · intro h
    have hdefs : r'.defs = d :: r.defs := by
      unfold register at h
      split_ifs at h
      split at h
      · cases h
      · cases h
        rfl
    have hreg := r'.registered
    rw [hdefs] at hreg
    cases hreg with
    | cons ha _ => exact ⟨ha, hdefs⟩
  · rintro ⟨ha, hdefs⟩
    unfold register
    rw [dif_neg (by have := ha.name_pos; have := ha.name_le; omega),
      dif_neg fun ⟨e, he, hn⟩ => ha.name_fresh e he hn,
      dif_neg fun ⟨e, he, hu⟩ => ha.uid_fresh e he hu, dif_neg (not_not_intro ha.arity_eq),
      dif_neg (not_not_intro ha.origin_eq), dif_neg (not_not_intro ha.inst_eq)]
    split
    · rename_i p hp
      have hunknown : r.contains p = false := by simpa using List.find?_some hp
      have hknown := contains_iff.mpr (ha.parents_known p (List.mem_of_find?_eq_some hp))
      rw [hunknown] at hknown
      cases hknown
    · cases r'
      cases hdefs
      rfl

theorem toList_register (h : r.register d = .ok r') : r'.toList = r.toList ++ [d] := by
  rw [toList, (register_eq_ok_iff.mp h).2, List.reverse_cons]
  rfl

/-- What is admissible does not depend on the order of the definitions. -/
theorem admissible_toList : Admissible r.toList d ↔ Admissible r.defs d := by
  have key : ∀ {l l' : List TypeDef}, (∀ e, e ∈ l ↔ e ∈ l') → Admissible l d → Admissible l' d :=
    fun hmem h =>
      { h with
        name_fresh := fun e he => h.name_fresh e ((hmem e).mpr he)
        uid_fresh := fun e he => h.uid_fresh e ((hmem e).mpr he)
        parents_known := fun p hp =>
          (h.parents_known p hp).imp fun e he => ⟨(hmem e).mp he.1, he.2⟩ }
  exact ⟨key fun _ => mem_toList, key fun _ => mem_toList.symm⟩

theorem admissible_of_register (h : r.register d = .ok r') : Admissible r.toList d :=
  admissible_toList.mpr (register_eq_ok_iff.mp h).1

theorem find?_register (h : r.register d = .ok r') :
    r'.find? u = if d.uid = u then some d else r.find? u := by
  rw [find?, (register_eq_ok_iff.mp h).2, List.find?_cons]
  by_cases hu : d.uid = u
  · simp [hu]
  · simp [hu, find?]

theorem named?_register (h : r.register d = .ok r') :
    r'.named? n = if d.name = n then some d else r.named? n := by
  rw [named?, (register_eq_ok_iff.mp h).2, List.find?_cons]
  by_cases hn : d.name = n
  · simp [hn]
  · simp [hn, named?]

/-- A type gets the new type as a subtype if this one names it as a parent. -/
theorem mem_children_register (h : r.register d = .ok r') :
    (r'.children p).contains c = true ↔
      (r.children p).contains c = true ∨ (d.uid = c ∧ d.parents.contains p = true) := by
  rw [children, children, UidSet.contains_ofUids, UidSet.contains_ofUids,
    (register_eq_ok_iff.mp h).2, List.filter_cons]
  split
  · rename_i hp
    rw [List.map_cons, List.mem_cons, or_comm, eq_comm, and_iff_left hp]
  · rename_i hp
    rw [or_iff_left fun hd => hp hd.2]

/-! ## Coherence -/

theorem find?_eq_some_iff (h : (r.toList.map TypeDef.uid).Nodup) :
    r.find? u = some d ↔ d ∈ r.toList ∧ d.uid = u := by
  rw [mem_toList]
  refine find?_eq_some_iff_of_nodup ?_
  rwa [toList, List.map_reverse, List.nodup_reverse] at h

theorem named?_eq_some_iff (h : (r.toList.map TypeDef.name).Nodup) :
    r.named? n = some d ↔ d ∈ r.toList ∧ d.name = n := by
  rw [mem_toList]
  refine find?_eq_some_iff_of_nodup ?_
  rwa [toList, List.map_reverse, List.nodup_reverse] at h

/-- `p` is a direct supertype of `c`. -/
def Parent (r : Registry) (p c : TypeUid) : Prop :=
  ∃ d, r.find? c = some d ∧ d.parents.contains p = true

/-- The `k`th registered type is `u`. -/
def Listed (r : Registry) (k : Nat) (u : TypeUid) : Prop :=
  (r.toList.map TypeDef.uid)[k]? = some u

/-- The answers of a registry fit together. -/
structure Coherent (r : Registry) : Prop where
  nodup_names : (r.toList.map TypeDef.name).Nodup
  nodup_uids : (r.toList.map TypeDef.uid).Nodup
  find?_iff : ∀ u d, r.find? u = some d ↔ d ∈ r.toList ∧ d.uid = u
  named?_iff : ∀ n d, r.named? n = some d ↔ d ∈ r.toList ∧ d.name = n
  /-- What a definition declares is what its identifier says. -/
  declared : ∀ d ∈ r.toList, d = .ofUid d.uid d.name d.kind d.parents
  children_iff : ∀ p c, (r.children p).contains c = true ↔ r.Parent p c
  /-- Parents are registered first. -/
  parent_listed : ∀ p c k, r.Parent p c → r.Listed k c → ∃ j < k, r.Listed j p

theorem coherent_empty : Coherent .empty where
  nodup_names := List.nodup_nil
  nodup_uids := List.nodup_nil
  find?_iff _ _ := find?_eq_some_iff List.nodup_nil
  named?_iff _ _ := named?_eq_some_iff List.nodup_nil
  declared _ hd := absurd hd List.not_mem_nil
  children_iff p c := by
    rw [children, UidSet.contains_ofUids]
    simp [empty, Parent, find?]
  parent_listed _ _ _ h := by
    obtain ⟨d, hd, -⟩ := h
    cases hd

theorem Coherent.parent_register (hr : r.Coherent) (h : r.register d = .ok r') :
    r'.Parent p c ↔ r.Parent p c ∨ (d.uid = c ∧ d.parents.contains p = true) := by
  unfold Parent
  rw [find?_register h]
  by_cases hc : d.uid = c
  · have hnone : ∀ e, r.find? c ≠ some e := fun e he => by
      obtain ⟨hmem, hu⟩ := (hr.find?_iff c e).mp he
      exact (admissible_of_register h).uid_fresh e hmem (hu.trans hc.symm)
    simp [hc, hnone]
  · simp [hc]

theorem Listed.mono (h : r.register d = .ok r') {k : Nat} (hu : r.Listed k u) : r'.Listed k u := by
  unfold Listed at hu ⊢
  rw [toList_register h, List.map_append]
  exact (List.getElem?_append_left (List.getElem?_eq_some_iff.mp hu).1).trans hu

theorem Listed.of_register (h : r.register d = .ok r') {k : Nat} (hu : r'.Listed k u) :
    r.Listed k u ∨ (k = r.toList.length ∧ d.uid = u) := by
  unfold Listed at hu ⊢
  rw [toList_register h, List.map_append, List.getElem?_append] at hu
  split at hu
  · exact Or.inl hu
  · rename_i hk
    rw [List.length_map] at hk hu
    obtain ⟨hlt, hd⟩ := List.getElem?_eq_some_iff.mp hu
    rw [List.length_map, List.length_singleton] at hlt
    exact Or.inr ⟨by omega, by simpa using hd⟩

/-- Every registered type has a place in the list. -/
theorem exists_listed (h : ∃ e ∈ r.toList, e.uid = u) : ∃ k < r.toList.length, r.Listed k u := by
  obtain ⟨e, he, rfl⟩ := h
  obtain ⟨k, hk⟩ := List.mem_iff_getElem?.mp (List.mem_map_of_mem he)
  have hlt := (List.getElem?_eq_some_iff.mp hk).1
  rw [List.length_map] at hlt
  exact ⟨k, hlt, hk⟩

theorem Listed.exists_def {k : Nat} (h : r.Listed k u) : ∃ e ∈ r.toList, e.uid = u :=
  List.mem_map.mp (List.mem_iff_getElem?.mpr ⟨k, h⟩)

namespace Coherent

/-- Registration keeps a registry coherent. -/
theorem register (hr : r.Coherent) (h : r.register d = .ok r') : r'.Coherent := by
  have ha := admissible_of_register h
  have hlist := toList_register h
  have hnames : (r'.toList.map TypeDef.name).Nodup := by
    rw [hlist]
    exact nodup_map_concat hr.nodup_names ha.name_fresh
  have huids : (r'.toList.map TypeDef.uid).Nodup := by
    rw [hlist]
    exact nodup_map_concat hr.nodup_uids ha.uid_fresh
  refine ⟨hnames, huids, fun _ _ => find?_eq_some_iff huids, fun _ _ => named?_eq_some_iff hnames,
    fun e he => ?_, fun p c => ?_, fun p c k hp hk => ?_⟩
  · rw [hlist, List.mem_append, List.mem_singleton] at he
    rcases he with he | rfl
    · exact hr.declared e he
    · exact ha.eq_ofUid
  · rw [mem_children_register h, hr.parent_register h, hr.children_iff]
  · rcases (hr.parent_register h).mp hp with hold | ⟨rfl, hnew⟩
    · -- the new type is none that had a parent before
      have hlisted : r.Listed k c := (hk.of_register h).resolve_right fun ⟨_, hc⟩ => by
        obtain ⟨e, he, -⟩ := hold
        obtain ⟨hmem, hu⟩ := (hr.find?_iff c e).mp he
        exact ha.uid_fresh e hmem (hu.trans hc.symm)
      obtain ⟨j, hj, hl⟩ := hr.parent_listed p c k hold hlisted
      exact ⟨j, hj, hl.mono h⟩
    · obtain ⟨j, hj, hl⟩ := exists_listed (ha.parents_known p (SortedMap.mem_keys.mpr hnew))
      rcases hk.of_register h with hk | ⟨rfl, -⟩
      · obtain ⟨e, he, hu⟩ := hk.exists_def
        exact absurd hu (ha.uid_fresh e he)
      · exact ⟨j, hj, hl.mono h⟩

/-- A parent is registered. -/
theorem find?_of_parent (hr : r.Coherent) (h : r.Parent p c) : ∃ d, r.find? p = some d := by
  obtain ⟨e, he, -⟩ := id h
  obtain ⟨k, -, hk⟩ := exists_listed ⟨e, (hr.find?_iff c e).mp he⟩
  obtain ⟨j, -, hj⟩ := hr.parent_listed p c k h hk
  obtain ⟨d, hd⟩ := hj.exists_def
  exact ⟨d, (hr.find?_iff p d).mpr hd⟩

/-- Every type above a registered one was registered before it. -/
theorem listed_of_transGen (hr : r.Coherent) {k : Nat} (h : Relation.TransGen r.Parent p c)
    (hk : r.Listed k c) : ∃ j < k, r.Listed j p := by
  induction h generalizing k with
  | single h => exact hr.parent_listed _ _ k h hk
  | tail _ h ih =>
    obtain ⟨j, hj, hl⟩ := hr.parent_listed _ _ k h hk
    obtain ⟨i, hi, hl⟩ := ih hl
    exact ⟨i, Nat.lt_trans hi hj, hl⟩

/-- No type is above itself. -/
theorem acyclic (hr : r.Coherent) (u : TypeUid) : ¬ Relation.TransGen r.Parent u u := by
  intro h
  obtain ⟨p, -, d, hd, -⟩ := Relation.TransGen.tail'_iff.mp h
  obtain ⟨k, -, hk⟩ := exists_listed ⟨d, (hr.find?_iff u d).mp hd⟩
  obtain ⟨j, hj, hl⟩ := hr.listed_of_transGen h hk
  have hlt := (List.getElem?_eq_some_iff.mp hl).1
  exact Nat.ne_of_lt hj ((List.getElem?_inj hlt hr.nodup_uids).mp (hl.trans hk.symm))

end Coherent

/-- Every registry is coherent, as it has grown by registration. -/
theorem coherent (r : Registry) : r.Coherent := by
  obtain ⟨defs, h⟩ := r
  induction h with
  | nil => exact coherent_empty
  | @cons d older ha hold ih =>
    have hok : Registry.register ⟨older, hold⟩ d = .ok ⟨d :: older, .cons ha hold⟩ :=
      register_eq_ok_iff.mpr ⟨ha, rfl⟩
    exact ih.register hok

/-- A new type has no subtypes yet. -/
theorem children_register_self (h : r.register d = .ok r') : r'.children d.uid = .empty := by
  refine UidSet.ext fun c => iff_of_false (fun hc => ?_) Bool.false_ne_true
  have hparent := (r'.coherent.children_iff d.uid c).mp hc
  obtain ⟨e, he, -⟩ := id hparent
  obtain ⟨k, hk, hlisted⟩ := exists_listed ⟨e, (r'.coherent.find?_iff c e).mp he⟩
  -- the type would be registered before the last one, which it is
  obtain ⟨j, hj, hl⟩ := r'.coherent.parent_listed _ _ k hparent hlisted
  rcases hl.of_register h with hold | ⟨rfl, -⟩
  · obtain ⟨e, he, hu⟩ := hold.exists_def
    exact (admissible_of_register h).uid_fresh e he hu
  · rw [toList_register h, List.length_append, List.length_singleton] at hk
    omega

/-- A registered type gets the new type as a subtype if this one names it. -/
theorem children_register (h : r.register d = .ok r') (u : TypeUid) : r'.children u =
    if u ∈ d.parents.keys then (r.children u).insert d.uid () else r.children u := by
  refine UidSet.ext fun c => ?_
  rw [mem_children_register h]
  split
  · rename_i hu
    have hparent : d.parents.contains u = true := SortedMap.mem_keys.mp hu
    rw [UidSet.contains_insert, or_comm, and_iff_left hparent, eq_comm]
  · rename_i hu
    rw [or_iff_left fun hp => hu (SortedMap.mem_keys.mpr hp.2)]

end Registry

end GeneGraph
