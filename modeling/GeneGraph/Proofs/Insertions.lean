import GeneGraph.Proofs.Steps
import GeneGraph.Proofs.StoredInterfaces
import GeneGraph.Samples

/-!
# Inserting end points, and sorting them afterwards

A canonical interface can take further end points in two ways: each one is inserted at its slot, or
all are put behind the others and the interface is reordered. Types do not tell where an end point
went, as there may be others of the same type. `Interface.Tracked` keeps the index of each end
point: an insertion moves those at its slot and behind it, and a reordering moves each to the place
that it gives back.

One insertion into the reordered interface is the reordering after one more end point
(`Interface.insert_reorder`, `Interface.place_push`). So both ways refuse the same end point, or end
with the same interface and the same indices (`Interface.insertion_appends_and_sorts`).
-/

namespace GeneGraph

/-! ## The slot in a sorted list -/

theorem insertLast_eq_insertIdx {α κ : Type} [SortKey κ] {key : α → κ} {x : α} {l : List α}
    {m : Nat} (hm : m ≤ l.length)
    (h : ∀ k y, l[k]? = some y → (m ≤ k ↔ Before (key x) (key y))) :
    insertLast key x l = l.insertIdx m x := by
  induction l generalizing m with
  | nil =>
    obtain rfl : m = 0 := Nat.le_zero.mp hm
    rfl
  | cons y l ih =>
    have hy := h 0 y rfl
    rw [insertLast]
    by_cases hxy : Before (key x) (key y)
    · obtain rfl : m = 0 := Nat.le_zero.mp (hy.mpr hxy)
      rw [if_pos hxy]
      rfl
    · cases m with
      | zero => exact absurd (hy.mp (Nat.le_refl 0)) hxy
      | succ m =>
        have hl : ∀ k z, l[k]? = some z → (m ≤ k ↔ Before (key x) (key z)) := fun k z hz => by
          rw [← h (k + 1) z hz, Nat.succ_le_succ_iff]
        rw [if_neg hxy, List.insertIdx_succ_cons, ih (Nat.le_of_succ_le_succ hm) hl]

namespace Interface

variable {i i' c c' : Interface} {e x : Ept} {k l m : Nat}

/-- The slot is directly behind the last end point of the type, if there is one. -/
theorem get?_pred_slot (hc : c.isCanonical = true) (he : e ∈ c.epts) :
    ∃ k, c.slot e = k + 1 ∧ c.get? k = some e := by
  obtain ⟨m, hm⟩ := List.mem_iff_getElem?.mp he
  have hlt : m < c.slot e :=
    Nat.lt_of_not_le fun hle => Before.irrefl _ ((slot_le_iff hc hm).mp hle)
  obtain ⟨k, hk⟩ := Nat.exists_eq_succ_of_ne_zero (Nat.ne_zero_of_lt hlt)
  have hklt : k < c.length := by
    have := c.slot_le e
    omega
  obtain ⟨x, hx⟩ := Option.isSome_iff_exists.mp (get?_isSome_iff.mpr hklt)
  -- what stands there neither comes after the type nor before the end point at `m`
  have hafter : ¬ Before e x := fun hb => by
    have := (slot_le_iff hc hx).mpr hb
    omega
  have hbefore : ¬ Before x e := not_before_of_le hc (by omega) hm hx
  exact ⟨k, hk, by rw [hx, eq_of_not_before hbefore hafter]⟩

/-! ## One more end point -/

/-- In sorted order a further end point is at its slot. -/
theorem sorted_push (h : i.push e = .ok i') :
    i'.sorted = i.sorted.insertIdx (i.reorder.slot e) (e, i.length) := by
  have hlength : i.sorted.length = i.reorder.length := (List.length_map ..).symm
  have hsorted : i'.sorted = insertLast Prod.fst (e, i.length) i.sorted := by
    rw [sorted, push_ok h, List.zipIdx_append, stableSort, List.foldl_append, Nat.zero_add]
    rfl
  rw [hsorted]
  refine insertLast_eq_insertIdx (hlength ▸ slot_le ..) fun k y hy => ?_
  refine slot_le_iff i.reorder_isCanonical ?_
  show (i.sorted.map Prod.fst)[k]? = _
  rw [List.getElem?_map, hy, Option.map_some]

theorem order_push (h : i.push e = .ok i') :
    i'.order = i.order.insertIdx (i.reorder.slot e) i.length := by
  rw [order, sorted_push h, List.map_insertIdx]
  rfl

/-- Inserting into the reordered interface is reordering with one more end point. -/
theorem insert_reorder (i : Interface) (e : Ept) :
    i.reorder.insert e = (i.push e).map reorder := by
  have helements : i.reorder.elements = i.elements := elementsOf_perm i.sorted_perm
  by_cases hle : i.elements + e.length ≤ maxElements
  · obtain ⟨i', hpush⟩ := push_total hle
    obtain ⟨c, hinsert⟩ := insert_total (helements ▸ hle)
    have hc : c = i'.reorder := by
      refine ext ?_
      rw [insert_ok hinsert]
      show _ = i'.sorted.map Prod.fst
      rw [sorted_push hpush, List.map_insertIdx]
      rfl
    rw [hinsert, hpush, hc]
    rfl
  · have hpush : i.push e = .error (.overflow (i.elements + e.length)) := dif_neg hle
    have hinsert : i.reorder.insert e = .error (.overflow (i.reorder.elements + e.length)) :=
      dif_neg (helements ▸ hle)
    rw [hinsert, hpush, helements]
    rfl

theorem place_eq_of_order (h : i.order[m]? = some k) : i.place k = m := by
  obtain ⟨hlt, rfl⟩ := List.getElem?_eq_some_iff.mp h
  exact place_getElem_order hlt

/-- The old end points go where the insertion moves them. -/
theorem place_push (h : i.push e = .ok i') (hk : k < i.length) :
    i'.place k = i.reorder.shift e (i.place k) := by
  refine place_eq_of_order ?_
  rw [order_push h, getElem?_insertIdx_shift]
  exact getElem?_order_place hk

/-- The new end point goes to the slot. -/
theorem place_push_length (h : i.push e = .ok i') : i'.place i.length = i.reorder.slot e := by
  refine place_eq_of_order ?_
  rw [order_push h, List.getElem?_insertIdx_self, if_pos]
  rw [length_order, ← length_reorder]
  exact slot_le ..

/-! ## The places of a reordering -/

/-- `i'` has at the index `p[k]` the end point that `i` has at `k`, and end points of equal type
are in the same order in both. -/
structure Rearranges (p : List Nat) (i i' : Interface) : Prop where
  perm : p.Perm (List.range i.length)
  get?_eq : ∀ k m, p[k]? = some m → i'.get? m = i.get? k
  ordered : ∀ k l e m n, k < l → i.get? k = some e → i.get? l = some e →
    p[k]? = some m → p[l]? = some n → m < n

theorem places_eq (i : Interface) : i.places = (List.range i.length).map i.place :=
  List.map_congr_left fun _ hk => (place_of_lt (List.mem_range.mp hk)).symm

theorem places_perm (i : Interface) : i.places.Perm (List.range i.length) := by
  rw [places_eq]
  refine List.Subperm.perm_of_length_le (List.subperm_of_subset ?_ fun m hm => ?_) ?_
  · exact List.nodup_range.map i.place_injective
  · obtain ⟨k, hk, rfl⟩ := List.mem_map.mp hm
    exact List.mem_range.mpr (place_lt_iff.mpr (List.mem_range.mp hk))
  · exact Nat.le_of_eq (List.length_map ..).symm

theorem getElem?_places_iff : i.places[k]? = some m ↔ k < i.length ∧ i.place k = m := by
  by_cases hk : k < i.length
  · rw [getElem?_places_eq_some hk, Option.some.injEq, and_iff_right hk]
  · refine iff_of_false (fun h => hk ?_) fun h => hk h.1
    obtain ⟨hlt, -⟩ := List.getElem?_eq_some_iff.mp h
    rwa [i.places_perm.length_eq, List.length_range] at hlt

theorem reorder_rearranges (i : Interface) : Rearranges i.places i i.reorder where
  perm := i.places_perm
  get?_eq k m hm := by
    obtain ⟨-, rfl⟩ := getElem?_places_iff.mp hm
    exact i.get?_reorder_place k
  ordered k l e m n hkl hk hl hm hn := by
    obtain ⟨-, rfl⟩ := getElem?_places_iff.mp hm
    obtain ⟨-, rfl⟩ := getElem?_places_iff.mp hn
    exact Precedes.place_lt ⟨e, e, hk, hl, Or.inr ⟨rfl, hkl⟩⟩

/-! ## Following the end points -/

/-- An interface and the index of each of its end points, in the order in which they came. -/
structure Tracked where
  interface : Interface
  indices : List Nat
  deriving DecidableEq

namespace Tracked

variable {t t' : Tracked}

def start (i : Interface) : Tracked := ⟨i, List.range i.length⟩

/-- The end points at the slot and behind it move up by one. -/
def insert (t : Tracked) (e : Ept) : Except GraphError Tracked := do
  let i ← t.interface.insert e
  return ⟨i, t.indices.map (t.interface.shift e) ++ [t.interface.slot e]⟩

def push (t : Tracked) (e : Ept) : Except GraphError Tracked := do
  let i ← t.interface.push e
  return ⟨i, t.indices ++ [t.interface.length]⟩

/-- Each end point moves to its place. -/
def reorder (t : Tracked) : Tracked := ⟨t.interface.reorder, t.indices.map t.interface.place⟩

/-- Adds end points one after the other. An error comes with the types that are left, the refused
one first. -/
def addEach (add : Tracked → Ept → Except GraphError Tracked) (t : Tracked) :
    List Ept → Except (List Ept × GraphError) Tracked
  | [] => .ok t
  | e :: es =>
    match add t e with
    | .ok t' => addEach add t' es
    | .error err => .error (e :: es, err)

theorem reorder_start (hc : c.isCanonical = true) : (start c).reorder = start c := by
  have hplace : c.place = id := funext (place_of_canonical hc)
  rw [reorder, start, reorder_of_canonical hc, hplace, List.map_id]

/-- Inserting after a reordering is reordering with one more end point, for each end point. -/
theorem insert_reorder (ht : ∀ k ∈ t.indices, k < t.interface.length) (e : Ept) :
    t.reorder.insert e = (t.push e).map reorder := by
  obtain ⟨i, indices⟩ := t
  unfold insert push
  show (i.reorder.insert e >>= _) = _
  rw [Interface.insert_reorder]
  cases hpush : i.push e with
  | error err => rfl
  | ok i' =>
    have hold : (indices.map i.place).map (i.reorder.shift e) = indices.map i'.place := by
      rw [List.map_map]
      exact List.map_congr_left fun k hk => (place_push hpush (ht k hk)).symm
    show Except.ok (Tracked.mk i'.reorder
      ((indices.map i.place).map (i.reorder.shift e) ++ [i.reorder.slot e])) =
        .ok (Tracked.mk i'.reorder ((indices ++ [i.length]).map i'.place))
    rw [hold, List.map_append, List.map_singleton, place_push_length hpush]

/-- The end points are those of `c` and behind them some others, all where they came in. -/
structure Appended (c : Interface) (es : List Ept) (t : Tracked) : Prop where
  epts_eq : t.interface.epts = c.epts ++ es
  indices_eq : t.indices = List.range t.interface.length

theorem Appended.push {es : List Ept} (ht : Appended c es t) (h : t.push e = .ok t') :
    Appended c (es ++ [e]) t' := by
  obtain ⟨i, hpush, h⟩ := bind_eq_ok.mp h
  cases h
  have hepts := push_ok hpush
  have hlength : i.length = t.interface.length + 1 := by
    rw [length, hepts, List.length_append]
    rfl
  refine ⟨?_, ?_⟩
  · rw [hepts, ht.epts_eq, List.append_assoc]
  · show t.indices ++ [t.interface.length] = _
    rw [ht.indices_eq, hlength, List.range_succ]

theorem Appended.lt {es : List Ept} (ht : Appended c es t) :
    ∀ k ∈ t.indices, k < t.interface.length := by
  rw [ht.indices_eq]
  exact fun k hk => List.mem_range.mp hk

/-- Inserting end points one by one into the reordered interface is reordering with all of them. -/
theorem addEach_insert {es : List Ept} (ht : Appended c es t) (l : List Ept) :
    addEach insert t.reorder l = (addEach push t l).map reorder := by
  induction l generalizing t es with
  | nil => rfl
  | cons e l ih =>
    rw [addEach, addEach, insert_reorder ht.lt]
    cases hpush : t.push e with
    | error err => rfl
    | ok t' => exact ih (ht.push hpush)

theorem addEach_push {es l : List Ept} (ht : Appended c es t)
    (h : addEach push t l = .ok t') : Appended c (es ++ l) t' := by
  induction l generalizing t es with
  | nil =>
    cases h
    rwa [List.append_nil]
  | cons e l ih =>
    rw [addEach] at h
    split at h
    · rename_i t₁ hpush
      have := ih (ht.push hpush) h
      rwa [List.append_assoc] at this
    · cases h

theorem appended_start (c : Interface) : Appended c [] (start c) :=
  ⟨(List.append_nil _).symm, rfl⟩

/-- Each index is that of one end point, and the types are those that came in. -/
structure Follows (es : List Ept) (t : Tracked) : Prop where
  perm : t.indices.Perm (List.range t.interface.length)
  types : t.indices.map t.interface.get? = es.map some

theorem Appended.follows {es : List Ept} (ht : Appended c es t) :
    Follows (c.epts ++ es) t.reorder where
  perm := by
    show (t.indices.map t.interface.place).Perm (List.range t.interface.reorder.length)
    rw [ht.indices_eq, ← places_eq, length_reorder]
    exact t.interface.places_perm
  types := by
    show (t.indices.map t.interface.place).map t.interface.reorder.get? = _
    rw [List.map_map, ht.indices_eq, ← ht.epts_eq]
    refine List.ext_getElem? fun k => ?_
    rw [List.getElem?_map, List.getElem?_map]
    by_cases hk : k < t.interface.length
    · rw [List.getElem?_range hk, Option.map_some, Function.comp_apply, get?_reorder_place, get?,
        List.getElem?_eq_getElem hk]
      rfl
    · have hle : t.interface.epts.length ≤ k := Nat.le_of_not_lt hk
      rw [List.getElem?_eq_none hle, List.getElem?_eq_none]
      · rfl
      · rwa [List.length_range]

end Tracked

/-! ## Both ways agree -/

/-- `c'` has another end point of type `e` at the index `m`, behind all others of its type and
directly behind the last one of them. -/
structure Lands (c : Interface) (e : Ept) (m : Nat) (c' : Interface) : Prop where
  canonical : c'.isCanonical = true
  epts_eq : c'.epts = c.epts.insertIdx m e
  behind : ∀ k, c.get? k = some e → k < m
  directly : e ∈ c.epts → ∃ k, m = k + 1 ∧ c.get? k = some e

theorem insert_lands (hc : c.isCanonical = true) (h : c.insert e = .ok c') :
    Lands c e (c.slot e) c' where
  canonical := insert_isCanonical hc h
  epts_eq := insert_ok h
  behind _ hk := Nat.lt_of_not_le fun hle => Before.irrefl _ ((slot_le_iff hc hk).mp hle)
  directly := get?_pred_slot hc

/-- After any operations the number that is stored is that of the elements, which are not too many,
and an operation that fails changes nothing that is stored. Inserting types one by one into a
canonical interface and appending them all before a reordering stop at the same type, or leave each
end point at the same index. A new end point lands directly behind the last one of its type, and a
reordering gives back where each end point went. -/
theorem insertion_appends_and_sorts :
    (∀ xs : List Operation,
      run Stored.perform .empty xs = (run operate .empty xs).map id stored ∧
      (run Stored.perform .empty xs).2.count = elementsOf (run Stored.perform .empty xs).2.epts ∧
      (run Stored.perform .empty xs).2.count ≤ maxElements) ∧
    (∀ (s s' : Stored) (x : Operation) (err : GraphError),
      (Stored.perform x).outcome s = (.error err, s') → s' = s) ∧
    (∀ (c : Interface) (l : List Ept), c.isCanonical = true →
      Tracked.addEach Tracked.insert (.start c) l =
        (Tracked.addEach Tracked.push (.start c) l).map Tracked.reorder ∧
      ∀ t, Tracked.addEach Tracked.insert (.start c) l = .ok t →
        t.interface.isCanonical = true ∧ t.Follows (c.epts ++ l)) ∧
    (∀ (c c' : Interface) (e : Ept) (m : Nat), c.isCanonical = true →
      c.perform (.insert e) = .ok (.index m, c') → Lands c e m c') ∧
    ∀ i : Interface, ∃ p i', i.perform .reorder = .ok (.places p, i') ∧
      i'.isCanonical = true ∧ Rearranges p i i' := by
  refine ⟨fun xs => ?_, fun _ _ _ _ => Stored.perform_error, fun c l hc => ?_,
    fun c c' e m hc h => ?_, fun i => ?_⟩
  · have hrun := run_stored xs
    exact ⟨hrun, by rw [hrun]; rfl, by rw [hrun]; exact (run operate .empty xs).2.fits⟩
  · have hboth := Tracked.addEach_insert (Tracked.appended_start c) l
    rw [Tracked.reorder_start hc] at hboth
    refine ⟨hboth, fun t ht => ?_⟩
    rw [hboth] at ht
    cases hpush : Tracked.addEach Tracked.push (.start c) l with
    | error err =>
      rw [hpush] at ht
      cases ht
    | ok t₀ =>
      rw [hpush] at ht
      cases ht
      have happended := Tracked.addEach_push (Tracked.appended_start c) hpush
      exact ⟨reorder_isCanonical _, happended.follows⟩
  · obtain ⟨i', hinsert, h⟩ := bind_eq_ok.mp h
    cases h
    exact insert_lands hc hinsert
  · exact ⟨i.places, i.reorder, rfl, i.reorder_isCanonical, i.reorder_rearranges⟩

/-- An interface of two types in their order. -/
def couple : Interface := (ofList [.plain 0 3, .plain 0 5]).toOption.getD .empty

theorem insertion_appends_and_sorts_couple :
    couple.isCanonical = true ∧
      (∃ t, Tracked.addEach Tracked.insert (.start couple) [.plain 0 5, .plain 0 3] = .ok t ∧
        (Tracked.addEach Tracked.push (.start couple) [.plain 0 5, .plain 0 3]).map
          Tracked.reorder = .ok t ∧
        t.indices = [0, 2, 3, 1]) ∧
      ∃ c', couple.perform (.insert (.plain 0 3)) = .ok (.index 1, c') ∧
        Lands couple (.plain 0 3) 1 c' := by
  have hc : couple.isCanonical = true := by decide +kernel
  obtain ⟨-, -, hboth, hlands, -⟩ := insertion_appends_and_sorts
  have hindices : (Tracked.addEach Tracked.insert (.start couple)
      [.plain 0 5, .plain 0 3]).toOption.map Tracked.indices = some [0, 2, 3, 1] := by
    decide +kernel
  obtain ⟨t, ht, hindices⟩ := toOption_map_eq_some.mp hindices
  have hreply : (couple.perform (.insert (.plain 0 3))).toOption.map Prod.fst =
      some (.index 1) := by decide +kernel
  obtain ⟨⟨reply, c'⟩, hinsert, rfl⟩ := toOption_map_eq_some.mp hreply
  exact ⟨hc, ⟨t, ht, (hboth _ _ hc).1.symm.trans ht, hindices⟩, c', hinsert,
    hlands _ _ _ _ hc hinsert⟩

end Interface

end GeneGraph
