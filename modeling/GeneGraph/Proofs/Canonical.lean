import GeneGraph.Interface
import Mathlib.Data.List.Basic
import Mathlib.Data.List.Nodup

/-!
# Canonical interfaces

Putting an interface into canonical order moves end point `k` to the place `Interface.place i k`.
The places permute the indices (`place_injective`, `place_lt`), an end point keeps its type
(`get?_reorder_place`), and an interface whose types ascend already stays as it is
(`reorder_of_canonical`, `place_of_canonical`). A new end point goes before exactly those whose
types come after its own (`slot_le_iff`), so the interface stays canonical.
-/

namespace GeneGraph

/-! ## Stable sorting -/

section Sorting

variable {α κ : Type} [SortKey κ] {key : α → κ} {x : α} {l acc : List α}

/-- No item comes before an earlier one. -/
def Ascending (key : α → κ) (l : List α) : Prop :=
  l.Pairwise fun a b => ¬ Before (key b) (key a)

theorem not_before_trans {a b c : κ} (h : ¬ Before b a) (h' : ¬ Before c b) : ¬ Before c a :=
  List.not_lt.mpr (List.le_trans (List.not_lt.mp h) (List.not_lt.mp h'))

theorem mem_insertLast {y : α} : y ∈ insertLast key x l ↔ y = x ∨ y ∈ l := by
  rw [(insertLast_perm key x l).mem_iff, List.mem_cons]

theorem insertLast_ascending (h : Ascending key l) : Ascending key (insertLast key x l) := by
  induction l with
  | nil => exact List.pairwise_singleton _ _
  | cons y ys ih =>
    obtain ⟨hy, hys⟩ := List.pairwise_cons.mp h
    rw [insertLast]
    split
    · rename_i hx
      refine List.pairwise_cons.mpr ⟨fun z hz => ?_, h⟩
      rcases List.mem_cons.mp hz with rfl | hz
      · exact hx.asymm
      · exact not_before_trans hx.asymm (hy z hz)
    · rename_i hx
      refine List.pairwise_cons.mpr ⟨fun z hz => ?_, ih hys⟩
      rcases mem_insertLast.mp hz with rfl | hz
      · exact hx
      · exact hy z hz

theorem foldl_insertLast_ascending (h : Ascending key acc) :
    Ascending key (l.foldl (fun sorted x => insertLast key x sorted) acc) := by
  induction l generalizing acc with
  | nil => exact h
  | cons x l ih => exact ih (insertLast_ascending h)

/-- Sorting puts items in ascending order. -/
theorem stableSort_ascending (key : α → κ) (l : List α) : Ascending key (stableSort key l) :=
  foldl_insertLast_ascending List.Pairwise.nil

/-- `x` comes before `y` in a stable order: its key does, or the keys are equal and `R` holds. -/
def StablyBefore (key : α → κ) (R : α → α → Prop) (x y : α) : Prop :=
  Before (key x) (key y) ∨ key x = key y ∧ R x y

theorem insertLast_stable {R : α → α → Prop} (h : l.Pairwise (StablyBefore key R))
    (hx : ∀ y ∈ l, R y x) : (insertLast key x l).Pairwise (StablyBefore key R) := by
  induction l with
  | nil => exact List.pairwise_singleton _ _
  | cons y ys ih =>
    obtain ⟨hy, hys⟩ := List.pairwise_cons.mp h
    rw [insertLast]
    split
    · rename_i hxy
      refine List.pairwise_cons.mpr ⟨fun z hz => Or.inl ?_, h⟩
      rcases List.mem_cons.mp hz with rfl | hz
      · exact hxy
      · rcases hy z hz with hyz | ⟨hyz, -⟩
        · exact hxy.trans hyz
        · rwa [← hyz]
    · rename_i hxy
      refine List.pairwise_cons.mpr ⟨fun z hz => ?_, ih hys fun z hz =>
        hx z (List.mem_cons_of_mem y hz)⟩
      rcases mem_insertLast.mp hz with rfl | hz
      · by_cases hyz : Before (key y) (key z)
        · exact Or.inl hyz
        · exact Or.inr ⟨eq_of_not_before hyz hxy, hx y List.mem_cons_self⟩
      · exact hy z hz

theorem foldl_insertLast_stable {R : α → α → Prop} (h : acc.Pairwise (StablyBefore key R))
    (hl : l.Pairwise R) (hacc : ∀ y ∈ acc, ∀ x ∈ l, R y x) :
    (l.foldl (fun sorted x => insertLast key x sorted) acc).Pairwise (StablyBefore key R) := by
  induction l generalizing acc with
  | nil => exact h
  | cons x l ih =>
    obtain ⟨hx, hl⟩ := List.pairwise_cons.mp hl
    refine ih (insertLast_stable h fun y hy => hacc y hy x List.mem_cons_self) hl ?_
    intro y hy z hz
    rcases mem_insertLast.mp hy with rfl | hy
    · exact hx z hz
    · exact hacc y hy z (List.mem_cons_of_mem x hz)

/-- Sorting keeps items of equal key in their order. -/
theorem stableSort_stable {R : α → α → Prop} (key : α → κ) (h : l.Pairwise R) :
    (stableSort key l).Pairwise (StablyBefore key R) :=
  foldl_insertLast_stable List.Pairwise.nil h fun _ hy => absurd hy List.not_mem_nil

theorem insertLast_eq_append (h : ∀ y ∈ l, ¬ Before (key x) (key y)) :
    insertLast key x l = l ++ [x] := by
  induction l with
  | nil => rfl
  | cons y ys ih =>
    rw [insertLast, if_neg (h y List.mem_cons_self),
      ih fun z hz => h z (List.mem_cons_of_mem y hz), List.cons_append]

theorem foldl_insertLast_eq_append (h : Ascending key (acc ++ l)) :
    l.foldl (fun sorted x => insertLast key x sorted) acc = acc ++ l := by
  induction l generalizing acc with
  | nil => rw [List.foldl_nil, List.append_nil]
  | cons x l ih =>
    have hx : ∀ y ∈ acc, ¬ Before (key x) (key y) := fun y hy =>
      (List.pairwise_append.mp h).2.2 y hy x List.mem_cons_self
    rw [List.foldl_cons, insertLast_eq_append hx, ih, List.append_assoc, List.singleton_append]
    rwa [List.append_assoc, List.singleton_append]

/-- Items in ascending order stay where they are. -/
theorem stableSort_eq_self (h : Ascending key l) : stableSort key l = l :=
  foldl_insertLast_eq_append h

/-- Sorting by what `f` makes of the items is sorting what `f` makes of them. -/
theorem stableSort_map {β : Type} (f : β → α) (key : α → κ) (l : List β) :
    (stableSort (fun b => key (f b)) l).map f = stableSort key (l.map f) := by
  have hinsert : ∀ (x : β) (acc : List β),
      (insertLast (fun b => key (f b)) x acc).map f = insertLast key (f x) (acc.map f) := by
    intro x acc
    induction acc with
    | nil => rfl
    | cons y ys ih =>
      simp only [insertLast, List.map_cons]
      split
      · rfl
      · rw [List.map_cons, ih]
  have hfold : ∀ acc : List β,
      (l.foldl (fun s x => insertLast (fun b => key (f b)) x s) acc).map f =
        (l.map f).foldl (fun s x => insertLast key x s) (acc.map f) := by
    induction l with
    | nil => exact fun _ => rfl
    | cons x l ih =>
      intro acc
      rw [List.foldl_cons, List.map_cons, List.foldl_cons, ih, hinsert]
  exact hfold []

end Sorting

/-! ## Elements -/

theorem Ept.length_pos (e : Ept) : 0 < e.length := by
  cases e
  simp [Ept.length, Ept.flat]

theorem length_le_elementsOf (l : List Ept) : l.length ≤ elementsOf l := by
  induction l with
  | nil => simp
  | cons e l ih =>
    have := e.length_pos
    simp only [elementsOf, List.length_cons]
    omega

theorem length_le_elementsOf_of_mem {l : List Ept} {e : Ept} (h : e ∈ l) :
    e.length ≤ elementsOf l := by
  induction l with
  | nil => cases h
  | cons d l ih =>
    simp only [elementsOf]
    rcases List.mem_cons.mp h with rfl | h
    · omega
    · have := ih h
      omega

/-- An interface has at most as many end points as it may have elements. -/
theorem Interface.length_le (i : Interface) : i.length ≤ maxElements :=
  Nat.le_trans (length_le_elementsOf i.epts) i.fits

/-! ## Canonical order -/

namespace Interface

variable {i : Interface} {k l : Nat}

theorem ext {i i' : Interface} (h : i.epts = i'.epts) : i = i' := by
  cases i; cases i'; cases h; rfl

theorem get?_isSome_iff : (i.get? k).isSome ↔ k < i.length := by
  rw [get?, length, isSome_getElem?]

theorem isCanonicalList_iff (l : List Ept) : isCanonicalList l = true ↔ Ascending id l := by
  induction l with
  | nil => simp [isCanonicalList, Ascending]
  | cons a l ih =>
    cases l with
    | nil => simp [isCanonicalList, Ascending]
    | cons b rest =>
      rw [isCanonicalList, Bool.and_eq_true, ih, Bool.not_eq_true', decide_eq_false_iff_not]
      unfold Ascending
      rw [List.pairwise_cons (a := a)]
      refine ⟨fun ⟨hb, h⟩ => ⟨fun z hz => ?_, h⟩, fun ⟨ha, h⟩ => ⟨ha b List.mem_cons_self, h⟩⟩
      rcases List.mem_cons.mp hz with rfl | hz
      · exact hb
      · exact not_before_trans hb ((List.pairwise_cons.mp h).1 z hz)

theorem isCanonical_iff : i.isCanonical = true ↔ Ascending id i.epts :=
  isCanonicalList_iff i.epts

theorem sorted_ascending (i : Interface) : Ascending Prod.fst i.sorted :=
  stableSort_ascending _ _

theorem reorder_isCanonical (i : Interface) : i.reorder.isCanonical = true := by
  rw [isCanonical_iff, reorder, Ascending, List.pairwise_map]
  exact i.sorted_ascending

theorem sorted_of_canonical (h : i.isCanonical = true) : i.sorted = i.epts.zipIdx := by
  refine stableSort_eq_self ?_
  rw [isCanonical_iff, Ascending, ← List.zipIdx_map_fst 0 i.epts, List.pairwise_map] at h
  exact h

theorem reorder_of_canonical (h : i.isCanonical = true) : i.reorder = i := by
  refine ext ?_
  show i.sorted.map Prod.fst = i.epts
  rw [sorted_of_canonical h, List.zipIdx_map_fst]

/-! ## Places -/

/-- The place of end point `k` in canonical order; an index past the end stays. -/
def place (i : Interface) (k : Nat) : Nat := i.places[k]?.getD k

/-- The indices in the order of their places. -/
def order (i : Interface) : List Nat := i.sorted.map Prod.snd

theorem order_perm (i : Interface) : i.order.Perm (List.range i.length) := by
  have h := (stableSort_perm Prod.fst i.epts.zipIdx).map Prod.snd
  rwa [List.zipIdx_map_snd, ← List.range_eq_range'] at h

theorem nodup_order (i : Interface) : i.order.Nodup :=
  i.order_perm.nodup_iff.mpr List.nodup_range

theorem length_order (i : Interface) : i.order.length = i.length := by
  rw [i.order_perm.length_eq, List.length_range]

theorem mem_order : k ∈ i.order ↔ k < i.length := by
  rw [i.order_perm.mem_iff, List.mem_range]

theorem length_reorder (i : Interface) : i.reorder.length = i.length :=
  i.sorted_perm.length_eq

theorem getElem?_places (h : k < i.length) : i.places[k]? = some (i.order.idxOf k) := by
  rw [places, List.getElem?_map, List.getElem?_range h]
  rfl

theorem place_of_lt (h : k < i.length) : i.place k = i.order.idxOf k := by
  rw [place, getElem?_places h, Option.getD_some]

theorem place_of_le (h : i.length ≤ k) : i.place k = k := by
  rw [place, List.getElem?_eq_none, Option.getD_none]
  rw [places, List.length_map, List.length_range]
  exact h

theorem getElem?_places_eq_some (h : k < i.length) : i.places[k]? = some (i.place k) := by
  rw [getElem?_places h, place_of_lt h]

theorem place_lt_iff : i.place k < i.length ↔ k < i.length := by
  by_cases h : k < i.length
  · rw [place_of_lt h, ← length_order, List.idxOf_lt_length_iff, mem_order, length_order]
  · rw [place_of_le (Nat.le_of_not_lt h)]

/-- Different end points get different places. -/
theorem place_injective (i : Interface) : Function.Injective i.place := by
  intro k l h
  by_cases hk : k < i.length
  · have hl : l < i.length := by rwa [← place_lt_iff, ← h, place_lt_iff]
    rw [place_of_lt hk, place_of_lt hl] at h
    exact (List.idxOf_inj (mem_order.mpr hk)).mp h
  · have hl : ¬ l < i.length := by rwa [← place_lt_iff, ← h, place_lt_iff]
    rwa [place_of_le (Nat.le_of_not_lt hk), place_of_le (Nat.le_of_not_lt hl)] at h

/-- The end point that is sorted to a place has it for its place. -/
theorem place_getElem_order (h : k < i.order.length) : i.place i.order[k] = k := by
  have hlt : i.order[k] < i.length := mem_order.mp (List.getElem_mem h)
  rw [place_of_lt hlt, i.nodup_order.idxOf_getElem]

/-- Every index is the place of an end point. -/
theorem place_surjective (i : Interface) : Function.Surjective i.place := by
  intro l
  by_cases hl : l < i.length
  · have hlen : l < i.order.length := by rwa [length_order]
    exact ⟨i.order[l], place_getElem_order hlen⟩
  · exact ⟨l, place_of_le (Nat.le_of_not_lt hl)⟩

/-- Items that are listed like the end points go to the places of these when they are sorted by
their types. -/
theorem getElem?_stableSort_place {α : Type} {key : α → Ept} {l : List α}
    (h : l.map key = i.epts) (k : Nat) : (stableSort key l)[i.place k]? = l[k]? := by
  have hlen : l.length = i.length := by rw [length, ← h, List.length_map]
  by_cases hk : k < i.length
  · have hm : i.order.idxOf k < i.order.length := List.idxOf_lt_length_iff.mpr (mem_order.mpr hk)
    have horder : i.order[i.order.idxOf k] = k := List.getElem_idxOf hm
    -- both orders come from sorting the items together with their indices
    generalize hs : stableSort (fun x : α × Nat => key x.1) l.zipIdx = s
    have hindex : i.order = s.map Prod.snd := by
      have hmap := stableSort_map (Prod.map key (id : Nat → Nat)) Prod.fst l.zipIdx
      change (stableSort (fun x : α × Nat => key x.1) l.zipIdx).map _ = _ at hmap
      rw [hs] at hmap
      rw [order, sorted, ← h, List.zipIdx_map, ← hmap, List.map_map]
      rfl
    have hitems : stableSort key l = s.map Prod.fst := by
      rw [← hs, stableSort_map Prod.fst key, List.zipIdx_map_fst]
    have hlt : i.order.idxOf k < s.length := by
      rwa [hindex, List.length_map, ← hindex] at hm
    have hsnd : (s[i.order.idxOf k]).2 = k := by
      simpa only [hindex, List.getElem_map] using horder
    have hmem : s[i.order.idxOf k] ∈ l.zipIdx := by
      rw [← (stableSort_perm (fun x : α × Nat => key x.1) l.zipIdx).mem_iff, hs]
      exact List.getElem_mem hlt
    rw [List.mem_zipIdx_iff_getElem?, hsnd] at hmem
    rw [place_of_lt hk, hmem, hitems, List.getElem?_map, List.getElem?_eq_getElem hlt,
      Option.map_some]
  · have hle : l.length ≤ k := by omega
    rw [place_of_le (Nat.le_of_not_lt hk), List.getElem?_eq_none hle, List.getElem?_eq_none]
    rwa [(stableSort_perm key l).length_eq]

/-- The types in canonical order. -/
theorem epts_reorder (i : Interface) : i.reorder.epts = stableSort id i.epts := by
  have hmap := stableSort_map (Prod.fst : Ept × Nat → Ept) id i.epts.zipIdx
  rwa [List.zipIdx_map_fst] at hmap

/-- An end point keeps its type when it goes to its place. -/
theorem get?_reorder_place (i : Interface) (k : Nat) : i.reorder.get? (i.place k) = i.get? k := by
  rw [get?, epts_reorder]
  exact getElem?_stableSort_place (List.map_id i.epts) k

theorem place_of_canonical (h : i.isCanonical = true) (k : Nat) : i.place k = k := by
  by_cases hk : k < i.length
  · have ho : i.order = List.range i.length := by
      rw [order, sorted_of_canonical h, List.zipIdx_map_snd, ← List.range_eq_range', length]
    rw [place_of_lt hk, ho]
    have hd := List.nodup_range (n := i.length)
    have hlt : k < (List.range i.length).length := by rwa [List.length_range]
    have := hd.idxOf_getElem k hlt
    rwa [List.getElem_range] at this
  · exact place_of_le (Nat.le_of_not_lt hk)

/-! ## Inserting end points -/

theorem searchLast_le (p : Nat → Bool) (base size : Nat) :
    searchLast p base size ≤ base + size := by
  fun_induction searchLast p base size with
  | case1 base size h h' => omega
  | case2 base size h h' => omega
  | case3 base size h ih =>
    refine Nat.le_trans ih ?_
    split <;> omega

theorem le_searchLast (p : Nat → Bool) (base size : Nat) : base ≤ searchLast p base size := by
  fun_induction searchLast p base size with
  | case1 base size h h' => omega
  | case2 base size h h' => omega
  | case3 base size h ih =>
    refine Nat.le_trans ?_ ih
    split <;> omega

/-- Halving finds where a property ends that holds up to some index and not after it. -/
theorem lt_searchLast_iff {p : Nat → Bool} {base size k : Nat}
    (hp : ∀ {k l}, base ≤ k → k ≤ l → l < base + size → p l = true → p k = true)
    (hk : base ≤ k) (hk' : k < base + size) : k < searchLast p base size ↔ p k = true := by
  fun_induction searchLast p base size with
  | case1 base size h h' =>
    obtain rfl : k = base := by omega
    simp [h'.2]
  | case2 base size h h' =>
    obtain rfl : k = base := by omega
    simp only [Nat.lt_irrefl, false_iff]
    exact fun hpk => h' ⟨by omega, hpk⟩
  | case3 base size h ih =>
    -- the middle decides for the half that is left out
    have hle := searchLast_le p base (size - size / 2)
    have hge := le_searchLast p (base + size / 2) (size - size / 2)
    by_cases hm : p (base + size / 2) = true
    · rw [dif_pos hm] at ih
      rw [if_pos hm]
      by_cases hlt : base + size / 2 ≤ k
      · exact ih (fun h₁ h₂ h₃ => hp (by omega) h₂ (by omega)) hlt (by omega)
      · exact iff_of_true (by omega) (hp hk (by omega) (by omega) hm)
    · rw [dif_neg hm] at ih
      rw [if_neg hm]
      by_cases hlt : k < base + (size - size / 2)
      · exact ih (fun h₁ h₂ h₃ => hp h₁ h₂ (by omega)) hk hlt
      · exact iff_of_false (by omega) fun hpk => hm (hp (by omega) (by omega) hk' hpk)

theorem slot_le (i : Interface) (e : Ept) : i.slot e ≤ i.length := by
  have h := searchLast_le (fun k => (i.get? k).any fun x => !decide (Before e x)) 0 i.length
  rwa [Nat.zero_add] at h

/-- In an interface whose types ascend, no type comes before an earlier one. -/
theorem not_before_of_le {a b : Ept} (hc : i.isCanonical = true) (hkl : k ≤ l)
    (hk : i.get? k = some a) (hl : i.get? l = some b) : ¬ Before b a := by
  obtain ⟨hk', rfl⟩ := List.getElem?_eq_some_iff.mp hk
  obtain ⟨hl', rfl⟩ := List.getElem?_eq_some_iff.mp hl
  rcases Nat.lt_or_eq_of_le hkl with hlt | rfl
  · exact List.pairwise_iff_getElem.mp (isCanonical_iff.mp hc) k l hk' hl' hlt
  · exact Before.irrefl _

/-- A new end point goes before exactly those whose types come after its own. -/
theorem slot_le_iff {e x : Ept} (hc : i.isCanonical = true) (hk : i.get? k = some x) :
    i.slot e ≤ k ↔ Before e x := by
  have hlt : k < 0 + i.length := by
    rw [Nat.zero_add, ← get?_isSome_iff, hk]
    rfl
  have hend {k l : Nat} (hkl : k ≤ l) (hl : l < 0 + i.length)
      (h : (i.get? l).any (fun x => !decide (Before e x)) = true) :
      (i.get? k).any (fun x => !decide (Before e x)) = true := by
    rw [Nat.zero_add] at hl
    obtain ⟨b, hb⟩ := Option.isSome_iff_exists.mp (get?_isSome_iff.mpr hl)
    obtain ⟨a, ha⟩ := Option.isSome_iff_exists.mp (get?_isSome_iff.mpr (Nat.lt_of_le_of_lt hkl hl))
    rw [hb, Option.any_some, Bool.not_eq_true', decide_eq_false_iff_not] at h
    rw [ha, Option.any_some, Bool.not_eq_true', decide_eq_false_iff_not]
    exact not_before_trans (not_before_of_le hc hkl ha hb) h
  rw [← Nat.not_lt, slot, lt_searchLast_iff (fun _ => hend) (Nat.zero_le k) hlt, hk]
  simp

/-- The index of an end point after another was inserted. -/
def shift (i : Interface) (e : Ept) (k : Nat) : Nat := if i.slot e ≤ k then k + 1 else k

theorem take_append_cons_drop {α : Type} {l : List α} (x : α) (h : k ≤ l.length) :
    l.take k ++ x :: l.drop k = l.insertIdx k x := by
  induction l generalizing k with
  | nil =>
    obtain rfl : k = 0 := Nat.le_zero.mp h
    rfl
  | cons y l ih =>
    cases k with
    | zero => rfl
    | succ k =>
      rw [List.take_succ_cons, List.drop_succ_cons, List.insertIdx_succ_cons, List.cons_append,
        ih (Nat.le_of_succ_le_succ h)]

theorem getElem?_insertIdx_shift {α : Type} (i : Interface) (e : Ept) (l : List α) (x : α)
    (k : Nat) : (l.insertIdx (i.slot e) x)[i.shift e k]? = l[k]? := by
  rw [shift]
  split
  · rw [List.getElem?_insertIdx_of_gt (by omega)]
    rfl
  · rw [List.getElem?_insertIdx_of_lt (by omega)]

section Insert

variable {i' : Interface} {e : Ept}

theorem push_ok (h : i.push e = .ok i') : i'.epts = i.epts ++ [e] := by
  unfold push grow at h
  split at h
  · cases h; rfl
  · cases h

theorem push_total (h : i.elements + e.length ≤ maxElements) : ∃ i', i.push e = .ok i' := by
  unfold push grow
  exact ⟨_, dif_pos h⟩

/-- The new end point is the last one. -/
theorem get?_push (h : i.push e = .ok i') (k : Nat) :
    i'.get? k = if k = i.length then some e else i.get? k := by
  rw [get?, push_ok h]
  split
  · rename_i hk
    rw [hk]
    exact List.getElem?_concat_length
  · rename_i hk
    rcases Nat.lt_or_gt_of_ne hk with hlt | hgt
    · exact List.getElem?_append_left hlt
    · rw [get?, List.getElem?_eq_none (Nat.le_of_lt hgt), List.getElem?_eq_none]
      rw [List.length_append, List.length_singleton]
      exact hgt

theorem insert_ok (h : i.insert e = .ok i') : i'.epts = i.epts.insertIdx (i.slot e) e := by
  rw [← take_append_cons_drop e (i.slot_le e)]
  unfold insert grow at h
  split at h
  · cases h
    rfl
  · cases h

theorem insert_total (h : i.elements + e.length ≤ maxElements) : ∃ i', i.insert e = .ok i' := by
  unfold insert grow
  exact ⟨_, dif_pos h⟩

/-- The new end point is at its slot. -/
theorem get?_insert_slot (h : i.insert e = .ok i') : i'.get? (i.slot e) = some e := by
  rw [get?, insert_ok h, List.getElem?_insertIdx_self]
  exact if_pos (i.slot_le e)

/-- The old end points keep their types. -/
theorem get?_insert_shift (h : i.insert e = .ok i') (k : Nat) :
    i'.get? (i.shift e k) = i.get? k := by
  rw [get?, insert_ok h, getElem?_insertIdx_shift]
  rfl

theorem shift_lt_shift {l : Nat} (h : k < l) : i.shift e k < i.shift e l := by
  unfold shift
  split <;> split <;> omega

theorem shift_injective (i : Interface) (e : Ept) : Function.Injective (i.shift e) := by
  intro k l h
  unfold shift at h
  split at h <;> split at h <;> omega

/-- The new end point has an index of its own. -/
theorem shift_ne_slot (i : Interface) (e : Ept) (k : Nat) : i.shift e k ≠ i.slot e := by
  unfold shift
  split <;> omega

/-- Every other index is that of an old end point. -/
theorem exists_shift {l : Nat} (h : l ≠ i.slot e) : ∃ k, i.shift e k = l := by
  unfold shift
  by_cases hl : l < i.slot e
  · exact ⟨l, if_neg (by omega)⟩
  · exact ⟨l - 1, by rw [if_pos (by omega)]; omega⟩

theorem insert_perm (h : i.insert e = .ok i') : i'.epts.Perm (e :: i.epts) := by
  rw [insert_ok h]
  exact List.perm_insertIdx e i.epts (i.slot_le e)

theorem insert_isCanonical (hc : i.isCanonical = true) (h : i.insert e = .ok i') :
    i'.isCanonical = true := by
  have hasc := isCanonical_iff.mp hc
  rw [← List.take_append_drop (i.slot e) i.epts, Ascending, List.pairwise_append] at hasc
  obtain ⟨htake, hdrop, hcross⟩ := hasc
  rw [isCanonical_iff, insert_ok h, ← take_append_cons_drop e (i.slot_le e), Ascending,
    List.pairwise_append, List.pairwise_cons]
  refine ⟨htake, ⟨fun y hy => ?_, hdrop⟩, fun x hx y hy => ?_⟩
  · obtain ⟨k, hk, rfl⟩ := List.mem_drop_iff_getElem.mp hy
    rw [Nat.add_comm] at hk
    exact ((slot_le_iff hc (List.getElem?_eq_getElem hk)).mp (Nat.le_add_right _ k)).asymm
  · rcases List.mem_cons.mp hy with rfl | hy
    · obtain ⟨k, hk, rfl⟩ := List.mem_take_iff_getElem.mp hx
      have hlt : k < i.slot y := (Nat.lt_min.mp hk).1
      exact fun hb => Nat.not_le.mpr hlt
        ((slot_le_iff hc (List.getElem?_eq_getElem (Nat.lt_min.mp hk).2)).mpr hb)
    · exact hcross x hx y hy

end Insert

end Interface

end GeneGraph
