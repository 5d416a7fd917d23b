import GeneGraph.Proofs.Records
import GeneGraph.Settings.Profile

/-!
# Tunings laid over one another

A profile keeps the fields in which a tuning differs from the base. Laid over a base they give
`Tuning.overlay`, which is in range if the tuning and the base are (`Tuning.fault?_overlay`), and
the tuning itself over the base it was kept against. `Settings.tuningOf_overlay` says that this is
the tuning read from the fields, and `Settings.fieldsOf?_textOf` that the fields are read back
from their text.
-/

namespace GeneGraph

/-! ## Tunings as maps -/

theorem mem_zip_iff {α β : Type} {xs : List α} {ys : List β} {x : α} {y : β} :
    (x, y) ∈ xs.zip ys ↔ ∃ i : Nat, xs[i]? = some x ∧ ys[i]? = some y := by
  simp only [List.mem_iff_getElem?, List.getElem?_zip_eq_some]

namespace Tuning

variable {t old saved base : Tuning} {k : String} {i : Nat}

theorem nodup_fieldNames : fieldNames.Nodup := by decide

theorem exists_getElem?_values (t : Tuning) (hk : fieldNames[i]? = some k) :
    ∃ v, t.values[i]? = some v := by
  obtain ⟨hi, -⟩ := List.getElem?_eq_some_iff.mp hk
  exact ⟨_, List.getElem?_eq_getElem (show i < t.values.length from hi)⟩

theorem le_maxWord_of_mem_values {v : Nat} (h : v ∈ t.values) : v ≤ Json.maxWord := by
  have hword : ∀ x : UInt64, x.toNat ≤ Json.maxWord := fun x => Nat.le_of_lt_succ x.toNat_lt
  have hbyte : ∀ x : UInt8, x.toNat ≤ Json.maxWord := fun x =>
    Nat.le_trans (Nat.le_of_lt x.toNat_lt) (by decide)
  simp only [values, List.mem_cons, List.not_mem_nil, or_false] at h
  rcases h with rfl | rfl | rfl | rfl | rfl | rfl
  all_goals first | exact hword _ | exact hbyte _

theorem get?_toMap_eq_some_iff {j : Json} :
    t.toMap.get? k = some j ↔
      ∃ i v : Nat, fieldNames[i]? = some k ∧ t.values[i]? = some v ∧ Json.nat v = j := by
  have hkeys : (fieldNames.zip (t.values.map Json.nat)).map Prod.fst = fieldNames := rfl
  rw [toMap, SortedMap.get?_ofList_eq_some_iff (by rw [hkeys]; exact nodup_fieldNames),
    mem_zip_iff]
  simp only [List.getElem?_map, Option.map_eq_some_iff, exists_and_left]

theorem get?_toMap {v : Nat} (hk : fieldNames[i]? = some k) (hv : t.values[i]? = some v) :
    t.toMap.get? k = some (.nat v) := get?_toMap_eq_some_iff.mpr ⟨i, v, hk, hv, rfl⟩

theorem get?_toMap_of_not_mem (hk : k ∉ fieldNames) : t.toMap.get? k = none := by
  rw [Option.eq_none_iff_forall_ne_some]
  intro j hj
  obtain ⟨i, _, hi, -⟩ := get?_toMap_eq_some_iff.mp hj
  exact hk (List.mem_of_getElem? hi)

theorem map_get?_toMap (t : Tuning) :
    fieldNames.map t.toMap.get? = t.values.map fun v => some (Json.nat v) := by
  have hlength : fieldNames.length = t.values.length := rfl
  refine List.ext_getElem (by rw [List.length_map, List.length_map, hlength]) ?_
  intro i hi hi'
  rw [List.length_map] at hi hi'
  rw [List.getElem_map, List.getElem_map]
  exact get?_toMap (List.getElem?_eq_getElem hi) (List.getElem?_eq_getElem hi')

/-- A tuning is read back from its fields. -/
theorem ofMap?_toMap (t : Tuning) : ofMap? t.toMap = some t := by
  have hword : ∀ d x : UInt64, word? d (some (Json.nat x.toNat)) = some x := by
    intro d x
    have hx : x.toNat ≤ Json.maxWord := Nat.le_of_lt_succ x.toNat_lt
    rw [word?, Json.asNat?_nat hx, Option.map_some, UInt64.ofNat_toNat]
  have hbyte : ∀ d x : UInt8, byte? d (some (Json.nat x.toNat)) = some x := by
    intro d x
    have hx : x.toNat ≤ 255 := Nat.le_of_lt_succ x.toNat_lt
    rw [byte?, Json.asNat?_nat hx, Option.map_some, UInt8.ofNat_toNat]
  have hfields : (Json.record t.toMap.toList).fields? fieldNames =
      some (fieldNames.map t.toMap.get?) := Json.fields?_record nodup_fieldNames t.toMap.nodup_keys
  unfold ofMap? ofJson?
  rw [hfields, map_get?_toMap]
  simp only [values, List.map_cons, List.map_nil, Option.bind_eq_bind, Option.bind_some, hword,
    hbyte, Option.pure_def]

/-! ## Laying over -/

/-- The fields of `saved` that differ from those of `old`, and the others from `base`. -/
def overlay (old saved base : Tuning) : Tuning where
  attemptLimit :=
    if saved.attemptLimit = old.attemptLimit then base.attemptLimit else saved.attemptLimit
  maxFanOut := if saved.maxFanOut = old.maxFanOut then base.maxFanOut else saved.maxFanOut
  maxSearchScope :=
    if saved.maxSearchScope = old.maxSearchScope then base.maxSearchScope
    else saved.maxSearchScope
  candidateLimit :=
    if saved.candidateLimit = old.candidateLimit then base.candidateLimit
    else saved.candidateLimit
  timeout := if saved.timeout = old.timeout then base.timeout else saved.timeout
  seed := if saved.seed = old.seed then base.seed else saved.seed

/-- Over the base that it was kept against, a tuning comes back whole. -/
theorem overlay_self (old saved : Tuning) : overlay old saved old = saved := by
  have hite : ∀ {α : Type} [DecidableEq α] (x y : α), (if x = y then y else x) = x := by
    intro α _ x y
    split
    · rename_i h
      exact h.symm
    · rfl
  unfold overlay
  simp only [hite]

example : overlay .default { Tuning.default with seed := 5 }
    { Tuning.default with maxFanOut := 2 } =
      { Tuning.default with maxFanOut := 2, seed := 5 } := by decide

theorem fault?_eq_none_iff :
    t.fault? = none ↔ t.maxFanOut ≠ 0 ∧ t.maxSearchScope ≠ 0 ∧ t.candidateLimit ≠ 0 := by
  unfold fault?
  split
  · simp [*]
  · split
    · simp [*]
    · split <;> simp [*]

theorem fault?_overlay (hs : saved.fault? = none) (hb : base.fault? = none) :
    (overlay old saved base).fault? = none := by
  rw [fault?_eq_none_iff] at hs hb ⊢
  unfold overlay
  refine ⟨?_, ?_, ?_⟩ <;> dsimp only <;> split
  · exact hb.1
  · exact hs.1
  · exact hb.2.1
  · exact hs.2.1
  · exact hb.2.2
  · exact hs.2.2

theorem getElem?_values_overlay {x y z : Nat} (hx : old.values[i]? = some x)
    (hy : saved.values[i]? = some y) (hz : base.values[i]? = some z) :
    (overlay old saved base).values[i]? = some (if y = x then z else y) := by
  have hword : ∀ a b c d : UInt64, (if a = b then c else d).toNat =
      if a.toNat = b.toNat then c.toNat else d.toNat := by
    intro a b c d
    simp only [UInt64.toNat_inj, apply_ite UInt64.toNat]
  have hbyte : ∀ a b c d : UInt8, (if a = b then c else d).toNat =
      if a.toNat = b.toNat then c.toNat else d.toNat := by
    intro a b c d
    simp only [UInt8.toNat_inj, apply_ite UInt8.toNat]
  -- the fields one by one, and no place behind the last
  rcases i with _ | _ | _ | _ | _ | _ | i
  case succ.succ.succ.succ.succ.succ => cases hx
  all_goals
    cases hx
    cases hy
    cases hz
    simp [values, overlay, hword, hbyte]

end Tuning

/-! ## Stored fields -/

namespace Settings

variable {old saved base t : Tuning} {k : String} {fields : Fields}

theorem get?_changedFields_eq_some_iff {j : Json} :
    (changedFields base t).get? k = some j ↔
      ∃ i x y : Nat, Tuning.fieldNames[i]? = some k ∧ base.values[i]? = some x ∧
        t.values[i]? = some y ∧ x ≠ y ∧ Json.nat y = j := by
  have hkeys : ((((Tuning.fieldNames.zip (base.values.zip t.values)).filter
      fun e => e.2.1 ≠ e.2.2).map fun e => (e.1, Json.nat e.2.2)).map Prod.fst).Nodup := by
    rw [List.map_map]
    exact Tuning.nodup_fieldNames.sublist (List.filter_sublist.map _)
  rw [changedFields, SortedMap.get?_ofList_eq_some_iff hkeys, List.mem_map]
  constructor
  · rintro ⟨⟨k, x, y⟩, he, heq⟩
    cases heq
    obtain ⟨hmem, hne⟩ := List.mem_filter.mp he
    obtain ⟨i, hi, hxy⟩ := mem_zip_iff.mp hmem
    obtain ⟨hx, hy⟩ := List.getElem?_zip_eq_some.mp hxy
    exact ⟨i, x, y, hi, hx, hy, of_decide_eq_true hne, rfl⟩
  · rintro ⟨i, x, y, hi, hx, hy, hne, rfl⟩
    have hxy : (base.values.zip t.values)[i]? = some (x, y) :=
      List.getElem?_zip_eq_some.mpr ⟨hx, hy⟩
    have hmem := mem_zip_iff.mpr ⟨i, hi, hxy⟩
    exact ⟨(k, x, y), List.mem_filter.mpr ⟨hmem, decide_eq_true hne⟩, rfl⟩

/-- A profile keeps fields as they are. -/
theorem get?_toMap_of_changedFields {j : Json} (h : (changedFields base t).get? k = some j) :
    t.toMap.get? k = some j := by
  obtain ⟨i, x, y, hk, -, hy, -, rfl⟩ := get?_changedFields_eq_some_iff.mp h
  exact Tuning.get?_toMap hk hy

theorem get?_changedFields {i x y : Nat} (hk : Tuning.fieldNames[i]? = some k)
    (hx : base.values[i]? = some x) (hy : t.values[i]? = some y) :
    (changedFields base t).get? k = if y = x then none else some (.nat y) := by
  split
  · rename_i hyx
    rw [Option.eq_none_iff_forall_ne_some]
    intro j hj
    obtain ⟨i', x', y', hk', hx', hy', hne, -⟩ := get?_changedFields_eq_some_iff.mp hj
    obtain ⟨hlt, -⟩ := List.getElem?_eq_some_iff.mp hk
    have hi : i = i' := (List.getElem?_inj hlt Tuning.nodup_fieldNames).mp (hk.trans hk'.symm)
    subst hi
    rw [hx, Option.some.injEq] at hx'
    rw [hy, Option.some.injEq] at hy'
    exact hne (hx' ▸ hy' ▸ hyx.symm)
  · rename_i hyx
    exact get?_changedFields_eq_some_iff.mpr ⟨i, x, y, hk, hx, hy, Ne.symm hyx, rfl⟩

/-- What a profile keeps, laid over a base, are the fields of the overlay. -/
theorem insertAll_changedFields (old saved base : Tuning) :
    base.toMap.insertAll (changedFields old saved).toList = (old.overlay saved base).toMap := by
  refine SortedMap.ext fun k => ?_
  rw [SortedMap.get?_insertAll_toList]
  by_cases hk : k ∈ Tuning.fieldNames
  · obtain ⟨i, hi⟩ := List.mem_iff_getElem?.mp hk
    obtain ⟨x, hx⟩ := old.exists_getElem?_values hi
    obtain ⟨y, hy⟩ := saved.exists_getElem?_values hi
    obtain ⟨z, hz⟩ := base.exists_getElem?_values hi
    rw [get?_changedFields hi hx hy, Tuning.get?_toMap hi hz,
      Tuning.get?_toMap hi (Tuning.getElem?_values_overlay hx hy hz)]
    split <;> rfl
  · have hchanged : (changedFields old saved).get? k = none := by
      rw [Option.eq_none_iff_forall_ne_some]
      intro j hj
      have hkept := get?_toMap_of_changedFields hj
      rw [Tuning.get?_toMap_of_not_mem hk] at hkept
      cases hkept
    rw [hchanged, Tuning.get?_toMap_of_not_mem hk, Tuning.get?_toMap_of_not_mem hk]
    rfl

theorem tuningOf_toMap (key : String) (ht : t.fault? = none) : tuningOf key t.toMap = .ok t := by
  unfold tuningOf check
  simp only [Tuning.ofMap?_toMap, ht]
  rfl

/-- The overlay is read from the fields of a profile over those of the base. -/
theorem tuningOf_overlay (key : String) (hs : saved.fault? = none) (hb : base.fault? = none) :
    tuningOf key (base.toMap.insertAll (changedFields old saved).toList) =
      .ok (old.overlay saved base) := by
  rw [insertAll_changedFields]
  exact tuningOf_toMap key (Tuning.fault?_overlay hs hb)

/-- Every field is a machine word. -/
def AllWords (fields : Fields) : Prop := ∀ e ∈ fields.toList, ∃ n ≤ Json.maxWord, e.2 = .nat n

theorem allWords_toMap (t : Tuning) : AllWords t.toMap := by
  rintro ⟨k, j⟩ he
  obtain ⟨i, v, -, hv, rfl⟩ :=
    Tuning.get?_toMap_eq_some_iff.mp (SortedMap.get?_eq_some_iff.mpr he)
  exact ⟨v, Tuning.le_maxWord_of_mem_values (List.mem_of_getElem? hv), rfl⟩

theorem allWords_changedFields (base t : Tuning) : AllWords (changedFields base t) := by
  rintro ⟨k, j⟩ he
  have hkept := get?_toMap_of_changedFields (SortedMap.get?_eq_some_iff.mpr he)
  exact allWords_toMap t (k, j) (SortedMap.get?_eq_some_iff.mp hkept)

theorem AllWords.sound (h : AllWords fields) (depth : Nat) :
    (Json.record fields.toList).sound (depth + 1) = true := by
  unfold AllWords at h
  unfold Json.record
  rw [Json.sound]
  generalize fields.toList = l at h ⊢
  induction l with
  | nil => rfl
  | cons e l ih =>
    obtain ⟨n, -, hn⟩ := h e List.mem_cons_self
    rw [List.map_cons, Json.allFieldsSound, hn, ih fun e he => h e (List.mem_cons_of_mem _ he)]
    rfl

/-- Fields are read back from their text. -/
theorem fieldsOf?_textOf (h : AllWords fields) :
    fieldsOf? (textOf fields).toUTF8 = some fields := by
  have hutf : String.fromUTF8? (textOf fields).toUTF8 = some (textOf fields) :=
    dif_pos (textOf fields).isValidUTF8
  have hplain : (Json.record fields.toList).plain = true := by
    refine Json.plain_record fun e he => ?_
    obtain ⟨n, hn, heq⟩ := h e he
    rw [heq]
    exact Json.plain_nat hn
  have hjson : Json.ofString? (textOf fields) = some (Json.record fields.toList) :=
    Json.ofString?_indented hplain
  unfold fieldsOf?
  simp only [hutf, hjson, Option.bind_eq_bind, Option.bind_some, fieldsOf?.maxDepth, h.sound,
    if_true, Json.asEntries?_record, Option.pure_def, SortedMap.ofList_toList]

/-- The text of fields is not empty. -/
theorem isEmpty_textOf (h : AllWords fields) : (textOf fields).toUTF8.isEmpty = false := by
  by_contra hempty
  rw [Bool.not_eq_false, ByteArray.isEmpty, beq_iff_eq, ByteArray.size_eq_zero_iff] at hempty
  have hread := fieldsOf?_textOf h
  rw [hempty] at hread
  cases hread

end Settings

end GeneGraph
