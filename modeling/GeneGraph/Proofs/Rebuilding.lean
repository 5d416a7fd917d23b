import GeneGraph.Proofs.Records
import GeneGraph.Proofs.StoredRegistries

/-!
# A registry is rebuilt from its document

A document of types tells the name, the identifier and the kind of each type and the names of its
parents. The fields that the identifier holds and the subtypes are not in it. The types are
registered one after another as they are read, and the names of the parents of each are looked up
in what is registered by then (`Registry.toDef_recordOf`).

So each step of the reader repeats a registration of the registry that was written, and the last
one ends at this registry, with all its tables (`Registry.ofText_toText_rebuilds`).
-/

namespace GeneGraph

/-! ## Records as texts -/

theorem TypeKind.ofText?_text (k : TypeKind) : ofText? k.text = some k := by
  cases k <;> rfl

namespace TypeRecord

variable {t : TypeRecord} {r s : Registry} {d : TypeDef}

/-- The record declares nothing that its identifier tells. -/
structure Bare (t : TypeRecord) : Prop where
  arity : t.arity = none
  inst : t.inst = none
  origin : t.origin = none

theorem nodup_fieldNames : fieldNames.Nodup := by decide

theorem fields?_toJson (t : TypeRecord) : t.toJson.fields? fieldNames =
    some [some (.text t.name), some t.uid.toJson, some (.text t.kind.text),
      some (.arr (t.parents.map Json.text)), none, none, none] := by
  refine (Json.fields?_record nodup_fieldNames (by simp)).trans ?_
  simp [fieldNames, List.lookup_cons]

/-- A record that declares nothing is read back. -/
theorem ofJson?_toJson (h : t.Bare) : ofJson? t.toJson = some t := by
  have hparents : (Json.arr (t.parents.map Json.text)).asList? Json.asText? = some t.parents :=
    Json.asList?_map fun _ _ => rfl
  unfold ofJson?
  rw [t.fields?_toJson, Option.bind_eq_bind, Option.bind_some]
  dsimp only
  simp only [Json.text, Json.asText?, Json.case?, t.uid.ofJson?_toJson, t.kind.ofText?_text,
    Option.bind_eq_bind, Option.bind_some, Option.pure_def, optional?, hparents]
  obtain ⟨name, uid, kind, parents, arity, inst, origin⟩ := t
  obtain ⟨rfl, rfl, rfl⟩ := h
  rfl

theorem plain_toJson (t : TypeRecord) : t.toJson.plain = true := by
  have huid : t.uid.toJson.plain = true := by
    have hlt := t.uid.number_lt
    refine Json.plain_nat ?_
    unfold Json.maxWord
    omega
  have hparents : (Json.arr (t.parents.map Json.text)).plain = true :=
    Json.plain_arr_map fun _ _ => rfl
  apply Json.plain_record
  simp only [List.forall_mem_cons]
  exact ⟨rfl, huid, rfl, hparents, nofun⟩

end TypeRecord

/-! ## Registering once more -/

theorem UidSet.ofUids_keys (us : UidSet) : UidSet.ofUids us.keys = us := by
  have hkeys : us.keys.map (fun u => (u, ())) = us.toList := by
    rw [SortedMap.keys, List.map_map]
    exact List.map_id' us.toList
  rw [UidSet.ofUids, hkeys]
  exact us.ofList_toList

/-- Each definition was admissible behind those that are older. -/
theorem admissible_of_registered {newer older : List TypeDef} {d : TypeDef}
    (h : Registered (newer ++ d :: older)) : Admissible older d := by
  induction newer with
  | nil =>
    cases h with
    | cons ha _ => exact ha
  | cons e newer ih =>
    cases h with
    | cons _ h => exact ih h

namespace Registry

variable {r s : Registry} {d : TypeDef}

/-- The record that is written for a definition of the registry. -/
def recordOf (r : Registry) (d : TypeDef) : TypeRecord :=
  ⟨d.name, d.uid, d.kind, d.parents.keys.filterMap fun p => (r.find? p).map TypeDef.name,
    none, none, none⟩

theorem records_eq (r : Registry) : r.records = r.toList.map r.recordOf := rfl

/-- A registry is the list of its definitions. -/
theorem toList_injective (h : r.toList = s.toList) : r = s := by
  obtain ⟨defs, hr⟩ := r
  obtain ⟨defs', hs⟩ := s
  obtain rfl : defs = defs' := List.reverse_injective h
  rfl

/-- The names that were written for types are looked up in a part of the registry that has these
types, and give their identifiers. -/
theorem parentUids_names (hsub : ∀ e ∈ s.toList, e ∈ r.toList) (name : String)
    {ps : List TypeUid} (hps : ∀ p ∈ ps, ∃ e ∈ s.toList, e.uid = p) :
    TypeRecord.parentUids s name (ps.filterMap fun p => (r.find? p).map TypeDef.name) =
      .ok ps := by
  induction ps with
  | nil => rfl
  | cons p ps ih =>
    obtain ⟨⟨e, he, rfl⟩, hrest⟩ := List.forall_mem_cons.mp hps
    have hfind : r.find? e.uid = some e := (r.coherent.find?_iff _ e).mpr ⟨hsub e he, rfl⟩
    have hnamed : s.named? e.name = some e := (s.coherent.named?_iff _ e).mpr ⟨he, rfl⟩
    rw [List.filterMap_cons, hfind, Option.map_some]
    dsimp only
    rw [TypeRecord.parentUids, hnamed, ih hrest]
    rfl

/-- A record gives the definition that it was written for, where its parents are registered. -/
theorem toDef_recordOf (hsub : ∀ e ∈ s.toList, e ∈ r.toList) (hd : Admissible s.defs d) :
    (r.recordOf d).toDef s = .ok d := by
  have hparents := parentUids_names (r := r) hsub d.name fun p hp =>
    (hd.parents_known p hp).imp fun e he => ⟨mem_toList.mpr he.1, he.2⟩
  rw [TypeRecord.toDef, recordOf, hparents]
  show Except.ok ((TypeDef.ofUid d.uid d.name d.kind (.ofUids d.parents.keys)).declaring _ _ _) = _
  rw [UidSet.ofUids_keys, ← hd.eq_ofUid]
  rfl

/-- Registering the records of a registry one after the other builds it again. -/
theorem ofRecords_records (r : Registry) : ofRecords r.records = .ok r := by
  have hfold : ∃ s : Registry,
      r.toList.foldlM (fun s d => do s.register (← (r.recordOf d).toDef s)) empty = .ok s ∧
        s.toList = r.toList := by
    refine foldlM_eq_ok (fun pre (s : Registry) => s.toList = pre) rfl fun pre d post s hl hs => ?_
    have hdefs : r.defs = post.reverse ++ d :: s.defs := by
      rw [← List.reverse_inj, ← toList, hl, ← hs, toList]
      simp
    have ha : Admissible s.defs d := admissible_of_registered (hdefs ▸ r.registered)
    have hsub : ∀ e ∈ s.toList, e ∈ r.toList := fun e he => by
      rw [hl, ← hs]
      exact List.mem_append_left _ he
    have hstep : s.register d = .ok ⟨d :: s.defs, .cons ha s.registered⟩ :=
      register_eq_ok_iff.mpr ⟨ha, rfl⟩
    exact ⟨_, bind_eq_ok.mpr ⟨d, toDef_recordOf hsub ha, hstep⟩, by rw [toList_register hstep, hs]⟩
  obtain ⟨s, hs, hlist⟩ := hfold
  rw [ofRecords, records_eq, List.foldlM_map, hs, toList_injective hlist]

/-- A document of types that is written for a registry is read as this registry. -/
theorem ofText_toText (r : Registry) : ofText r.toText = .ok r := by
  have hplain : (Json.arr (r.records.map TypeRecord.toJson)).plain = true :=
    Json.plain_arr_map fun t _ => t.plain_toJson
  have hread : (Json.arr (r.records.map TypeRecord.toJson)).asList? TypeRecord.ofJson? =
      some r.records := by
    refine Json.asList?_map fun t ht => TypeRecord.ofJson?_toJson ?_
    obtain ⟨d, -, rfl⟩ := List.mem_map.mp ht
    exact ⟨rfl, rfl, rfl⟩
  unfold ofText toText
  rw [Json.ofString?_indented hplain, Option.bind_eq_bind, Option.bind_some, hread]
  exact ofRecords_records r

/-- A document that is written for a registry is read as this registry, and the document that is
written for its tables as these tables. -/
theorem ofText_toText_rebuilds (r : Registry) :
    ofText r.toText = .ok r ∧ Stored.ofText r.stored.toText = .ok r.stored := by
  refine ⟨r.ofText_toText, ?_⟩
  rw [toText_stored, ofText_stored, ofText_toText]
  rfl

end Registry

end GeneGraph
