import GeneGraph.Procedure
import GeneGraph.Proofs.Hierarchy
import GeneGraph.Registry.Document

/-!
# Registries as they are stored

A registry is stored in three tables: the definitions under their identifiers, each with the set of
its direct subtypes, the identifiers under the names, and the identifiers in order of registration.
A registration checks the new definition, enters the type as a subtype of its parents, and then
writes one table after the other.

`Registry.Stored` is such a record. A registration is a procedure, which could fail between two
writes; but it does to the tables what `Registry.register` does to the list of the definitions, and
leaves them as they are if this one fails (`Registry.outcome_register`). So the tables fit together,
whatever was registered or refused (`Registry.Stored.grown_coherent`).
-/

namespace GeneGraph

open Relation

namespace Registry

/-! ## The tables -/

/-- A definition with the direct subtypes that were entered for it. -/
structure Entry extends TypeDef where
  children : UidSet
  deriving DecidableEq

/-- A registry as it is stored. -/
@[ext] structure Stored where
  defs : SortedMap TypeUid Entry
  byName : SortedMap String TypeUid
  /-- The identifiers in order of registration. -/
  order : List TypeUid
  deriving DecidableEq

namespace Stored

def empty : Stored := ⟨.empty, .empty, []⟩

/-- The definitions in order of registration. -/
def listed (s : Stored) : List Entry := s.order.filterMap s.defs.get?

/-- Complains of a definition that cannot be registered. -/
def check (d : Entry) : Procedure TypeError Stored Unit := do
  let s ← get
  if d.name.length = 0 ∨ maxNameLength < d.name.length then throw (.nameLength d.name.length)
  else if s.byName.contains d.name then throw (.duplicateName d.name)
  else if s.defs.contains d.uid then throw (.duplicateUid d.uid)
  else if d.arity ≠ d.uid.arity then throw (.fieldMismatch d.name .templateTypeCount)
  else if d.origin ≠ d.uid.origin? then throw (.fieldMismatch d.name .wildcardOrigin)
  else if d.inst ≠ d.uid.instance?.map Fin.val then throw (.fieldMismatch d.name .fixedInstance)
  else
    match d.parents.keys.find? fun p => !s.defs.contains p with
    | some p => throw (.unknownParent d.name p.text)
    | none => return ()

/-- The definitions with `c` entered as a subtype of `p`, if `p` is one of them. -/
def linked (c : TypeUid) (defs : SortedMap TypeUid Entry) (p : TypeUid) : SortedMap TypeUid Entry :=
  match defs.get? p with
  | some e => defs.insert p { e with children := e.children.insert c () }
  | none => defs

def link (c p : TypeUid) : Procedure TypeError Stored Unit :=
  modify fun s => { s with defs := linked c s.defs p }

/-- Enters the type under its parents and in all tables. -/
def enter (d : Entry) : Procedure TypeError Stored TypeUid := do
  d.parents.keys.forM (link d.uid)
  modify fun s => { s with byName := s.byName.insert d.name d.uid }
  modify fun s => { s with defs := s.defs.insert d.uid d }
  modify fun s => { s with order := s.order ++ [d.uid] }
  return d.uid

/-- Registers a type. The subtypes that the definition comes with are dropped. -/
def register (d : Entry) : Procedure TypeError Stored TypeUid := do
  check d
  enter { d with children := .empty }

/-! ## Documents -/

/-- The identifiers under the names of parents; the first name that has none is complained of. -/
def parentUids (s : Stored) (name : String) (ps : List String) : Except TypeError (List TypeUid) :=
  ps.mapM fun p =>
    match s.byName.get? p with
    | some u => .ok u
    | none => .error (.unknownParent name p)

def toDef (s : Stored) (t : TypeRecord) : Except TypeError Entry := do
  let parents ← s.parentUids t.name t.parents
  let d := TypeDef.ofUid t.uid t.name t.kind (UidSet.ofUids parents)
  return ⟨d.declaring t.arity t.inst t.origin, .empty⟩

/-- Registers the type of a record. -/
def add (t : TypeRecord) : Procedure TypeError Stored Unit := do
  let d ← (← get).toDef t
  let _ ← register d

/-- The tables, if all records were registered. -/
def built : Except TypeError Unit × Stored → Except TypeError Stored
  | (.ok (), s) => .ok s
  | (.error err, _) => .error err

def ofRecords (ts : List TypeRecord) : Except TypeError Stored :=
  built ((ts.forM add).outcome empty)

def records (s : Stored) : List TypeRecord :=
  s.listed.map fun e =>
    ⟨e.name, e.uid, e.kind, e.parents.keys.filterMap fun p => (s.defs.get? p).map fun e => e.name,
      none, none, none⟩

def ofText (t : String) : Except TypeError Stored :=
  match Json.ofString? t >>= Json.asList? TypeRecord.ofJson? with
  | none => .error .json
  | some ts => ofRecords ts

def toText (s : Stored) : String := (Json.arr (s.records.map TypeRecord.toJson)).indented

/-! ## What a registration leaves -/

theorem outcome_links (c : TypeUid) (ps : List TypeUid) (s : Stored) :
    (ps.forM (link c)).outcome s = (.ok (), { s with defs := ps.foldl (linked c) s.defs }) := by
  induction ps generalizing s with
  | nil => rfl
  | cons p ps ih => exact (Procedure.outcome_bind_ok rfl).trans (ih _)

/-- The tables with a type entered. -/
def entered (s : Stored) (d : Entry) : Stored where
  defs := (d.parents.keys.foldl (linked d.uid) s.defs).insert d.uid d
  byName := s.byName.insert d.name d.uid
  order := s.order ++ [d.uid]

theorem outcome_enter (s : Stored) (d : Entry) :
    (enter d).outcome s = (.ok d.uid, s.entered d) :=
  (Procedure.outcome_bind_ok (outcome_links d.uid d.parents.keys s)).trans rfl

theorem get?_linked (c : TypeUid) (defs : SortedMap TypeUid Entry) (p u : TypeUid) :
    (linked c defs p).get? u = (defs.get? u).map fun e =>
      if u = p then { e with children := e.children.insert c () } else e := by
  unfold linked
  by_cases hu : u = p
  · subst hu
    cases hdef : defs.get? u with
    | none => simp [hdef]
    | some e => simp [SortedMap.get?_insert]
  · cases hdef : defs.get? p with
    | none => simp [hu]
    | some e => simp [SortedMap.get?_insert, hu]

/-- A type is entered as a subtype of each parent. -/
theorem get?_foldl_linked (c : TypeUid) {ps : List TypeUid} (hps : ps.Nodup)
    (defs : SortedMap TypeUid Entry) (u : TypeUid) :
    (ps.foldl (linked c) defs).get? u = (defs.get? u).map fun e =>
      if u ∈ ps then { e with children := e.children.insert c () } else e := by
  induction ps generalizing defs with
  | nil => simp
  | cons p ps ih =>
    obtain ⟨hp, hps⟩ := List.nodup_cons.mp hps
    rw [List.foldl_cons, ih hps, get?_linked, Option.map_map]
    refine congrArg (Option.map · _) (funext fun e => ?_)
    by_cases hu : u = p
    · subst hu
      simp [hp]
    · simp [hu]

end Stored

/-! ## The tables stand for the list of definitions -/

variable {r r' : Registry} {d : TypeDef} {u : TypeUid} {n : String}

/-- The entry of a definition. -/
def entry (r : Registry) (d : TypeDef) : Entry := ⟨d, r.children d.uid⟩

/-- The tables of a registry. -/
def stored (r : Registry) : Stored where
  defs := .ofList (r.toList.map fun d => (d.uid, r.entry d))
  byName := .ofList (r.toList.map fun d => (d.name, d.uid))
  order := r.toList.map TypeDef.uid

theorem get?_stored_defs (r : Registry) (u : TypeUid) :
    r.stored.defs.get? u = (r.find? u).map r.entry := by
  have hnodup : ((r.toList.map fun d => (d.uid, r.entry d)).map Prod.fst).Nodup := by
    rw [List.map_map]
    exact r.coherent.nodup_uids
  refine Option.ext fun e => ?_
  rw [stored, SortedMap.get?_ofList_eq_some_iff hnodup, List.mem_map, Option.map_eq_some_iff]
  refine exists_congr fun d => ?_
  rw [Prod.mk.injEq, r.coherent.find?_iff, and_assoc]

theorem get?_stored_byName (r : Registry) (n : String) :
    r.stored.byName.get? n = (r.named? n).map TypeDef.uid := by
  have hnodup : ((r.toList.map fun d => (d.name, d.uid)).map Prod.fst).Nodup := by
    rw [List.map_map]
    exact r.coherent.nodup_names
  refine Option.ext fun e => ?_
  rw [stored, SortedMap.get?_ofList_eq_some_iff hnodup, List.mem_map, Option.map_eq_some_iff]
  refine exists_congr fun d => ?_
  rw [Prod.mk.injEq, r.coherent.named?_iff, and_assoc]

theorem listed_stored (r : Registry) : r.stored.listed = r.toList.map r.entry := by
  have hget : ∀ d ∈ r.toList, r.stored.defs.get? d.uid = some (r.entry d) := fun d hd => by
    rw [get?_stored_defs, (r.coherent.find?_iff _ d).mpr ⟨hd, rfl⟩, Option.map_some]
  have horder : r.stored.order = r.toList.map TypeDef.uid := rfl
  rw [Stored.listed, horder, List.filterMap_map, ← List.filterMap_eq_map]
  exact List.filterMap_congr hget

theorem contains_stored_defs : r.stored.defs.contains u = r.contains u := by
  rw [SortedMap.contains, get?_stored_defs, Option.isSome_map, find?, List.isSome_find?]
  rfl

theorem contains_stored_byName :
    r.stored.byName.contains n = true ↔ ∃ e ∈ r.defs, e.name = n := by
  rw [SortedMap.contains, get?_stored_byName, Option.isSome_map, named?, List.find?_isSome]
  simp

theorem contains_stored_uid :
    r.stored.defs.contains u = true ↔ ∃ e ∈ r.defs, e.uid = u := by
  rw [contains_stored_defs, contains_iff]

/-- The tables are checked as the list is. -/
theorem outcome_check (r : Registry) (d : Entry) : (Stored.check d).outcome r.stored =
    ((r.register d.toTypeDef).map fun _ => (), r.stored) := by
  refine (Procedure.outcome_bind_ok (a := r.stored) rfl).trans ?_
  unfold register
  refine Procedure.outcome_refuse .rfl fun _ => ?_
  refine Procedure.outcome_refuse contains_stored_byName fun _ => ?_
  refine Procedure.outcome_refuse contains_stored_uid fun _ => ?_
  refine Procedure.outcome_refuse .rfl fun _ => Procedure.outcome_refuse .rfl fun _ => ?_
  refine Procedure.outcome_refuse .rfl fun _ => ?_
  simp only [contains_stored_defs]
  split
  · rename_i p hp
    split
    · rename_i q hq
      obtain rfl : p = q := Option.some.inj (hp.symm.trans hq)
      rfl
    · rename_i hnone
      cases hp.symm.trans hnone
  · rename_i hnone
    split
    · rename_i q hq
      cases hnone.symm.trans hq
    · rfl

/-- The tables are written as the list grows. -/
theorem entered_stored (h : r.register d = .ok r') : r.stored.entered ⟨d, .empty⟩ = r'.stored := by
  have hdefs : (r.stored.entered ⟨d, .empty⟩).defs = r'.stored.defs := by
    refine SortedMap.ext fun u => ?_
    rw [Stored.entered, SortedMap.get?_insert, Stored.get?_foldl_linked _ d.parents.nodup_keys,
      get?_stored_defs, get?_stored_defs, find?_register h]
    by_cases hu : u = d.uid
    · subst hu
      rw [if_pos rfl, if_pos rfl, Option.map_some, entry, children_register_self h]
    · rw [if_neg hu, if_neg (Ne.symm hu), Option.map_map]
      cases hfind : r.find? u with
      | none => rfl
      | some e =>
        obtain ⟨-, rfl⟩ := (r.coherent.find?_iff u e).mp hfind
        rw [Option.map_some, Option.map_some, Function.comp_apply, entry, entry,
          children_register h]
        split <;> rfl
  have hnames : (r.stored.entered ⟨d, .empty⟩).byName = r'.stored.byName := by
    refine SortedMap.ext fun n => ?_
    rw [Stored.entered, SortedMap.get?_insert, get?_stored_byName, get?_stored_byName,
      named?_register h, apply_ite (Option.map TypeDef.uid)]
    simp only [eq_comm, Option.map_some]
  have horder : (r.stored.entered ⟨d, .empty⟩).order = r'.stored.order := by
    show r.toList.map TypeDef.uid ++ [d.uid] = r'.toList.map TypeDef.uid
    rw [toList_register h, List.map_append, List.map_singleton]
  exact Stored.ext hdefs hnames horder

/-- A registration does to the tables what it does to the list of definitions. -/
theorem outcome_register (r : Registry) (d : Entry) : (Stored.register d).outcome r.stored =
    match r.register d.toTypeDef with
    | .ok r' => (.ok d.uid, r'.stored)
    | .error err => (.error err, r.stored) := by
  rw [Stored.register, Procedure.outcome_bind, outcome_check]
  cases h : r.register d.toTypeDef with
  | error err => rfl
  | ok r' =>
    refine (Stored.outcome_enter r.stored _).trans ?_
    rw [entered_stored h]

/-! ## Documents -/

theorem parentUids_stored (r : Registry) (name : String) (ps : List String) :
    r.stored.parentUids name ps = TypeRecord.parentUids r name ps := by
  induction ps with
  | nil => rfl
  | cons p ps ih =>
    rw [Stored.parentUids, List.mapM_cons, ← Stored.parentUids, ih, TypeRecord.parentUids,
      get?_stored_byName]
    cases r.named? p <;> rfl

theorem toDef_stored (r : Registry) (t : TypeRecord) :
    r.stored.toDef t = (t.toDef r).map fun d => ⟨d, .empty⟩ := by
  rw [Stored.toDef, parentUids_stored, TypeRecord.toDef]
  cases TypeRecord.parentUids r t.name t.parents <;> rfl

theorem outcome_add (r : Registry) (t : TypeRecord) : (Stored.add t).outcome r.stored =
    match t.toDef r >>= r.register with
    | .ok r' => (.ok (), r'.stored)
    | .error err => (.error err, r.stored) := by
  refine (Procedure.outcome_bind_ok (a := r.stored) rfl).trans ?_
  rw [Procedure.outcome_bind, Procedure.outcome_lift (toDef_stored r t)]
  cases t.toDef r with
  | error err => rfl
  | ok d =>
    show ((Stored.register ⟨d, .empty⟩ >>= fun _ => pure ()) : Procedure _ _ _).outcome r.stored =
      match r.register d with | .ok r' => _ | .error err => _
    rw [Procedure.outcome_bind, outcome_register]
    cases r.register d <;> rfl

/-- The tables that are left when all records were registered, or the error of the first one that
was not. -/
theorem outcome_forM_add (r : Registry) (ts : List TypeRecord) :
    Stored.built ((ts.forM Stored.add).outcome r.stored) =
      (ts.foldlM (fun (r : Registry) t => do r.register (← TypeRecord.toDef r t)) r).map
        stored := by
  induction ts generalizing r with
  | nil => rfl
  | cons t ts ih =>
    rw [List.foldlM_cons]
    show Stored.built ((Stored.add t >>= fun _ => ts.forM Stored.add).outcome r.stored) = _
    rw [Procedure.outcome_bind, outcome_add]
    cases h : t.toDef r >>= r.register with
    | error err => rfl
    | ok r' => exact ih r'

theorem ofRecords_stored (ts : List TypeRecord) :
    Stored.ofRecords ts = (ofRecords ts).map stored := outcome_forM_add empty ts

/-- Reading a document fills the tables of the registry that it stands for. -/
theorem ofText_stored (t : String) : Stored.ofText t = (ofText t).map stored := by
  unfold Stored.ofText ofText
  cases Json.ofString? t >>= Json.asList? TypeRecord.ofJson? with
  | none => rfl
  | some ts => exact ofRecords_stored ts

theorem toText_stored (r : Registry) : r.stored.toText = r.toText := by
  have hrecords : r.stored.records = r.records := by
    rw [Stored.records, listed_stored, List.map_map]
    refine List.map_congr_left fun d _ => ?_
    simp only [Function.comp_apply, get?_stored_defs, Option.map_map]
    rfl
  rw [Stored.toText, hrecords]
  rfl

/-! ## Coherence -/

namespace Stored

/-- `p` is a direct supertype of `c`. -/
def Parent (s : Stored) (p c : TypeUid) : Prop :=
  ∃ e, s.defs.get? c = some e ∧ e.parents.contains p = true

/-- `c` is entered as a subtype of `p`. -/
def Child (s : Stored) (p c : TypeUid) : Prop :=
  ∃ e, s.defs.get? p = some e ∧ e.children.contains c = true

/-- The tables fit together. -/
structure Coherent (s : Stored) : Prop where
  nodup_order : s.order.Nodup
  mem_order_iff : ∀ u, u ∈ s.order ↔ s.defs.contains u = true
  /-- Names and identifiers stand for each other. -/
  byName_iff : ∀ n u, s.byName.get? n = some u ↔ ∃ e, s.defs.get? u = some e ∧ e.name = n
  /-- What a definition declares is what its identifier says. -/
  declared : ∀ u e, s.defs.get? u = some e → e.toTypeDef = .ofUid u e.name e.kind e.parents
  child_iff : ∀ p c, s.Child p c ↔ s.Parent p c
  /-- Parents are registered first. -/
  parent_first : ∀ (p c : TypeUid) (k : Nat), s.Parent p c → s.order[k]? = some c →
    ∃ j < k, s.order[j]? = some p

/-- The definitions in order of registration, without what was entered for them. -/
def types (s : Stored) : List TypeDef := s.listed.map Entry.toTypeDef

end Stored

theorem types_stored (r : Registry) : r.stored.types = r.toList := by
  rw [Stored.types, listed_stored, List.map_map]
  exact List.map_id' r.toList

theorem parent_stored (r : Registry) : r.stored.Parent = r.Parent := by
  funext p c
  unfold Stored.Parent Parent
  rw [get?_stored_defs]
  cases r.find? c with
  | none => simp
  | some d => simp [entry]

theorem child_stored_iff (r : Registry) {p c : TypeUid} : r.stored.Child p c ↔ r.Parent p c := by
  rw [← r.coherent.children_iff]
  unfold Stored.Child
  rw [get?_stored_defs]
  constructor
  · rintro ⟨e, he, hc⟩
    obtain ⟨d, hd, rfl⟩ := Option.map_eq_some_iff.mp he
    obtain ⟨-, rfl⟩ := (r.coherent.find?_iff p d).mp hd
    exact hc
  · intro hc
    obtain ⟨d, hd⟩ := r.coherent.find?_of_parent ((r.coherent.children_iff p c).mp hc)
    obtain ⟨-, rfl⟩ := (r.coherent.find?_iff p d).mp hd
    exact ⟨r.entry d, by rw [hd, Option.map_some], hc⟩

theorem stored_coherent (r : Registry) : r.stored.Coherent where
  nodup_order := r.coherent.nodup_uids
  mem_order_iff u := by
    rw [contains_stored_uid]
    simp only [stored, List.mem_map, mem_toList]
  byName_iff n u := by
    rw [get?_stored_byName, get?_stored_defs]
    simp only [Option.map_eq_some_iff, r.coherent.named?_iff, r.coherent.find?_iff]
    constructor
    · rintro ⟨d, ⟨hd, rfl⟩, rfl⟩
      exact ⟨r.entry d, ⟨d, ⟨hd, rfl⟩, rfl⟩, rfl⟩
    · rintro ⟨e, ⟨d, ⟨hd, rfl⟩, rfl⟩, rfl⟩
      exact ⟨d, ⟨hd, rfl⟩, rfl⟩
  declared u e he := by
    rw [get?_stored_defs] at he
    obtain ⟨d, hd, rfl⟩ := Option.map_eq_some_iff.mp he
    obtain ⟨hmem, rfl⟩ := (r.coherent.find?_iff u d).mp hd
    exact r.coherent.declared d hmem
  child_iff p c := by rw [child_stored_iff, parent_stored]
  parent_first p c k h hk := by
    rw [parent_stored] at h
    exact r.coherent.parent_listed p c k h hk

/-! ## Histories -/

namespace Stored

variable {s : Stored}

/-- The tables after a definition was offered, which may be refused. -/
def offer (s : Stored) (d : Entry) : Stored := ((register d).outcome s).2

/-- The tables there can be: the empty ones, those that are read from documents, and what becomes
of them when definitions are offered. -/
inductive Grown : Stored → Prop where
  | empty : Grown .empty
  | read {t : String} {s : Stored} (h : ofText t = .ok s) : Grown s
  | offer {s : Stored} (h : Grown s) (d : Entry) : Grown (s.offer d)

/-- The tables are always those of a registry. -/
theorem Grown.exists_stored (h : s.Grown) : ∃ r : Registry, s = r.stored := by
  induction h with
  | empty => exact ⟨.empty, rfl⟩
  | @read t s h =>
    rw [ofText_stored] at h
    cases hr : Registry.ofText t with
    | error err =>
      rw [hr] at h
      cases h
    | ok r =>
      rw [hr] at h
      cases h
      exact ⟨r, rfl⟩
  | offer _ d ih =>
    obtain ⟨r, rfl⟩ := ih
    unfold Stored.offer
    rw [outcome_register]
    cases r.register d.toTypeDef with
    | error err => exact ⟨r, rfl⟩
    | ok r' => exact ⟨r', rfl⟩

/-- An admissible definition is registered behind the others, and any other changes nothing. -/
theorem offer_spec (r : Registry) (d : Entry) :
    (Admissible r.stored.types d.toTypeDef ∧
      (register d).outcome r.stored = (.ok d.uid, r.stored.offer d) ∧
      (r.stored.offer d).types = r.stored.types ++ [d.toTypeDef]) ∨
    (¬ Admissible r.stored.types d.toTypeDef ∧
      ∃ err, (register d).outcome r.stored = (.error err, r.stored)) := by
  unfold offer
  rw [types_stored, outcome_register]
  cases h : r.register d.toTypeDef with
  | ok r' =>
    refine Or.inl ⟨admissible_of_register h, rfl, ?_⟩
    exact (types_stored r').trans (toList_register h)
  | error err =>
    refine Or.inr ⟨fun ha => ?_, err, rfl⟩
    have hdefs := admissible_toList.mp ha
    have hok : r.register d.toTypeDef = .ok ⟨d.toTypeDef :: r.defs, .cons hdefs r.registered⟩ :=
      register_eq_ok_iff.mpr ⟨hdefs, rfl⟩
    rw [h] at hok
    cases hok

/-- Whatever was registered or refused, the tables fit together, and no type is above itself. The
next definition is registered behind the others if it is admissible, and else all tables stay as
they are. -/
theorem grown_coherent (h : s.Grown) :
    s.Coherent ∧
    (∀ u, ¬ TransGen s.Parent u u) ∧
    ∀ d : Entry,
      (Admissible s.types d.toTypeDef ∧ (register d).outcome s = (.ok d.uid, s.offer d) ∧
        (s.offer d).types = s.types ++ [d.toTypeDef]) ∨
      (¬ Admissible s.types d.toTypeDef ∧ ∃ err, (register d).outcome s = (.error err, s)) := by
  obtain ⟨r, rfl⟩ := h.exists_stored
  refine ⟨r.stored_coherent, fun u => ?_, offer_spec r⟩
  rw [parent_stored]
  exact r.coherent.acyclic u

/-- A type without parents. -/
def root : Entry := ⟨.ofUid ⟨0, .plain 0 1⟩ "object" .abstract .empty, .empty⟩

/-- A subtype of it, which pretends to have a subtype. -/
def branch : Entry :=
  ⟨.ofUid ⟨0, .plain 0 2⟩ "Number" .abstract (.ofUids [root.uid]), .ofUids [root.uid]⟩

/-- The tables after the subtype was offered, once before the type and once after it. -/
def family : Stored := ((empty.offer branch).offer root).offer branch

/-- A type comes below its parent; offered before it, it is refused. -/
theorem grown_coherent_sample :
    family.Grown ∧ family.order = [root.uid, branch.uid] ∧ family.Parent root.uid branch.uid ∧
      ¬ family.Child branch.uid root.uid := by
  have hgrown : family.Grown := ((Grown.empty.offer branch).offer root).offer branch
  obtain ⟨hs, hacyclic, -⟩ := grown_coherent hgrown
  have hchild : family.Child root.uid branch.uid :=
    ⟨{ root with children := .ofUids [branch.uid] }, by decide +kernel, by decide +kernel⟩
  have hparent := (hs.child_iff _ _).mp hchild
  refine ⟨hgrown, by decide +kernel, hparent, fun h => hacyclic root.uid ?_⟩
  exact .head hparent (.single ((hs.child_iff _ _).mp h))

end Stored

end Registry

end GeneGraph
