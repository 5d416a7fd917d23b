import GeneGraph.Registry
import GeneGraph.Json.Printer
import GeneGraph.Json.Reader

/-!
# Type definitions as a document

A registry is written as a list of records, parents first, which name their parents. A record
may also declare the fields that its identifier holds.

`TypeRecord.ofJson?` and `TypeRecord.toJson` are the JSON form of one record;
`Registry.ofRecords` registers a list of them and `Registry.records` gives it back.
-/

namespace GeneGraph

/-- A word that stands for an identifier in a document: a signed 32-bit integer. -/
def TypeUid.ofInt (n : Int) : Except UidError TypeUid :=
  ofWord (UInt32.ofNat (n % 0x100000000).toNat)

def TypeUid.ofJson? (j : Json) : Option TypeUid := do
  let n ← j.asInt? (-0x80000000) 0x7fffffff
  (ofInt n).toOption

def TypeUid.toJson (u : TypeUid) : Json := .nat u.number

def Ept.ofJson? (j : Json) : Option Ept := do
  let us ← j.asList? TypeUid.ofJson?
  (ofFlat us).toOption

def Ept.toJson (e : Ept) : Json := .arr (e.flat.map TypeUid.toJson)

def TypeKind.text : TypeKind → String
  | .concrete => "concrete"
  | .abstract => "abstract"
  | .metatype => "meta"

def TypeKind.ofText? (s : String) : Option TypeKind :=
  [TypeKind.concrete, .abstract, .metatype].find? fun k => k.text = s

/-- One entry of a document of types. -/
structure TypeRecord where
  name : String
  uid : TypeUid
  kind : TypeKind
  /-- The names of the parents. -/
  parents : List String
  /-- The declared number of template types, if one is declared. -/
  arity : Option Nat
  /-- The declared fixed instance, if one is declared. -/
  inst : Option Nat
  /-- The declared wildcard origin, if one is declared. -/
  origin : Option Origin
  deriving DecidableEq

def byte? (j : Json) : Option (Fin 256) := (j.asNat? 255).map (Fin.ofNat 256)

def Origin.ofJson? (j : Json) : Option Origin := do
  match ← j.fields? ["position", "depth"] with
  | [some position, some depth] => return ⟨← byte? position, ← byte? depth⟩
  | _ => none

namespace TypeRecord

/-- The fields of a record, in the order in which a record without keys lists them. -/
def fieldNames : List String :=
  ["name", "uid", "kind", "parents", "template_type_count", "fixed_instance", "wildcard_origin"]

/-- Reads a field that may be missing or `null`. -/
def optional? {α : Type} (f : Json → Option α) : Option Json → Option (Option α)
  | none => some none
  | some j => j.asOption? f

def ofJson? (j : Json) : Option TypeRecord := do
  match ← j.fields? fieldNames with
  | [some name, some uid, some kind, parents, arity, inst, origin] =>
    let name ← name.asText?
    let uid ← TypeUid.ofJson? uid
    let kind ← kind.case? >>= TypeKind.ofText?
    let parents ← match parents with
      | none => some []
      | some j => j.asList? Json.asText?
    let arity ← optional? (Json.asNat? 255) arity
    let inst ← optional? (Json.asNat? 255) inst
    let origin ← optional? Origin.ofJson? origin
    return ⟨name, uid, kind, parents, arity, inst, origin⟩
  | _ => none

/-- Writes a record; what the identifier holds is not written a second time. -/
def toJson (t : TypeRecord) : Json :=
  .record [("name", .text t.name), ("uid", t.uid.toJson), ("kind", .text t.kind.text),
    ("parents", .arr (t.parents.map Json.text))]

/-- The identifiers of the parents; the first parent that is not registered is complained of. -/
def parentUids (r : Registry) (name : String) : List String → Except TypeError (List TypeUid)
  | [] => .ok []
  | p :: ps =>
    match r.named? p with
    | none => .error (.unknownParent name p)
    | some d => do return d.uid :: (← parentUids r name ps)

def toDef (r : Registry) (t : TypeRecord) : Except TypeError TypeDef := do
  let parents ← parentUids r t.name t.parents
  let d := TypeDef.ofUid t.uid t.name t.kind (UidSet.ofUids parents)
  return d.declaring t.arity t.inst t.origin

end TypeRecord

namespace Registry

def ofRecords (ts : List TypeRecord) : Except TypeError Registry :=
  ts.foldlM (fun r t => do r.register (← t.toDef r)) empty

/-- The records of the types, in order of registration. -/
def records (r : Registry) : List TypeRecord :=
  r.toList.map fun d =>
    ⟨d.name, d.uid, d.kind, d.parents.keys.filterMap fun p => (r.find? p).map TypeDef.name,
      none, none, none⟩

def ofText (s : String) : Except TypeError Registry :=
  match Json.ofString? s >>= Json.asList? TypeRecord.ofJson? with
  | none => .error .json
  | some ts => ofRecords ts

def toText (r : Registry) : String := (Json.arr (r.records.map TypeRecord.toJson)).indented

end Registry

end GeneGraph
