import GeneGraph.TypeError

/-!
# The registry of types

A `Registry` is the list of the registered types. It grows by `Registry.register`, which checks
the new definition against the identifier it carries and against the types before it; what it
checks is `Admissible`, and every registry satisfies `Registered`: names and identifiers are
unique, and parents stand before their children. So the hierarchy has no cycle.
-/

namespace GeneGraph

/-- How a type takes part in the hierarchy. -/
inductive TypeKind where
  /-- A type with instances. -/
  | concrete
  /-- A family of types. -/
  | abstract
  /-- A type of types. -/
  | metatype
  deriving DecidableEq, Repr

abbrev UidSet := SortedMap TypeUid Unit

def UidSet.ofUids (us : List TypeUid) : UidSet := SortedMap.ofList (us.map fun u => (u, ()))

/-- The definition of a type: what it declares about its identifier has to agree with it. -/
structure TypeDef where
  uid : TypeUid
  name : String
  kind : TypeKind
  /-- The direct supertypes. -/
  parents : UidSet
  /-- The declared number of template types. -/
  arity : Nat
  /-- The declared wildcard origin. -/
  origin : Option Origin
  /-- The declared fixed instance. -/
  inst : Option Nat
  deriving DecidableEq

/-- The definition that declares what its identifier says. -/
def TypeDef.ofUid (uid : TypeUid) (name : String) (kind : TypeKind) (parents : UidSet) : TypeDef :=
  ⟨uid, name, kind, parents, uid.arity, uid.origin?, uid.instance?.map Fin.val⟩

/-- The definition with declared fields in place of what its identifier says. -/
def TypeDef.declaring (d : TypeDef) (arity inst : Option Nat) (origin : Option Origin) : TypeDef :=
  { d with arity := arity.getD d.arity, inst := inst.or d.inst, origin := origin.or d.origin }

/-- The longest name of a type, in characters. -/
def maxNameLength : Nat := 128

/-- `d` may be registered after the definitions `defs`. -/
structure Admissible (defs : List TypeDef) (d : TypeDef) : Prop where
  name_pos : 0 < d.name.length
  name_le : d.name.length ≤ maxNameLength
  name_fresh : ∀ e ∈ defs, e.name ≠ d.name
  uid_fresh : ∀ e ∈ defs, e.uid ≠ d.uid
  arity_eq : d.arity = d.uid.arity
  origin_eq : d.origin = d.uid.origin?
  inst_eq : d.inst = d.uid.instance?.map Fin.val
  parents_known : ∀ p ∈ d.parents.keys, ∃ e ∈ defs, e.uid = p

/-- Definitions, newest first, each of which was admissible when it was registered. -/
inductive Registered : List TypeDef → Prop where
  | nil : Registered []
  | cons {d : TypeDef} {older : List TypeDef} :
      Admissible older d → Registered older → Registered (d :: older)

/-- The registered types. -/
structure Registry where
  /-- The definitions, newest first. -/
  defs : List TypeDef
  registered : Registered defs

namespace Registry

def empty : Registry := ⟨[], .nil⟩

instance : Inhabited Registry := ⟨empty⟩

def size (r : Registry) : Nat := r.defs.length

/-- The definitions in order of registration. -/
def toList (r : Registry) : List TypeDef := r.defs.reverse

def find? (r : Registry) (uid : TypeUid) : Option TypeDef := r.defs.find? fun d => d.uid = uid

def contains (r : Registry) (uid : TypeUid) : Bool := r.defs.any fun d => d.uid = uid

def named? (r : Registry) (name : String) : Option TypeDef := r.defs.find? fun d => d.name = name

/-- The definition of an identifier, or the error that there is none. -/
def resolve (r : Registry) (uid : TypeUid) : Except TypeError TypeDef :=
  match r.find? uid with
  | some d => .ok d
  | none => .error (.unknownUid uid)

/-- The definition of a name, or the error that there is none. -/
def lookup (r : Registry) (name : String) : Except TypeError TypeDef :=
  match r.named? name with
  | some d => .ok d
  | none => .error (.unknownName name)

/-- The direct subtypes, in the order of their identifiers. -/
def children (r : Registry) (uid : TypeUid) : UidSet :=
  UidSet.ofUids ((r.defs.filter fun d => d.parents.contains uid).map TypeDef.uid)

/-- Registers a type. The name is checked first, then the declared fields, then the parents. -/
def register (r : Registry) (d : TypeDef) : Except TypeError Registry :=
  if hlen : d.name.length = 0 ∨ maxNameLength < d.name.length then
    .error (.nameLength d.name.length)
  else if hname : ∃ e ∈ r.defs, e.name = d.name then .error (.duplicateName d.name)
  else if huid : ∃ e ∈ r.defs, e.uid = d.uid then .error (.duplicateUid d.uid)
  else if harity : d.arity ≠ d.uid.arity then .error (.fieldMismatch d.name .templateTypeCount)
  else if horigin : d.origin ≠ d.uid.origin? then
    .error (.fieldMismatch d.name .wildcardOrigin)
  else if hinst : d.inst ≠ d.uid.instance?.map Fin.val then
    .error (.fieldMismatch d.name .fixedInstance)
  else
    match hp : d.parents.keys.find? fun p => !r.contains p with
    | some p => .error (.unknownParent d.name p.text)
    | none =>
      .ok ⟨d :: r.defs, .cons
        { name_pos := by omega
          name_le := by omega
          name_fresh := fun e he h => hname ⟨e, he, h⟩
          uid_fresh := fun e he h => huid ⟨e, he, h⟩
          arity_eq := Decidable.of_not_not harity
          origin_eq := Decidable.of_not_not horigin
          inst_eq := Decidable.of_not_not hinst
          parents_known := fun p h => by
            have := List.find?_eq_none.mp hp p h
            simpa [contains] using this }
        r.registered⟩

end Registry

end GeneGraph
