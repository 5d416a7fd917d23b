import GeneGraph.Registry

/-!
# Reading registered types

The identifiers of a stream are cut into trees, and each identifier has to be registered. A
stream that ends inside a tree is complained of before an identifier that is not known.
-/

namespace GeneGraph.Registry

/-- Complains of the first identifier that is not registered. -/
def checkAll (r : Registry) : List TypeUid → Except TypeError Unit
  | [] => .ok ()
  | u :: us => if r.contains u then r.checkAll us else .error (.unknownUid u)

def check (r : Registry) (e : Ept) : Except TypeError Unit := r.checkAll e.flat

/-- Reads the first type of a stream, and gives the rest of the stream. -/
def decodeFirst (r : Registry) (us : List TypeUid) : Except TypeError (Ept × List TypeUid) :=
  match Ept.readOne us with
  | none => .error (.badEpt (.truncated us.length))
  | some (e, rest) => do
    r.check e
    return (e, rest)

/-- Reads the first type of a stream, and tells how many identifiers it has. -/
def decodePrefix (r : Registry) (us : List TypeUid) : Except TypeError (Ept × Nat) := do
  let (e, rest) ← r.decodeFirst us
  return (e, us.length - rest.length)

def decode (r : Registry) (us : List TypeUid) : Except TypeError Ept := do
  let (e, rest) ← r.decodeFirst us
  if rest.length = 0 then return e else throw (.badEpt (.trailing rest.length))

def decodeSequence (r : Registry) (us : List TypeUid) : Except TypeError (List Ept) :=
  match us with
  | [] => .ok []
  | u :: us =>
    match _h : Ept.readOne (u :: us) with
    | none => .error (.badEpt (.truncated (u :: us).length))
    | some (e, rest) => do
      r.check e
      return e :: (← r.decodeSequence rest)
termination_by us.length
decreasing_by exact Ept.length_rest_of_readOne _h

end GeneGraph.Registry

namespace GeneGraph.Ept

def encodeSequence (es : List Ept) : List TypeUid := (es.map flat).flatten

end GeneGraph.Ept
