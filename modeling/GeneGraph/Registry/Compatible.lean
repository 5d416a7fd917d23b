import GeneGraph.Registry

/-!
# Which types may feed which

A type feeds the types above it in the hierarchy, template type by template type; a wildcard
takes whatever it is fed, and a fixed instance takes what its family takes.

Parents stand before their children in a registry, so its ancestors are found by one walk from
the newest definition to the oldest.
-/

namespace GeneGraph.Registry

/-- Everything above the types in `wanted`, by one walk from the newest definition on. -/
def ancestorsIn : List TypeDef → List TypeUid → List TypeUid
  | [], _ => []
  | d :: older, wanted =>
    if d.uid ∈ wanted then d.parents.keys ++ ancestorsIn older (d.parents.keys ++ wanted)
    else ancestorsIn older wanted

/-- `ancestor` is a strict supertype of `uid`. -/
def isAncestor (r : Registry) (ancestor uid : TypeUid) : Bool :=
  decide (ancestor ∈ ancestorsIn r.defs [uid])

/-- `dst` takes `src`, as far as the definitions of the list tell. -/
def coversIn (r : Registry) : List TypeDef → (dst src : TypeUid) → Bool
  | [], dst, src => dst = src || r.isAncestor dst src
  | d :: older, dst, src =>
    if d.uid = dst then
      dst = src || r.isAncestor dst src ||
        (dst.instance?.isSome && d.parents.keys.any fun p => coversIn r older p src)
    else coversIn r older dst src

/-- `dst` is `src`, or above it, or a fixed instance of a family that takes `src`. -/
def covers (r : Registry) (dst src : TypeUid) : Bool := r.coversIn r.defs dst src

/-- A value of type `src` may feed an end point of type `dst`. The template types of a type
without template types count for nothing. -/
def isCompatible (r : Registry) (src : Ept) : Ept → Bool
  | .node dst args =>
    dst.isWildcard ||
      (r.covers dst src.head &&
        (dst.arity = 0 ||
          if h : src.head.arity = dst.arity then
            (List.finRange dst.arity).all fun i =>
              r.isCompatible (src.arg (i.cast (src.arity_eq dst h))) (args i)
          else false))

end GeneGraph.Registry
