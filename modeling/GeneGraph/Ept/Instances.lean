import GeneGraph.Ept

/-!
# What fixed instances stand for

Where a destination type has a fixed instance, its source chooses what the instance stands for.
`Ept.choices` lists these choices for one connection, by walking both types side by side;
`Choices.record` keeps them and finds the first instance that would stand for two types.
-/

namespace GeneGraph

/-- Fixed instances with types that they stand for. -/
abbrev Choices := List (Fin 8 × Ept)

/-- The types of a source that stand where the destination has a fixed instance. Nothing below a
fixed instance counts, nor below types that differ in their number of template types. -/
def Ept.choices (src : Ept) : Ept → Choices
  | .node d args =>
    match d.instance? with
    | some i => [(i, src)]
    | none =>
      if h : src.head.arity = d.arity then
        (List.finRange d.arity).flatMap fun i =>
          (src.arg (i.cast (src.arity_eq d h))).choices (args i)
      else []

/-- Records choices up to the first that contradicts an earlier one, and names its instance. -/
def Choices.record (known : Choices) : Choices → Option (Fin 8) × Choices
  | [] => (none, known)
  | (i, e) :: rest =>
    match known.lookup i with
    | none => Choices.record (known ++ [(i, e)]) rest
    | some e' => if e' = e then Choices.record known rest else (some i, known)

end GeneGraph
