import GeneGraph.Validity

/-!
# Greedy wiring

Every destination without source is fed from the first source that may feed it. What is drawn at
random elsewhere is decided here by order alone.
-/

namespace GeneGraph.Graph

/-- The first source that may feed a destination and has a type that it takes. -/
def firstSource? (r : Registry) (g : Graph) (dst : EndPoint) : Option EndPoint :=
  match g.ept? .dst dst with
  | none => none
  | some d =>
    ((g.kind.feeders dst.row).flatMap fun row => rowPoints row (g.interface row .src)).find?
      fun src => (g.delivered src).any fun s => r.isCompatible s d

/-- Feeds a destination from the first source that there is for it. -/
def feedFirst (r : Registry) (g : Graph) (dst : EndPoint) : Graph :=
  match g.firstSource? r dst with
  | none => g
  | some src => (g.connect src dst).2

/-- Feeds every destination that has no source, as far as there are sources. -/
def wireGreedily (r : Registry) (g : Graph) : Graph := g.unconnected.foldl (feedFirst r) g

end GeneGraph.Graph
