import GeneGraph.Code
import GeneGraph.Ept.Instances
import GeneGraph.Ept.Wildcard
import GeneGraph.Registry.Compatible

/-!
# Checking codes

`Code.violation?` looks for the first rule that a code breaks: first the sides and the presence
of rows, then the sub-codes, then the connections, then the fixed instances, and last the
completeness. So a code whose violation is `Violation.incomplete` is sound but for destinations
without source.

A source delivers its type with its wildcards resolved by what feeds the sub-code it belongs to
(`Graph.delivered`).
-/

namespace GeneGraph

namespace Graph

/-! ## What a source delivers -/

/-- The type that a source delivers, with wildcards followed back through so many sub-codes. -/
def deliveredWithin (g : Graph) : Nat → EndPoint → Option Ept
  | 0, src => g.ept? .src src
  | n + 1, src =>
    (g.ept? .src src).map fun e =>
      if e.hasWildcard && src.row.isSub then
        let inputs := (g.interface src.row .dst).epts.zipIdx.map fun (input, k) =>
          ((g.sourceOf? ⟨src.row, k⟩).bind (g.deliveredWithin n)).getD input
        (e.resolve inputs).toOption.getD e
      else e

/-- How many sub-codes wildcards are followed back through. -/
def resolveDepth : Nat := 8

/-- The type that a source delivers: its wildcards stand for what the inputs of its sub-code are
fed, or for the inputs as they are declared; where there is nothing to stand for, the declared
type stays. -/
def delivered (g : Graph) (src : EndPoint) : Option Ept := g.deliveredWithin resolveDepth src

/-- The type that a destination is fed. -/
def fed (g : Graph) (dst : EndPoint) : Option Ept := (g.sourceOf? dst).bind g.delivered

/-! ## Rows -/

/-- The first side with end points that its row does not have. -/
def sideViolation? (g : Graph) : Option Violation :=
  g.rows.toList.findSome? fun (row, s) =>
    [Side.dst, .src].findSome? fun side =>
      if !row.hasSide side && !(s.side side).isEmpty then some (.rowSide row side) else none

/-- A row against the rule of the kind for it. -/
def rowViolation? (g : Graph) (row : Row) : Option Violation :=
  let rule := g.kind.presence row
  let judge (ok : Bool) := if ok then none else some (Violation.rowPresence row rule)
  match rule with
  | .required => judge (g.hasRow row)
  | .forbidden => judge (!g.hasRow row)
  | .optional => none
  | .atLeastOneOf rows => judge (rows.any g.hasRow)
  | .symmetric partner required =>
    if g.hasRow row ≠ g.hasRow partner ∨ g.interface row .dst ≠ g.interface partner .dst then
      some (.asymmetric row partner)
    else judge (g.hasRow row || !required)

/-- The first row against its rule. -/
def presenceViolation? (g : Graph) : Option Violation := Row.all.findSome? g.rowViolation?

/-- The first violation of the rules on rows. -/
def rowsViolation? (g : Graph) : Option Violation := g.sideViolation? <|> g.presenceViolation?

/-! ## Wiring -/

/-- A connection against the rules. -/
def wireViolation? (r : Registry) (g : Graph) (dst src : EndPoint) : Option Violation :=
  match g.ept? .dst dst, g.delivered src with
  | some d, some s =>
    if !g.kind.isLegal src.row dst.row then some (.illegalPair dst src)
    else if !r.isCompatible s d then some (.incompatible dst src)
    else none
  | _, _ => some (.dangling dst src)

/-- The first connection against the rules. -/
def wiresViolation? (r : Registry) (g : Graph) : Option Violation :=
  g.wires.toList.findSome? fun (dst, src) => g.wireViolation? r dst src

/-- The choices that the connection of a destination makes. -/
def choicesAt (g : Graph) (dst : EndPoint) (d : Ept) : Choices :=
  match g.fed dst with
  | none => []
  | some s => s.choices d

/-- The first instance that stands for two types, in the destinations of a row. -/
def instanceConflict? (g : Graph) (row : Row) :
    Choices → List (Ept × Nat) → Option (Fin 8)
  | _, [] => none
  | known, (d, k) :: rest =>
    match known.record (g.choicesAt ⟨row, k⟩ d) with
    | (some i, _) => some i
    | (none, known) => g.instanceConflict? row known rest

/-- The first row in which an instance stands for two types. -/
def instancesViolation? (g : Graph) : Option Violation :=
  g.rows.toList.findSome? fun (row, s) =>
    (g.instanceConflict? row [] s.dst.epts.zipIdx).map (.instanceConflict row)

/-- The first destination without source, unless the kind is exempt. -/
def completenessViolation? (g : Graph) : Option Violation :=
  if g.kind.isWiringExempt then none
  else g.unconnected.head?.map fun p => .incomplete p (g.kind.requiredSource p.row)

/-- The first violation of the rules on connections. -/
def wiringViolation? (r : Registry) (g : Graph) : Option Violation :=
  g.wiresViolation? r <|> g.instancesViolation? <|> g.completenessViolation?

/-- The first rule that a graph breaks, its sub-codes apart. -/
def violation? (r : Registry) (g : Graph) : Option Violation :=
  g.rowsViolation? <|> g.wiringViolation? r

/-- What the fixed instances of a row stand for, the destination at `index` apart. A choice that
contradicts an earlier one is left out, with the rest of its connection. -/
def knownChoices (g : Graph) (row : Row) (index : Nat) : Choices :=
  (g.interface row .dst).epts.zipIdx.foldl
    (fun known (d, k) =>
      if k = index then known else (known.record (g.choicesAt ⟨row, k⟩ d)).2) []

end Graph

namespace Code

/-- A row for a sub-code against the rules. -/
def subViolation? (c : Code) (row : Row) : Option Violation :=
  match c.graph.row? row, c.sub? row with
  | none, none => none
  | some _, none => if c.kind = .primitive then none else some (.missingSub row)
  | none, some _ => some (.subMismatch row)
  | some s, some f => if s = f.rowSides then none else some (.subMismatch row)

/-- The first row that does not fit its sub-code. A codon may have a row A without sub-code. -/
def subsViolation? (c : Code) : Option Violation := [Row.A, .B].findSome? c.subViolation?

/-- The first rule that a code breaks. -/
def violation? (r : Registry) (c : Code) : Option Violation :=
  c.graph.rowsViolation? <|> c.subsViolation? <|> c.graph.wiringViolation? r

end Code

end GeneGraph
