import GeneGraph.GraphKind

/-!
# Violations

The ways in which a code can break the rules of its kind, with their wording. A violation belongs
to one of three categories.
-/

namespace GeneGraph

/-- A rule that a code breaks. -/
inductive Violation where
  /-- End points on a side that the row does not have. -/
  | rowSide (row : Row) (side : Side)
  /-- A row is present or absent against its rule. -/
  | rowPresence (row : Row) (rule : Presence)
  /-- Symmetric rows differ in presence or destinations. -/
  | asymmetric (row partner : Row)
  /-- A connection names an end point that does not exist. -/
  | dangling (dst src : EndPoint)
  /-- A row feeds a row that it may not feed. -/
  | illegalPair (dst src : EndPoint)
  /-- A source has a type that its destination does not take. -/
  | incompatible (dst src : EndPoint)
  /-- A fixed instance stands for different types in one row. -/
  | instanceConflict (row : Row) (inst : Fin 8)
  /-- A row for a sub-code has none. -/
  | missingSub (row : Row)
  /-- A row differs from the interface of its sub-code. -/
  | subMismatch (row : Row)
  /-- A destination has no source; named with the row that alone may feed it, if there is one. -/
  | incomplete (dst : EndPoint) (required : Option Row)
  deriving DecidableEq, Repr

/-- What kind of rule is broken. -/
inductive Violation.Category where
  | presence
  | connectivity
  | completeness
  deriving DecidableEq, Repr

namespace Violation

def category : Violation → Category
  | rowSide .. | rowPresence .. | asymmetric .. | missingSub .. | subMismatch .. => .presence
  | dangling .. | illegalPair .. | incompatible .. | instanceConflict .. => .connectivity
  | incomplete .. => .completeness

def text : Violation → String
  | rowSide row side => s!"row {row.text} has no {side.text} side"
  | rowPresence row rule => s!"row {row.text} is {rule.text}"
  | asymmetric row partner => s!"row {row.text} is not symmetric with {partner.text}"
  | dangling dst src => s!"connection {src.text} -> {dst.text} is dangling"
  | illegalPair dst src => s!"connection {src.text} -> {dst.text} is not permitted"
  | incompatible dst src => s!"connection {src.text} -> {dst.text} joins incompatible types"
  | instanceConflict row inst =>
    s!"row {row.text} binds fixed instance {inst.val} to different types"
  | missingSub row => s!"row {row.text} has no sub-GC"
  | subMismatch row => s!"row {row.text} does not match its sub-GC's interface"
  | incomplete dst _ => s!"{dst.text} is unconnected"

end Violation

end GeneGraph
