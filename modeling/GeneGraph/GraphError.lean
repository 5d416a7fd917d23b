import GeneGraph.Digest
import GeneGraph.TypeError
import GeneGraph.Violation

/-!
# What can go wrong with graphs

One constructor for each cause; the `message` functions have the wording.
-/

namespace GeneGraph

/-- A placement of an inserted code inside a target. -/
inductive Above where
  /-- Between the inputs and sub-code A. -/
  | A
  /-- Between the feeders of sub-code B and sub-code B. -/
  | B
  /-- Between sub-code B and the outputs. -/
  | O
  deriving DecidableEq, Repr

/-- A way to insert one code into another. -/
inductive InsertOp where
  /-- The inserted code runs before the target. -/
  | stack
  /-- The inserted code runs after the target. -/
  | inverseStack
  /-- The inserted code takes on the interface of the target. -/
  | wrap
  /-- The inserted code is spliced into the target. -/
  | restructure (above : Above)
  deriving DecidableEq, Repr

def InsertOp.text : InsertOp → String
  | .stack => "stack"
  | .inverseStack => "inverse stack"
  | .wrap => "wrap"
  | .restructure .A => "restructure above A"
  | .restructure .B => "restructure above B"
  | .restructure .O => "restructure above O"

/-- A part in an insertion. -/
inductive Operand where
  | target
  | insert
  deriving DecidableEq, Repr

def Operand.text : Operand → String
  | .target => "target"
  | .insert => "insert"

/-- Why a gene pool gives no answer. -/
inductive PoolError where
  /-- The query took longer than so many milliseconds. -/
  | timeout (milliseconds : Nat)
  /-- No code of this digest is held. -/
  | notFound (digest : Digest)
  | unavailable (reason : String)
  deriving DecidableEq

/-- Why a document is not a consistent graph. -/
inductive DocumentFault where
  /-- Of source row and index, one is missing. -/
  | halfSource
  /-- An entry of row U names no source. -/
  | unnamedSource
  /-- The consumers of a source differ in type. -/
  | ambiguous (src : EndPoint)
  /-- The sources of a row leave an index out. -/
  | gap (src : EndPoint)
  deriving DecidableEq, Repr

/-- Why an operation on graphs fails. -/
inductive GraphError where
  | type (cause : TypeError)
  /-- An interface would have so many elements. -/
  | overflow (elements : Nat)
  /-- An interface of length `length` has no such index. -/
  | outOfRange (index length : Nat)
  | violation (v : Violation)
  /-- An operand has a kind that the operation does not take. -/
  | incompatibleKind (op : InsertOp) (operand : Operand) (kind : GraphKind)
  /-- The row has no sub-code to displace. -/
  | missingSub (row : Row)
  /-- Destinations remain without source after so many repairs. -/
  | stabilizationFailed (remaining attempts : Nat)
  | unknownRow (name : String)
  | unknownKind (name : String)
  | document (fault : DocumentFault)
  /-- The document is not JSON of the expected shape. -/
  | json
  | pool (cause : PoolError)
  deriving DecidableEq

/-- The row of a name, or the error that there is none. -/
def Row.named (name : String) : Except GraphError Row :=
  match Row.ofText? name with
  | some row => .ok row
  | none => .error (.unknownRow name)

/-- The kind of a name, or the error that there is none. -/
def GraphKind.named (name : String) : Except GraphError GraphKind :=
  match GraphKind.ofText? name with
  | some kind => .ok kind
  | none => .error (.unknownKind name)

/-- A time in milliseconds: whole milliseconds below a second, above it seconds with as many
places as they need. -/
def durationText (milliseconds : Nat) : String :=
  let s := milliseconds / 1000
  let ms := milliseconds % 1000
  if milliseconds = 0 then "0ns"
  else if s = 0 then s!"{ms}ms"
  else
    let places := [ms / 100, ms / 10 % 10, ms % 10]
    let shown := (places.reverse.dropWhile (· = 0)).reverse
    if shown.isEmpty then s!"{s}s"
    else s!"{s}." ++ String.join (shown.map fun d => s!"{d}") ++ "s"

def PoolError.message : PoolError → String
  | .timeout milliseconds => s!"gene pool query timed out after {durationText milliseconds}"
  | .notFound digest => s!"gene pool has no code {digest.text}"
  | .unavailable reason => s!"gene pool unavailable: {reason}"

def DocumentFault.message : DocumentFault → String
  | .halfSource => "source row and index must both be set or both null"
  | .unnamedSource => "row U entries must name a source"
  | .ambiguous src => s!"type of source {src.text} is ambiguous"
  | .gap src => s!"source indices of row {src.row.text} are not contiguous at {src.index}"

/-- The wording that precedes a violation. -/
def Violation.Category.text : Violation.Category → String
  | .presence => "row presence violation"
  | .connectivity => "connectivity violation"
  | .completeness => "incomplete graph"

/-- The message of an error; JSON errors have none of their own. -/
def GraphError.message : GraphError → String
  | .type cause => cause.message
  | .overflow elements => s!"interface overflow: {elements} elements (max 256)"
  | .outOfRange index length => s!"end point index {index} out of range (len {length})"
  | .violation v => s!"{v.category.text}: {v.text}"
  | .incompatibleKind op operand kind =>
    s!"{op.text}: {operand.text} graph of type {kind.text} is not permitted"
  | .missingSub row => s!"missing sub-graph in row {row.text}"
  | .stabilizationFailed remaining attempts =>
    s!"stabilization failed: {remaining} unconnected end points after {attempts} attempts"
  | .unknownRow name => s!"unknown row: {Text.quoted name}"
  | .unknownKind name => s!"unknown graph type: {Text.quoted name}"
  | .document fault => s!"malformed graph json: {fault.message}"
  | .json => "graph json"
  | .pool cause => s!"gene pool: {cause.message}"

end GeneGraph
