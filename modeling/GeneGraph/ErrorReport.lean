import GeneGraph.GraphError
import GeneGraph.Json
import GeneGraph.Settings.Key

/-!
# Error reports

An error is reported as a record of its kind, a name that does not change, and its message, if it
has one. An error that is passed on keeps its kind, behind the name of the part it comes from.
-/

namespace GeneGraph

def Json.report (kind message : String) : Json :=
  .record [("error", .text kind), ("message", .text message)]

def Json.silentReport (kind : String) : Json := .record [("error", .text kind)]

def TypeError.kind : TypeError → String
  | .unknownUid _ => "UnknownTypeUid"
  | .unknownName _ => "UnknownTypeName"
  | .badUid (.fieldOutOfRange ..) => "FieldOutOfRange"
  | .badUid (.reservedBits _) => "ReservedBits"
  | .badUid (.wildcardInstance _) | .badEpt _ => "MalformedEpt"
  | .duplicateName _ => "DuplicateName"
  | .duplicateUid _ => "DuplicateUid"
  | .nameLength _ => "NameTooLong"
  | .fieldMismatch .. => "UidFieldMismatch"
  | .unknownParent .. => "UnknownParent"
  | .nominal .. => "Nominal"
  | .wildcardUnresolved _ => "WildcardUnresolved"
  | .json => "Json"

def TypeError.report : TypeError → Json
  | .json => .silentReport "Json"
  | err => .report err.kind err.message

def PoolError.kind : PoolError → String
  | .timeout _ => "Timeout"
  | .notFound _ => "NotFound"
  | .unavailable _ => "Unavailable"

def PoolError.report (err : PoolError) : Json := .report err.kind err.message

def Violation.kind : Violation → String
  | .rowSide .. => "RowSide"
  | .rowPresence .. => "RowPresence"
  | .asymmetric .. => "SymmetricMismatch"
  | .dangling .. => "DanglingEndpoint"
  | .illegalPair .. => "IllegalPair"
  | .incompatible .. => "IncompatibleEpt"
  | .instanceConflict .. => "FixedInstanceConflict"
  | .missingSub .. => "MissingSubGraph"
  | .subMismatch .. => "SubGraphMismatch"
  | .incomplete .. => "Incomplete"

/-- The kind of a violation that is reported as an error. -/
def Violation.Category.kind : Violation.Category → String
  | .presence => "RowPresenceViolation"
  | .connectivity => "ConnectivityViolation"
  | .completeness => "IncompleteGraph"

def GraphError.kind : GraphError → String
  | .type cause => "Type." ++ cause.kind
  | .overflow _ => "InterfaceOverflow"
  | .outOfRange .. => "EndpointOutOfRange"
  | .violation v => v.category.kind
  | .incompatibleKind .. => "IncompatibleGraphType"
  | .missingSub _ => "MissingSubGraph"
  | .stabilizationFailed .. => "StabilizationFailed"
  | .unknownRow _ => "UnknownRow"
  | .unknownKind _ => "UnknownGraphType"
  | .document _ => "MalformedJson"
  | .json => "Json"
  | .pool cause => "GenePool." ++ cause.kind

def GraphError.report (err : GraphError) : Json :=
  match err with
  | .json | .type .json => .silentReport err.kind
  | _ => .report err.kind err.message

/-- The report of a check, by the violation it found. -/
def Violation.report : Option Violation → Json
  | none => .record [("valid", .bool true)]
  | some v =>
    let err := GraphError.violation v
    let required := match v with
      | .incomplete _ row => [("required_source", row.elim .null fun row => .text row.text)]
      | _ => []
    .record ([("valid", .bool false), ("violation", .text v.kind), ("text", .text v.text),
      ("error", .arr [.text err.kind, .text err.message])] ++ required)

/-- The report of a settings error. An error of the storage or of what is stored tells the key
instead of a message. -/
def SettingsError.report (err : SettingsError) : Json :=
  match err with
  | .io key => .record [("error", .text "Io"), ("key", .text key)]
  | .malformed key => .record [("error", .text "Malformed"), ("key", .text key)]
  | .notFound _ => .report "NotFound" err.message
  | .invalidKey _ => .report "InvalidKey" err.message
  | .invalid .. => .report "Invalid" err.message
  | .backend _ => .report "Backend" err.message

end GeneGraph
