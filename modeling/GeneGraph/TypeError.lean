import GeneGraph.Ept

/-!
# What can be wrong with a type

One constructor for each cause; `TypeError.message` has the wording.
-/

namespace GeneGraph

/-- What a nominal form should go on with. -/
inductive Expected where
  | endOfInput
  | symbol (c : Char)
  | typeName
  deriving DecidableEq, Repr

def Expected.text : Expected → String
  | .endOfInput => "end of input"
  | .symbol c => String.ofList ['\'', c, '\'']
  | .typeName => "a type name"

/-- Why a type cannot be registered, looked up, read or resolved. -/
inductive TypeError where
  | unknownUid (uid : TypeUid)
  | unknownName (name : String)
  | badUid (cause : UidError)
  | badEpt (cause : EptError)
  | duplicateName (name : String)
  | duplicateUid (uid : TypeUid)
  /-- The name has no character, or more than 128. -/
  | nameLength (characters : Nat)
  /-- A declared field of the type `name` disagrees with its identifier. -/
  | fieldMismatch (name : String) (field : UidField)
  /-- A parent of the type `name`, given by name or identifier, is not registered. -/
  | unknownParent (name parent : String)
  /-- The nominal form breaks off at a byte offset. -/
  | nominal (position : Nat) (expected : Expected)
  /-- No input has the position and depth of a wildcard. -/
  | wildcardUnresolved (origin : Origin)
  /-- The type definitions are not JSON of the expected shape. -/
  | json
  deriving DecidableEq, Repr

/-- The part of a message that says why a tree of identifiers is malformed. -/
def EptError.message : EptError → String
  | .arityMismatch head given => s!"{head.text} takes {head.arity.val} template types, got {given}"
  | .trailing count => s!"{count} trailing uids after a complete type"
  | .truncated length => s!"sequence of {length} uids ends inside a template"

/-- The message of an error; JSON errors have none of their own. -/
def TypeError.message : TypeError → String
  | .unknownUid uid => s!"unknown type uid: {uid.text}"
  | .unknownName name => s!"unknown type name: {Text.quoted name}"
  | .badUid (.fieldOutOfRange field value) => s!"uid field {field.text} out of range: {value}"
  | .badUid (.reservedBits word) => s!"reserved uid bits set in {wordText word}"
  | .badUid (.wildcardInstance word) =>
    s!"malformed end point type: uid {wordText word} is both wildcard and fixed-instance"
  | .badEpt cause => s!"malformed end point type: {cause.message}"
  | .duplicateName name => s!"duplicate type name: {Text.quoted name}"
  | .duplicateUid uid => s!"duplicate type uid: {uid.text}"
  | .nameLength characters => s!"type name too long ({characters} chars, max 128)"
  | .fieldMismatch name field =>
    s!"type {Text.quoted name}: declared {field.text} disagrees with its uid"
  | .unknownParent name parent => s!"type {Text.quoted name}: unknown parent {parent}"
  | .nominal position expected =>
    s!"nominal type parse error at {position}: expected {expected.text}"
  | .wildcardUnresolved origin =>
    s!"wildcard unresolved: input {origin.position.val} depth {origin.depth.val}"
  | .json => "type definition json"

end GeneGraph
