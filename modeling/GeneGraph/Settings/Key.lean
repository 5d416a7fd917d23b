import GeneGraph.Text.Quoted

/-!
# Keys of settings

Settings are kept under keys: segments of letters, digits, hyphens and underscores, joined by
dots. The base tuning has the key `stabilizer`, and the profile `name` the key
`stabilizer.name`.
-/

namespace GeneGraph

/-- Why settings cannot be read or written. -/
inductive SettingsError where
  /-- Nothing is stored under the key. -/
  | notFound (key : String)
  /-- The key, or the name of a profile, is not of the accepted form. -/
  | invalidKey (key : String)
  /-- The storage failed. -/
  | io (key : String)
  /-- What is stored under the key is no JSON of the expected shape. -/
  | malformed (key : String)
  /-- A value is out of range. -/
  | invalid (key reason : String)
  /-- The store failed for a reason of its own. -/
  | backend (reason : String)
  deriving DecidableEq, Repr

/-- The message of an error; the storage and JSON errors have none of their own. -/
def SettingsError.message : SettingsError → String
  | .notFound key => s!"no config stored under {Text.quoted key}"
  | .invalidKey key => s!"{Text.quoted key} is not a usable config key"
  | .io key => s!"config {Text.quoted key}"
  | .malformed key => s!"config {Text.quoted key} is malformed"
  | .invalid key reason => s!"invalid config {Text.quoted key}: {reason}"
  | .backend reason => s!"config store: {reason}"

namespace Settings

def isSegmentChar (c : Char) : Bool := c.isAlphanum || c = '-' || c = '_'

/-- Two dots stand next to each other. -/
def hasDoubleDot : List Char → Bool
  | '.' :: '.' :: _ => true
  | _ :: cs => hasDoubleDot cs
  | [] => false

/-- The key is not empty, has no other characters, and has dots only between segments. -/
def isKey (key : String) : Bool :=
  let cs := key.toList
  !cs.isEmpty && cs.all (fun c => isSegmentChar c || c = '.') && cs.head? ≠ some '.' &&
    cs.getLast? ≠ some '.' && !hasDoubleDot cs

/-- Complains of a key that is not of the accepted form. -/
def checkKey (key : String) : Except SettingsError Unit :=
  if isKey key then .ok () else .error (.invalidKey key)

def baseKey : String := "stabilizer"

/-- What the keys of profiles begin with. -/
def profileStart : String := baseKey ++ "."

/-- The key of a profile, whose name has to be one segment. -/
def profileKey (name : String) : Except SettingsError String :=
  if !name.isEmpty && name.toList.all isSegmentChar then .ok (profileStart ++ name)
  else .error (.invalidKey name)

/-- The text behind another text at its beginning. -/
def stripStart? (start cs : List Char) : Option (List Char) :=
  if start.isPrefixOf cs then some (cs.drop start.length) else none

/-- What follows the beginning of a profile's key. -/
def profileName? (key : String) : Option String :=
  (stripStart? profileStart.toList key.toList).map String.ofList

end Settings

end GeneGraph
