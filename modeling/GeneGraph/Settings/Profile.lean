import GeneGraph.Json.Printer
import GeneGraph.Settings.Store
import GeneGraph.Tuning

/-!
# Stored tunings and profiles

The base tuning is stored whole. A profile stores only the fields in which it differs from the
base, and is loaded by laying these fields over the base as it is then. Every tuning is checked
when it is loaded and when it is saved.
-/

namespace GeneGraph.Settings

variable {σ : Type} [SettingsStore σ]

/-- The fields of a JSON object, of equal keys the last. -/
abbrev Fields := SortedMap String Json

def fieldsOf? (data : ByteArray) : Option Fields := do
  let j ← String.fromUTF8? data >>= Json.ofString?
  if j.sound maxDepth then return SortedMap.ofList (← j.asEntries?) else none
where
  /-- How deep a stored value may nest. -/
  maxDepth : Nat := 127

/-- The text of fields, one on a line. -/
def textOf (fields : Fields) : String := (Json.record fields.toList).indented

/-- The fields stored under a key; none, if nothing or an empty blob is stored. -/
def loadFields (key : String) : Access σ (Option Fields) := do
  let data ← tryCatch (some <$> SettingsStore.loadRaw key) fun err =>
    match err with
    | .notFound _ => return none
    | err => throw err
  match data with
  | none => return none
  | some data =>
    if data.isEmpty then return none
    else
      match fieldsOf? data with
      | none => throw (.malformed key)
      | some fields => return some fields

/-- Complains of a tuning that is out of range. -/
def check (key : String) (t : Tuning) : Except SettingsError Unit :=
  match t.fault? with
  | some reason => .error (.invalid key reason)
  | none => .ok ()

/-- The tuning that fields stand for. -/
def tuningOf (key : String) (fields : Fields) : Except SettingsError Tuning := do
  match Tuning.ofMap? fields with
  | none => throw (.malformed key)
  | some t =>
    check key t
    return t

def saveFields (key : String) (fields : Fields) : Access σ Unit :=
  SettingsStore.saveRaw key (textOf fields).toUTF8

/-- The base tuning; the default, if none is stored. -/
def load : Access σ Tuning := do
  match ← loadFields baseKey with
  | none => return .default
  | some fields => tuningOf baseKey fields

def save (t : Tuning) : Access σ Unit := do
  check baseKey t
  saveFields baseKey t.toMap

/-- The base tuning with the fields of a profile laid over it. -/
def loadProfile (name : String) : Access σ Tuning := do
  let key ← profileKey name
  match ← loadFields key with
  | none => throw (.notFound key)
  | some fields =>
    let base : Tuning ← load
    tuningOf key (base.toMap.insertAll fields.toList)

/-- Fields of `t` that differ from those of `base`. -/
def changedFields (base t : Tuning) : Fields :=
  SortedMap.ofList
    (((Tuning.fieldNames.zip (base.values.zip t.values)).filter fun e => e.2.1 ≠ e.2.2).map
      fun e => (e.1, Json.nat e.2.2))

/-- Stores a profile: the fields that differ from the base tuning as it is now. -/
def saveProfile (name : String) (t : Tuning) : Access σ Unit := do
  let key ← profileKey name
  check key t
  let base ← load
  saveFields key (changedFields base t)

/-- The names of the profiles, ascending. -/
def profiles : Access σ (List String) := do
  return (← SettingsStore.keys).filterMap profileName?

end GeneGraph.Settings
