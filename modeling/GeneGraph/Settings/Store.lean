import GeneGraph.Procedure
import GeneGraph.Settings.Path
import GeneGraph.SortedMap

/-!
# Stores of settings

A store keeps bytes under keys. `MemoryStore` keeps them in memory, counts the calls and can be
told to fail; `Directory` keeps each key in a file of its own in a directory.
-/

namespace GeneGraph

/-- What a store is asked for or told. -/
abbrev Access (σ α : Type) := Procedure SettingsError σ α

/-- A store of bytes under keys. -/
class SettingsStore (σ : Type) where
  /-- The bytes under a key. -/
  loadRaw : String → Access σ ByteArray
  /-- Replaces the bytes under a key. -/
  saveRaw : String → ByteArray → Access σ Unit
  /-- The keys, ascending. -/
  keys : Access σ (List String)

/-! ## In memory -/

/-- A store in memory. -/
structure MemoryStore where
  blobs : SortedMap String ByteArray
  /-- The attempts to load. -/
  loads : Nat
  /-- The attempts to save. -/
  saves : Nat
  /-- Every attempt to load fails. -/
  failLoads : Bool
  /-- Every attempt to save fails. -/
  failSaves : Bool

namespace MemoryStore

def empty : MemoryStore := ⟨.empty, 0, 0, false, false⟩

def single (key : String) (data : ByteArray) : MemoryStore :=
  { empty with blobs := SortedMap.empty.insert key data }

/-- The keys, ascending. -/
def keys (m : MemoryStore) : List String := m.blobs.keys

/-- The bytes under a key, without an attempt to load. -/
def peek? (m : MemoryStore) (key : String) : Option ByteArray := m.blobs.get? key

/-- The bytes under a key. Any text can be a key. -/
def loadRaw (key : String) : Access MemoryStore ByteArray := do
  modify fun m => { m with loads := m.loads + 1 }
  let m ← get
  if m.failLoads then throw (.backend "simulated load failure")
  match m.peek? key with
  | some data => return data
  | none => throw (.notFound key)

def saveRaw (key : String) (data : ByteArray) : Access MemoryStore Unit := do
  modify fun m => { m with saves := m.saves + 1 }
  if (← get).failSaves then throw (.backend "simulated save failure")
  modify fun m => { m with blobs := m.blobs.insert key data }

instance : SettingsStore MemoryStore where
  loadRaw := loadRaw
  saveRaw := saveRaw
  keys := return (← get).keys

end MemoryStore

/-! ## In a directory -/

/-- What a name in a directory stands for. -/
inductive FileEntry where
  | file (data : ByteArray)
  | directory

/-- A directory, without entries once it is gone. -/
structure Directory where
  /-- Where it lies. -/
  path : String
  entries : Option (SortedMap String FileEntry)

namespace Directory

/-- A new directory at a path that the file system takes and where no file stands in its way. -/
def create (path : String) (occupied : Bool) : Except SettingsError Directory :=
  if occupied || !Path.fits path then .error (.io ".") else .ok ⟨path, some .empty⟩

/-- The name of the file of a key. -/
def fileName (key : String) : String := key ++ ".json"

/-- The name of the file that is written first and takes the place of the file of a key when it
is complete. -/
def stagedName (key : String) : String := fileName key ++ ".tmp"

def keyOf? (name : String) : Option String :=
  let cs := name.toList
  let stem := cs.take (cs.length - 5)
  if !stem.isEmpty && fileName (String.ofList stem) = name && Settings.isKey (String.ofList stem)
  then some (String.ofList stem)
  else none

/-- The names of the entries, ascending. -/
def names? (d : Directory) : Option (List String) := d.entries.map SortedMap.keys

/-- The keys of the entries, ascending; directories count like files. -/
def keys (d : Directory) : List String :=
  (SortedMap.ofList (((d.names?.getD []).filterMap keyOf?).map fun key => (key, ()))).keys

/-- An entry can have the name: it is short enough and has no null character. -/
def accepts (name : String) : Bool := Path.fitsName name && !name.toList.contains '\x00'

/-- Writes a file: there has to be a directory, and no directory of that name. -/
def writeFile (d : Directory) (name : String) (data : ByteArray) : Option Directory := do
  let entries ← d.entries
  if !accepts name then none
  else
    match entries.get? name with
    | some .directory => none
    | _ => return { d with entries := some (entries.insert name (.file data)) }

/-- Makes a directory, unless the name is taken. -/
def makeDirectory (d : Directory) (name : String) : Option Directory := do
  let entries ← d.entries
  if !accepts name || entries.contains name then none
  else return { d with entries := some (entries.insert name .directory) }

/-- Gives a file another name, unless there is a directory of that name. -/
def rename (d : Directory) (old new : String) : Option Directory := do
  let entries ← d.entries
  match entries.get? old, entries.get? new with
  | some e, some (.file _) | some e, none =>
    return { d with entries := some ((entries.erase old).insert new e) }
  | _, _ => none

def remove (d : Directory) : Option Directory := d.entries.map fun _ => { d with entries := none }

/-- The path of an entry is short enough to be looked up. -/
def reaches (d : Directory) (name : String) : Bool :=
  (Path.join d.path name).utf8ByteSize ≤ Path.maxBytes

/-- The bytes under a key. A path that is too long is refused before anything is looked up, a name
that is too long only in a directory; where there is no directory there is no key. -/
def loadRaw (key : String) : Access Directory ByteArray := do
  Settings.checkKey key
  if !(← get).reaches (fileName key) then throw (.io key)
  match (← get).entries with
  | none => throw (.notFound key)
  | some entries =>
    if !Path.fitsName (fileName key) then throw (.io key)
    match entries.get? (fileName key) with
    | none => throw (.notFound key)
    | some .directory => throw (.io key)
    | some (.file data) => return data

/-- Replaces the bytes under a key. If a directory stands in the way, the staged file is left
behind. -/
def saveRaw (key : String) (data : ByteArray) : Access Directory Unit := do
  Settings.checkKey key
  match (← get).writeFile (stagedName key) data with
  | none => throw (.io key)
  | some d => set d
  match (← get).rename (stagedName key) (fileName key) with
  | none => throw (.io key)
  | some d => set d

instance : SettingsStore Directory where
  loadRaw := loadRaw
  saveRaw := saveRaw
  keys := return (← get).keys

end Directory

end GeneGraph
