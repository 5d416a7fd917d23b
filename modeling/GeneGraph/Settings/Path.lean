import GeneGraph.Settings.Key

/-!
# Paths of files

A path is names joined by slashes. The file system takes names of up to 255 bytes and paths of
up to 4095 bytes. The default directory of the settings is `egp` in the configuration directory
of the user.
-/

namespace GeneGraph

namespace Path

/-- The longest name, in bytes. -/
def maxNameBytes : Nat := 255

/-- The longest path, in bytes. -/
def maxBytes : Nat := 4095

/-- The names between the slashes. -/
def names : List Char → List (List Char)
  | [] => [[]]
  | '/' :: cs => [] :: names cs
  | c :: cs =>
    match names cs with
    | [] => [[c]]
    | n :: ns => (c :: n) :: ns

/-- The text is short enough for a name. -/
def fitsName (name : String) : Bool := name.utf8ByteSize ≤ maxNameBytes

/-- The text is short enough for a path, and so is each of its names for a name. -/
def fits (path : String) : Bool :=
  path.utf8ByteSize ≤ maxBytes && (names path.toList).all fun n => fitsName (String.ofList n)

/-- The text names one entry of a directory. A single dot names the directory itself and two
dots its parent. -/
def isEntryName (name : String) : Bool :=
  name ≠ "" && name ≠ "." && name ≠ ".." && !name.toList.contains '/'

def join (directory path : String) : String :=
  if directory.endsWith "/" then directory ++ path else directory ++ "/" ++ path

/-- The rest of a path behind the slashes and the single dots at its beginning, which lead
nowhere. -/
def strip : List Char → List Char
  | '/' :: cs => strip cs
  | '.' :: '/' :: cs => strip cs
  | cs => cs

end Path

namespace Settings

/-- The default directory: in the configuration directory, if one is set by an absolute path, and
otherwise in `.config` of the home directory. -/
def defaultDirectory (home : String) (configured : Option String) : String :=
  let base := match configured.filter fun path => path.startsWith "/" with
    | some path => path
    | none => Path.join home ".config"
  Path.join base "egp"

end Settings

end GeneGraph
