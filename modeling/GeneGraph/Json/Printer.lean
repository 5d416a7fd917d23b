import GeneGraph.Json
import GeneGraph.Text.Hex

/-!
# Writing JSON texts

`Json.compact` writes a value without any blanks, `Json.indented` with one item or field on a
line and two blanks for each level. In strings only quotes, backslashes and control characters
are escaped.
-/

namespace GeneGraph.Json

def stringChar (c : Char) : List Char :=
  if c = '"' then ['\\', '"']
  else if c = '\\' then ['\\', '\\']
  else if c = '\x08' then ['\\', 'b']
  else if c = '\x0c' then ['\\', 'f']
  else if c = '\n' then ['\\', 'n']
  else if c = '\r' then ['\\', 'r']
  else if c = '\t' then ['\\', 't']
  else if c.toNat < 0x20 then ['\\', 'u'] ++ Text.hexPadded 4 c.toNat
  else [c]

def stringChars (s : String) : List Char := '"' :: s.toList.flatMap stringChar ++ ['"']

/-- A string in quotes; one without text is written as an empty one. -/
def keyChars (s : Option String) : List Char := stringChars (s.getD "")

def intChars (n : Int) : List Char :=
  if n < 0 then '-' :: Nat.toDigits 10 n.natAbs else Nat.toDigits 10 n.natAbs

mutual

def compactChars : Json → List Char
  | null => ['n', 'u', 'l', 'l']
  | bool true => ['t', 'r', 'u', 'e']
  | bool false => ['f', 'a', 'l', 's', 'e']
  | int n => intChars n
  | real written _ => written
  | str s => keyChars s
  | arr [] => ['[', ']']
  | arr (j :: js) => '[' :: compactChars j ++ compactItems js ++ [']']
  | obj [] => ['\x7b', '\x7d']
  | obj ((key, j) :: fs) =>
    '\x7b' :: keyChars key ++ ':' :: compactChars j ++ compactFields fs ++ ['\x7d']

/-- Writes the items after the first. -/
def compactItems : List Json → List Char
  | [] => []
  | j :: js => ',' :: compactChars j ++ compactItems js

/-- Writes the fields after the first. -/
def compactFields : List (Option String × Json) → List Char
  | [] => []
  | (key, j) :: fs => ',' :: keyChars key ++ ':' :: compactChars j ++ compactFields fs

end

def newLine (level : Nat) : List Char := '\n' :: List.replicate (2 * level) ' '

mutual

/-- Writes a value that starts at a level, on several lines. -/
def indentedChars (level : Nat) : Json → List Char
  | null => ['n', 'u', 'l', 'l']
  | bool true => ['t', 'r', 'u', 'e']
  | bool false => ['f', 'a', 'l', 's', 'e']
  | int n => intChars n
  | real written _ => written
  | str s => keyChars s
  | arr [] => ['[', ']']
  | arr (j :: js) =>
    '[' :: newLine (level + 1) ++ indentedChars (level + 1) j ++ indentedItems (level + 1) js ++
      newLine level ++ [']']
  | obj [] => ['\x7b', '\x7d']
  | obj ((key, j) :: fs) =>
    '\x7b' :: newLine (level + 1) ++ keyChars key ++ ':' :: ' ' :: indentedChars (level + 1) j ++
      indentedFields (level + 1) fs ++ newLine level ++ ['\x7d']

/-- Writes the items after the first, each on its line. -/
def indentedItems (level : Nat) : List Json → List Char
  | [] => []
  | j :: js => ',' :: newLine level ++ indentedChars level j ++ indentedItems level js

/-- Writes the fields after the first, each on its line. -/
def indentedFields (level : Nat) : List (Option String × Json) → List Char
  | [] => []
  | (key, j) :: fs =>
    ',' :: newLine level ++ keyChars key ++ ':' :: ' ' :: indentedChars level j ++
      indentedFields level fs

end

def compact (j : Json) : String := String.ofList j.compactChars

/-- Writes a value with one item or field on a line. -/
def indented (j : Json) : String := String.ofList (j.indentedChars 0)

end GeneGraph.Json
