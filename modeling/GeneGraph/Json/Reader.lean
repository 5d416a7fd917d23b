import GeneGraph.Json.Number
import GeneGraph.Text.Hex

/-!
# Reading JSON texts

A strict reader: one value with blanks around it, no comments, no trailing commas, no control
characters in strings. `Json.value` reads a value from the front of a text and gives the rest;
its bound on the nesting is the length of the text, which no text exceeds.
-/

namespace GeneGraph.Json

/-- The characters that may stand between the parts of a text. -/
def isBlank (c : Char) : Bool := c = ' ' || c = '\n' || c = '\t' || c = '\r'

/-- The text from the first character on that is no blank. -/
def skipBlanks (cs : List Char) : List Char := cs.dropWhile isBlank

/-! ## Strings -/

/-- A part of a string: a character, or a surrogate that was written as an escape. -/
inductive Piece where
  | char (c : Char)
  | surrogate (n : Nat)

def hexValues? (a b c d : Char) : Option Nat := do
  let a ← Text.hexValue? a
  let b ← Text.hexValue? b
  let c ← Text.hexValue? c
  let d ← Text.hexValue? d
  return ((a * 16 + b) * 16 + c) * 16 + d

/-- The part that a code unit stands for. -/
def Piece.ofUnit (n : Nat) : Piece :=
  if 0xD800 ≤ n ∧ n < 0xE000 then .surrogate n else .char (Char.ofNat n)

def escaped? : Char → Option Char
  | '"' => some '"'
  | '\\' => some '\\'
  | '/' => some '/'
  | 'b' => some '\x08'
  | 'f' => some '\x0c'
  | 'n' => some '\n'
  | 'r' => some '\r'
  | 't' => some '\t'
  | _ => none

/-- Reads the parts of a string up to its closing quote. -/
def pieces? : List Char → Option (List Piece × List Char)
  | [] => none
  | '"' :: cs => some ([], cs)
  | '\\' :: 'u' :: a :: b :: c :: d :: cs => do
    let n ← hexValues? a b c d
    let (ps, rest) ← pieces? cs
    return (.ofUnit n :: ps, rest)
  | '\\' :: e :: cs => do
    let c ← escaped? e
    let (ps, rest) ← pieces? cs
    return (.char c :: ps, rest)
  | c :: cs =>
    if c.toNat < 0x20 ∨ c = '\\' then none
    else do
      let (ps, rest) ← pieces? cs
      return (.char c :: ps, rest)

/-- The characters of a string: a high and a low surrogate make one, any other surrogate
leaves the string without text. -/
def joinPieces? : List Piece → Option (List Char)
  | [] => some []
  | .char c :: ps => (joinPieces? ps).map (c :: ·)
  | .surrogate h :: .surrogate l :: ps =>
    if h < 0xDC00 ∧ 0xDC00 ≤ l then
      (joinPieces? ps).map (Char.ofNat (0x10000 + (h - 0xD800) * 0x400 + (l - 0xDC00)) :: ·)
    else none
  | .surrogate _ :: _ => none

/-- Reads a string whose opening quote is already read. -/
def string? (cs : List Char) : Option (Option String × List Char) := do
  let (ps, rest) ← pieces? cs
  return ((joinPieces? ps).map String.ofList, rest)

/-! ## Values -/

mutual

def value? : Nat → List Char → Option (Json × List Char)
  | 0, _ => none
  | n + 1, cs =>
    match skipBlanks cs with
    | 'n' :: 'u' :: 'l' :: 'l' :: cs => some (.null, cs)
    | 't' :: 'r' :: 'u' :: 'e' :: cs => some (.bool true, cs)
    | 'f' :: 'a' :: 'l' :: 's' :: 'e' :: cs => some (.bool false, cs)
    | '"' :: cs => (string? cs).map fun (s, rest) => (.str s, rest)
    | '[' :: cs =>
      match skipBlanks cs with
      | ']' :: cs => some (.arr [], cs)
      | cs => (items? n cs).map fun (js, rest) => (.arr js, rest)
    | '{' :: cs =>
      match skipBlanks cs with
      | '}' :: cs => some (.obj [], cs)
      | cs => (fieldsOf? n cs).map fun (fs, rest) => (.obj fs, rest)
    | cs => number? cs

/-- Reads the items of an array, of which there is at least one, and the closing bracket. -/
def items? : Nat → List Char → Option (List Json × List Char)
  | 0, _ => none
  | n + 1, cs =>
    match value? n cs with
    | none => none
    | some (j, cs) =>
      match skipBlanks cs with
      | ',' :: cs => (items? n cs).map fun (js, rest) => (j :: js, rest)
      | ']' :: cs => some ([j], cs)
      | _ => none

/-- Reads the fields of an object, of which there is at least one, and the closing brace. -/
def fieldsOf? : Nat → List Char → Option (List (Option String × Json) × List Char)
  | 0, _ => none
  | n + 1, cs =>
    match skipBlanks cs with
    | '"' :: cs =>
      match string? cs with
      | none => none
      | some (key, cs) =>
        match skipBlanks cs with
        | ':' :: cs =>
          match value? n cs with
          | none => none
          | some (j, cs) =>
            match skipBlanks cs with
            | ',' :: cs => (fieldsOf? n cs).map fun (fs, rest) => ((key, j) :: fs, rest)
            | '}' :: cs => some ([(key, j)], cs)
            | _ => none
        | _ => none
    | _ => none

end

def ofChars? (cs : List Char) : Option Json :=
  match value? (cs.length + 1) cs with
  | some (j, rest) => if (skipBlanks rest).isEmpty then some j else none
  | none => none

def ofString? (s : String) : Option Json := ofChars? s.toList

end GeneGraph.Json
