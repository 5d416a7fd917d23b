import GeneGraph.Registry
import GeneGraph.Text.Blank

/-!
# The nominal form of a type

A type is written by its registered name and, if it takes template types, their nominal forms
in brackets: `dict[str, list[int]]`. Blanks may stand between the parts.

`Nominal.tokens` cuts a text into names and symbols with their byte offsets, and
`Nominal.parse` goes through them with the list of what has to follow: a name brings in the
brackets and types that its number of template types asks for.
-/

namespace GeneGraph

namespace Nominal

/-- Characters that stand for themselves between names. -/
def isSymbol (c : Char) : Bool := c = '[' || c = ']' || c = ','

/-- A part of a nominal form. -/
inductive Token where
  | symbol (c : Char)
  | name (s : List Char)
  deriving DecidableEq

/-- A token or the end of the text, with the byte offset at which it starts. -/
abbrev Placed := Nat × Option Token

/-- Puts a name character at `pos` before the tokens, into the name that starts right after
it, if there is one. -/
def extendName (c : Char) (pos : Nat) : List Placed → List Placed
  | (p, some (.name s)) :: ts =>
    if p = pos + c.utf8Size then (pos, some (.name (c :: s))) :: ts
    else (pos, some (.name [c])) :: (p, some (.name s)) :: ts
  | ts => (pos, some (.name [c])) :: ts

/-- The tokens of a text that starts at a byte offset, with the end of the text last. -/
def tokens (pos : Nat) : List Char → List Placed
  | [] => [(pos, none)]
  | c :: cs =>
    let rest := tokens (pos + c.utf8Size) cs
    if Text.isBlank c then rest
    else if isSymbol c then (pos, some (.symbol c)) :: rest
    else extendName c pos rest

/-- What has to follow after the name of a type with `n` template types. -/
def expectations : Nat → List Expected
  | 0 => []
  | n + 1 =>
    .symbol '[' :: .typeName :: (List.replicate n [.symbol ',', .typeName]).flatten ++
      [.symbol ']']

/-- Goes through the tokens with the list of what has to follow, and gives the identifiers of
the names in order. -/
def parseTokens (r : Registry) : List Expected → List Placed → Except TypeError (List TypeUid)
  | [], (_, none) :: _ => .ok []
  | [], (pos, some _) :: _ => .error (.nominal pos .endOfInput)
  | .typeName :: next, (_, some (.name s)) :: ts => do
    let d ← r.lookup (String.ofList s)
    return d.uid :: (← parseTokens r (expectations d.uid.arity ++ next) ts)
  | .symbol c :: next, (pos, some (.symbol c')) :: ts =>
    if c = c' then parseTokens r next ts else .error (.nominal pos (.symbol c))
  | x :: _, (pos, _) :: _ => .error (.nominal pos x)
  | _, [] => .ok []

def parse (r : Registry) (s : String) : Except TypeError Ept := do
  let us ← parseTokens r [.typeName] (tokens 0 s.toList)
  (Ept.ofFlat us).mapError .badEpt

/-- Writes a type in nominal form; an identifier that is not registered is written as a word. -/
def display (r : Registry) : Ept → String
  | .node h args =>
    let name := match r.find? h with
      | some d => d.name
      | none => h.text
    if h.arity = 0 then name
    else name ++ "[" ++ ", ".intercalate (List.ofFn fun i => display r (args i)) ++ "]"

end Nominal

end GeneGraph
