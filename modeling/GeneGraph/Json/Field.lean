import GeneGraph.Json.Number

/-!
# Fields of requests

Requests are objects whose fields may come in any order; of equal keys the last one counts. An
unsigned number may also be written as a string of decimal digits.
-/

namespace GeneGraph.Json

def field? (key : String) : Json → Option Json
  | obj fields => (fields.reverse.find? fun e => e.1 = some key).map Prod.snd
  | _ => none

/-- The field of a key, unless it is `null`. -/
def given? (key : String) (j : Json) : Option Json :=
  match j.field? key with
  | some null => none
  | x => x

/-- The number of a string of decimal digits, which a plus sign may precede. -/
def decimal? (s : String) : Option Nat :=
  let ds := match s.toList with
    | '+' :: ds => ds
    | ds => ds
  if ds.isEmpty || !ds.all Char.isDigit then none else some (digitsValue ds)

/-- A natural number up to `max`, as a number or as a string. -/
def asUnsigned? (max : Nat) : Json → Option Nat
  | str (some s) => (decimal? s).filter (· ≤ max)
  | j => j.asNat? max

/-- The object with further fields behind its own. -/
def addFields (extra : List (String × Json)) : Json → Json
  | obj fields => obj (fields ++ extra.map fun e => (some e.1, e.2))
  | j => j

end GeneGraph.Json
