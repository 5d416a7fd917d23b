/-!
# JSON values

The tree of a JSON text. It keeps what later decides whether the text may be used: equal keys
and their order, numbers that are no machine integers, and strings with an unpaired surrogate
escape, which have no text. Such a part is refused where its value is asked for (`Json.sound`)
and passed over where it is not.
-/

namespace GeneGraph

/-- A JSON value. -/
inductive Json where
  | null
  | bool (b : Bool)
  /-- A number without fraction and exponent, from -2⁶³ to 2⁶⁴ - 1; `-0` is not one. -/
  | int (n : Int)
  /-- Any other number as it is written, and whether it is in the range of doubles. -/
  | real (written : List Char) (inRange : Bool)
  /-- A string; without text, if it has an unpaired surrogate escape. -/
  | str (s : Option String)
  | arr (items : List Json)
  | obj (fields : List (Option String × Json))
  deriving Inhabited

namespace Json

def text (s : String) : Json := str (some s)

def nat (n : Nat) : Json := int n

def record (fields : List (String × Json)) : Json := obj (fields.map fun e => (some e.1, e.2))

/-! ## Reading values -/

def asText? : Json → Option String
  | str s => s
  | _ => none

/-- An integer from `lo` to `hi`. -/
def asInt? (lo hi : Int) : Json → Option Int
  | int n => if lo ≤ n ∧ n ≤ hi then some n else none
  | _ => none

/-- A natural number up to `max`. -/
def asNat? (max : Nat) (j : Json) : Option Nat := (j.asInt? 0 max).map Int.toNat

def asList? {α : Type} (f : Json → Option α) : Json → Option (List α)
  | arr items => items.mapM f
  | _ => none

/-- `null`, or a value read by `f`. -/
def asOption? {α : Type} (f : Json → Option α) : Json → Option (Option α)
  | null => some none
  | j => (f j).map some

/-- The fields of an object whose keys all have a text, in their order. -/
def asEntries? : Json → Option (List (String × Json))
  | obj fields => fields.mapM fun e => e.1.map fun key => (key, e.2)
  | _ => none

/-- Puts the value of a field into its place among `names`; an unknown key is passed over, a
known key that comes again is refused. -/
def placeField (names : List String) (slots : List (Option Json)) (key : String) (v : Json) :
    Option (List (Option Json)) :=
  match names.idxOf? key with
  | none => some slots
  | some i =>
    match slots[i]? with
    | some none => some (slots.set i (some v))
    | _ => none

/-- The fields of a record in the order of `names`: from an object by their keys, or from an
array by their places. Fields may be missing. -/
def fields? (names : List String) : Json → Option (List (Option Json))
  | obj fields =>
    fields.foldlM
      (fun slots e => e.1.bind fun key => placeField names slots key e.2)
      (names.map fun _ => none)
  | arr items =>
    if items.length ≤ names.length then
      some (items.map some ++ List.replicate (names.length - items.length) none)
    else none
  | _ => none

/-- One of the named cases: its name, or an object with the name as key and `null` under it. -/
def case? : Json → Option String
  | str s => s
  | obj [(key, null)] => key
  | _ => none

/-! ## Soundness -/

mutual

/-- The value can be kept as a whole: its strings and keys have a text, its numbers are in
range, and it nests less than `depth` deep. -/
def sound (depth : Nat) : Json → Bool
  | null | bool _ | int _ => true
  | real _ inRange => inRange
  | str s => s.isSome
  | arr items =>
    match depth with
    | 0 => false
    | d + 1 => allSound d items
  | obj fields =>
    match depth with
    | 0 => false
    | d + 1 => allFieldsSound d fields

/-- Every item can be kept. -/
def allSound (depth : Nat) : List Json → Bool
  | [] => true
  | j :: js => j.sound depth && allSound depth js

/-- Every key and value can be kept. -/
def allFieldsSound (depth : Nat) : List (Option String × Json) → Bool
  | [] => true
  | (key, j) :: rest => key.isSome && j.sound depth && allFieldsSound depth rest

end

end Json

end GeneGraph
