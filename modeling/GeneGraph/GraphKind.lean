import GeneGraph.Row

/-!
# Kinds of graphs

A kind says which rows a graph has (`GraphKind.presence`) and from which rows each row may be fed
(`GraphKind.feeders`).
-/

namespace GeneGraph

/-- The kind of a connection graph. -/
inductive GraphKind where
  /-- A codon: no sub-code, nothing to be wired. -/
  | primitive
  /-- An interface without a body. -/
  | empty
  /-- Sub-code A, then sub-code B. -/
  | standard
  /-- Sub-code A if F holds; otherwise P is passed through. -/
  | ifThen
  /-- Sub-code A if F holds, otherwise sub-code B. -/
  | ifThenElse
  /-- Sub-code A once for each element of L, with state S becoming T. -/
  | forLoop
  /-- Sub-code A as long as W holds, with X as the next condition. -/
  | whileLoop
  deriving DecidableEq, Repr

/-- The rule for the presence of a row. -/
inductive Presence where
  | required
  | forbidden
  | optional
  /-- One of the rows has to be present. -/
  | atLeastOneOf (rows : List Row)
  /-- Present exactly when the partner is, with the same destinations. -/
  | symmetric (partner : Row) (required : Bool)
  deriving DecidableEq, Repr

def Presence.text : Presence → String
  | .required => "required"
  | .forbidden => "forbidden"
  | .optional => "optional"
  | .atLeastOneOf rows => "at least one of " ++ String.join (rows.map Row.text)
  | .symmetric partner needed =>
    (if needed then "required, " else "") ++ "symmetric with " ++ partner.text

namespace GraphKind

def all : List GraphKind :=
  [primitive, empty, standard, ifThen, ifThenElse, forLoop, whileLoop]

def text : GraphKind → String
  | primitive => "Primitive"
  | empty => "Empty"
  | standard => "Standard"
  | ifThen => "IfThen"
  | ifThenElse => "IfThenElse"
  | forLoop => "ForLoop"
  | whileLoop => "WhileLoop"

def ofText? (s : String) : Option GraphKind := all.find? fun k => k.text = s

/-- The kind branches or loops. -/
def isConditional : GraphKind → Bool
  | primitive | empty | standard => false
  | ifThen | ifThenElse | forLoop | whileLoop => true

/-- Destinations may stay without a source. -/
def isWiringExempt : GraphKind → Bool
  | primitive | empty => true
  | _ => false

def presence : GraphKind → Row → Presence
  | _, .U => .forbidden
  | primitive, .I | primitive, .O | empty, .I | empty, .O | standard, .I | standard, .O =>
    .atLeastOneOf [.I, .O]
  | primitive, .A => .optional
  | standard, .A | standard, .B => .required
  | primitive, _ | empty, _ | standard, _ => .forbidden
  | _, .O => .symmetric .P false
  | _, .P => .symmetric .O false
  | _, .I | _, .A => .required
  | ifThen, .F | ifThenElse, .F => .required
  | ifThenElse, .B => .required
  | forLoop, .L => .required
  | forLoop, .S => .symmetric .T false
  | forLoop, .T => .symmetric .S false
  | whileLoop, .W => .symmetric .X true
  | whileLoop, .X => .symmetric .W true
  | _, _ => .forbidden

/-- The rows that may be fed, each with the rows that may feed it. -/
def table : GraphKind → List (Row × List Row)
  | primitive => [(.A, [.I]), (.O, [.I, .A])]
  | empty => []
  | standard => [(.A, [.I]), (.B, [.I, .A]), (.O, [.I, .A, .B])]
  | ifThen => [(.F, [.I]), (.A, [.I]), (.O, [.I, .A]), (.P, [.I])]
  | ifThenElse => [(.F, [.I]), (.A, [.I]), (.B, [.I]), (.O, [.I, .A]), (.P, [.I, .B])]
  | forLoop =>
    [(.L, [.I]), (.S, [.I]), (.T, [.A]), (.A, [.I, .L, .S]), (.O, [.I, .A]), (.P, [.I, .S])]
  | whileLoop => [(.W, [.I]), (.X, [.A]), (.A, [.I, .W]), (.O, [.I, .A]), (.P, [.I])]

/-- The rows that may feed a row, in the order in which sources are looked for. -/
def feeders (k : GraphKind) (dst : Row) : List Row := (k.table.lookup dst).getD []

/-- Row `src` may feed row `dst`. -/
def isLegal (k : GraphKind) (src dst : Row) : Bool := decide (src ∈ k.feeders dst)

/-- The pairs of rows of which the first may feed the second, by the second row. -/
def legalPairs (k : GraphKind) : List (Row × Row) :=
  Row.all.flatMap fun dst =>
    (Row.all.filter fun src => k.isLegal src dst).map fun src => (src, dst)

/-- The row that alone may feed a row, if there is just one. -/
def requiredSource (k : GraphKind) (dst : Row) : Option Row :=
  match k.feeders dst with
  | [only] => some only
  | _ => none

/-- The pairs of a row and the row that alone may feed it, source first. -/
def requiredPairs (k : GraphKind) : List (Row × Row) :=
  k.table.filterMap fun e =>
    match e.2 with
    | [only] => some (only, e.1)
    | _ => none

end GraphKind

end GeneGraph
