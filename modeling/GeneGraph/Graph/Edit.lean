import GeneGraph.Graph

/-!
# Changing graphs

An operation that can fail gives its answer or an error, and in both cases the graph after it:
an operation on the side of an absent row makes the row present, even if it fails.

Inserting, removing and reordering end points moves the end points behind them, and every
connection is moved along (`Graph.moveWires`).
-/

namespace GeneGraph

/-- An answer or an error, and the graph afterwards. -/
abbrev Edit (α : Type) := Except GraphError α × Graph

namespace Graph

/-- Connections that do not touch a row. -/
def dropWires (g : Graph) (row : Row) : SortedMap EndPoint EndPoint :=
  g.wires.filter fun dst src => dst.row ≠ row && src.row ≠ row

/-! ## Rows -/

/-- Makes a row present. -/
def addRow (g : Graph) (row : Row) : Graph :=
  { g with rows := g.rows.insert row ((g.row? row).getD .empty) }

/-- Writes both sides of a row, and drops the connections that touch it. -/
def setRow (g : Graph) (row : Row) (sides : Sides) : Graph :=
  { g with rows := g.rows.insert row sides, wires := g.dropWires row }

/-- Removes a row and the connections that touch it. -/
def removeRow (g : Graph) (row : Row) : Graph :=
  { g with rows := g.rows.erase row, wires := g.dropWires row }

/-! ## End points -/

/-- The end point after the end points of a row have moved: to another index, or away. -/
def movePoint (row : Row) (move : Nat → Option Nat) (p : EndPoint) : Option EndPoint :=
  if p.row = row then (move p.index).map fun k => ⟨row, k⟩ else some p

/-- Moves the end points of one side of a row in all connections; a connection of an end point
that is gone is dropped. -/
def moveWires (g : Graph) (row : Row) (side : Side) (move : Nat → Option Nat) : Graph :=
  { g with
    wires := SortedMap.ofList (g.wires.toList.filterMap fun e =>
      match side with
      | .dst => (movePoint row move e.1).map fun dst => (dst, e.2)
      | .src => (movePoint row move e.2).map fun src => (e.1, src)) }

def setSide (g : Graph) (row : Row) (side : Side) (i : Interface) : Graph :=
  { g with rows := g.rows.insert row (((g.row? row).getD .empty).setSide side i) }

/-- Appends an end point, and gives its index. -/
def push (g : Graph) (row : Row) (side : Side) (e : Ept) : Edit Nat :=
  let i := g.interface row side
  match i.push e with
  | .error err => (.error err, g.addRow row)
  | .ok i' => (.ok i.length, g.setSide row side i')

/-- Inserts an end point at its place in canonical order, and gives its index. -/
def insert (g : Graph) (row : Row) (side : Side) (e : Ept) : Edit Nat :=
  let i := g.interface row side
  match i.insert e with
  | .error err => (.error err, g.addRow row)
  | .ok i' =>
    let at' := i.slot e
    (.ok at', (g.setSide row side i').moveWires row side fun k =>
      some (if at' ≤ k then k + 1 else k))

/-- Removes an end point with its connections, and gives its type. -/
def remove (g : Graph) (row : Row) (side : Side) (index : Nat) : Edit Ept :=
  match (g.interface row side).remove index with
  | .error err => (.error err, g.addRow row)
  | .ok (e, i') =>
    (.ok e, (g.setSide row side i').moveWires row side fun k =>
      if k < index then some k else if k = index then none else some (k - 1))

/-- Puts one side of a row into canonical order, and gives the new place of each index. -/
def reorderSide (g : Graph) (row : Row) (side : Side) : List Nat × Graph :=
  match g.interface? row side with
  | none => ([], g)
  | some i =>
    let places := i.places
    (places, (g.setSide row side i.reorder).moveWires row side fun k => places[k]?)

/-- Puts one side of a row into canonical order, if it is not. -/
def canonicalizeSide (g : Graph) (row : Row) (side : Side) : Graph :=
  if (g.interface row side).isCanonical then g else (g.reorderSide row side).2

/-- Puts every side into canonical order. -/
def reorder (g : Graph) : Graph :=
  g.rows.keys.foldl (fun g row => (g.canonicalizeSide row .dst).canonicalizeSide row .src) g

/-! ## Connections -/

/-- Complains of an end point that does not exist. -/
def checkPoint (g : Graph) (side : Side) (p : EndPoint) : Except GraphError Unit :=
  if g.exists? side p then .ok () else .error (.outOfRange p.index (g.count p.row side))

/-- Connects a source to a destination, and gives the source the destination had. -/
def connect (g : Graph) (src dst : EndPoint) : Edit (Option EndPoint) :=
  match g.checkPoint .src src, g.checkPoint .dst dst with
  | .error err, _ => (.error err, g)
  | .ok _, .error err => (.error err, g)
  | .ok _, .ok _ => (.ok (g.sourceOf? dst), { g with wires := g.wires.insert dst src })

def disconnect (g : Graph) (dst : EndPoint) : Graph := { g with wires := g.wires.erase dst }

/-- Keeps the connections for which `keep` holds of destination and source. -/
def retain (g : Graph) (keep : EndPoint → EndPoint → Bool) : Graph :=
  { g with wires := g.wires.filter keep }

end Graph

end GeneGraph
