import GeneGraph.Interface

/-!
# Connection graphs

A `Graph` has a kind, rows with a destination and a source side, and connections. A connection
is stored under its destination, so a destination has at most one source; a source may feed any
number of destinations.

This module has the graph and the questions about it; `GeneGraph.Graph.Edit` changes it.
-/

namespace GeneGraph

/-- Both sides of a row. -/
structure Sides where
  dst : Interface
  src : Interface
  deriving DecidableEq

namespace Sides

def empty : Sides := ⟨.empty, .empty⟩

instance : Inhabited Sides := ⟨empty⟩

def ofSrc (i : Interface) : Sides := ⟨.empty, i⟩

def ofDst (i : Interface) : Sides := ⟨i, .empty⟩

def side (s : Sides) : Side → Interface
  | .src => s.src
  | .dst => s.dst

def setSide (s : Sides) (side : Side) (i : Interface) : Sides :=
  match side with
  | .src => { s with src := i }
  | .dst => { s with dst := i }

end Sides

/-- A connection graph. -/
structure Graph where
  kind : GraphKind
  rows : SortedMap Row Sides
  /-- The source of each connected destination. -/
  wires : SortedMap EndPoint EndPoint
  deriving DecidableEq

namespace Graph

def ofKind (kind : GraphKind) : Graph := ⟨kind, .empty, .empty⟩

def row? (g : Graph) (row : Row) : Option Sides := g.rows.get? row

def hasRow (g : Graph) (row : Row) : Bool := (g.row? row).isSome

def interface? (g : Graph) (row : Row) (side : Side) : Option Interface :=
  (g.row? row).map fun s => s.side side

/-- One side of a row; an absent row has no end points. -/
def interface (g : Graph) (row : Row) (side : Side) : Interface :=
  (g.interface? row side).getD .empty

/-- The number of end points on one side of a row. -/
def count (g : Graph) (row : Row) (side : Side) : Nat := (g.interface row side).length

def ept? (g : Graph) (side : Side) (p : EndPoint) : Option Ept :=
  (g.interface p.row side).get? p.index

def exists? (g : Graph) (side : Side) (p : EndPoint) : Bool := p.index < g.count p.row side

/-- The end points of one side of a row. -/
def rowPoints (row : Row) (i : Interface) : List EndPoint :=
  (List.range i.length).map fun k => ⟨row, k⟩

/-- Every end point of one side, by row and index. -/
def points (g : Graph) (side : Side) : List EndPoint :=
  g.rows.toList.flatMap fun e => rowPoints e.1 (e.2.side side)

def sourceOf? (g : Graph) (dst : EndPoint) : Option EndPoint := g.wires.get? dst

def consumers (g : Graph) (src : EndPoint) : List EndPoint :=
  (g.wires.toList.filter fun e => e.2 = src).map Prod.fst

/-- The number of destinations that a source feeds. -/
def fanOut (g : Graph) (src : EndPoint) : Nat := (g.consumers src).length

def unconnected (g : Graph) : List EndPoint :=
  (g.points .dst).filter fun p => !g.wires.contains p

def unused (g : Graph) : List EndPoint :=
  (g.points .src).filter fun p => (g.consumers p).isEmpty

end Graph

end GeneGraph
