import GeneGraph.Blake3
import GeneGraph.Graph.Edit

/-!
# Genetic codes

A `Code` is a connection graph with the sub-codes of its rows A and B. `Code.freeze` puts its
interfaces into canonical order and gives it a digest, the hash of `Code.preimage`; frozen codes
are what sub-codes are. Codes frozen at different times are told apart by their serial numbers,
even if they are equal, that is, if they have the same digest.
-/

namespace GeneGraph

/-- A frozen code: canonical, with its digest, never changed again. -/
structure Frozen where
  /-- The number of its making. -/
  serial : Nat
  digest : Digest
  graph : Graph
  subA : Option Frozen
  subB : Option Frozen

/-- A connection graph with the sub-codes of rows A and B. -/
structure Code where
  graph : Graph
  subA : Option Frozen
  subB : Option Frozen

def Frozen.code (f : Frozen) : Code := ⟨f.graph, f.subA, f.subB⟩

namespace Code

def ofGraph (g : Graph) : Code := ⟨g, none, none⟩

def kind (c : Code) : GraphKind := c.graph.kind

def inputs (c : Code) : Interface := c.graph.interface .I .src

def outputs (c : Code) : Interface := c.graph.interface .O .dst

/-- A code that is only an interface. -/
def placeholder (inputs outputs : Interface) : Code :=
  ofGraph (((Graph.ofKind .empty).setRow .I (.ofSrc inputs)).setRow .O (.ofDst outputs))

def sub? (c : Code) : Row → Option Frozen
  | .A => c.subA
  | .B => c.subB
  | _ => none

/-- Writes the sub-code of a row; other rows than A and B have none. -/
def attach (c : Code) (row : Row) (f : Option Frozen) : Code :=
  match row with
  | .A => { c with subA := f }
  | .B => { c with subB := f }
  | _ => c

def subs (c : Code) : List Frozen := c.subA.toList ++ c.subB.toList

end Code

def Frozen.inputs (f : Frozen) : Interface := f.code.inputs

def Frozen.outputs (f : Frozen) : Interface := f.code.outputs

def Frozen.kind (f : Frozen) : GraphKind := f.graph.kind

def Frozen.subs (f : Frozen) : List Frozen := f.code.subs

/-- The sides of a row that holds the code. -/
def Frozen.rowSides (f : Frozen) : Sides := ⟨f.inputs, f.outputs⟩

namespace Code

/-- Places a code in a row, which takes on its interface and loses its connections. -/
def setSub (c : Code) (row : Row) (f : Frozen) : Code :=
  { c with graph := c.graph.setRow row f.rowSides }.attach row (some f)

/-! ## Digests -/

/-- The lowest bytes of a number, the least byte first. -/
def littleEndian : Nat → Nat → List UInt8
  | 0, _ => []
  | count + 1, n => UInt8.ofNat n :: littleEndian count (n / 256)

/-- A count or an index, in eight bytes. -/
def countBytes (n : Nat) : List UInt8 := littleEndian 8 n

def letterByte (c : Char) : UInt8 := UInt8.ofNat c.toNat

/-- A type: its length and its identifiers. -/
def eptBytes (e : Ept) : List UInt8 :=
  countBytes e.length ++ e.flat.flatMap fun u => littleEndian 4 u.number

/-- An interface: its length and its types. -/
def interfaceBytes (i : Interface) : List UInt8 := countBytes i.length ++ i.epts.flatMap eptBytes

/-- A row: its letter, its destinations and its sources. -/
def rowBytes (row : Row) (s : Sides) : List UInt8 :=
  letterByte row.letter :: interfaceBytes s.dst ++ interfaceBytes s.src

/-- An end point: the letter of its row and its index. -/
def pointBytes (p : EndPoint) : List UInt8 := letterByte p.row.letter :: countBytes p.index

/-- A place for a sub-code: the digest behind a one, or a zero. -/
def subBytes : Option Frozen → List UInt8
  | none => [0]
  | some f => 1 :: f.digest.bytes.toList

/-- The connections: their number, and destination and source of each. -/
def wireBytes (wires : SortedMap EndPoint EndPoint) : List UInt8 :=
  countBytes wires.size ++ wires.toList.flatMap fun e => pointBytes e.1 ++ pointBytes e.2

/-- The bytes that the digest of a code is the hash of. -/
def preimage (c : Code) : List UInt8 :=
  "gc:".toList.map letterByte ++ c.kind.text.toList.map letterByte ++ [0] ++
    c.graph.rows.toList.flatMap (fun e => rowBytes e.1 e.2) ++
    wireBytes c.graph.wires ++ subBytes c.subA ++ subBytes c.subB

/-- The digest of a code as it is. -/
def digest (c : Code) : Digest := Blake3.hash c.preimage

/-- The code with its interfaces in canonical order. -/
def canonical (c : Code) : Code := { c with graph := c.graph.reorder }

def freeze (c : Code) (serial : Nat) : Frozen :=
  let c := c.canonical
  ⟨serial, c.digest, c.graph, c.subA, c.subB⟩

end Code

end GeneGraph
