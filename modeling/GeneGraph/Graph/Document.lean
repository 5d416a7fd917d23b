import GeneGraph.Graph.Edit
import GeneGraph.Registry.Decode
import GeneGraph.Registry.Document

/-!
# Graphs as documents

A document lists the destinations of each row in index order, each with its type and, if it is
connected, row and index of its source. Sources are not listed where their first consumer shows
their type; the others stand in row U.

`Graph.toRecord` makes the document of a graph and `GraphRecord.toGraph` reads it back: a source
has the type that row U gives it, or else the one type that all its consumers have.
-/

namespace GeneGraph

/-- An entry of a document: a source, if both row and index are set, and a type. -/
structure PointRecord where
  row : Option String
  index : Option Nat
  uids : List TypeUid
  deriving DecidableEq

/-- A document of a graph. -/
structure GraphRecord where
  kind : String
  /-- The entries of each row. -/
  rows : SortedMap String (List PointRecord)
  deriving DecidableEq

/-! ## Writing -/

def PointRecord.ofPoint (p : EndPoint) (e : Ept) : PointRecord :=
  ⟨some p.row.text, some p.index, e.flat⟩

namespace Graph

def dstRecord (g : Graph) (row : Row) (e : Ept × Nat) : PointRecord :=
  match g.sourceOf? ⟨row, e.2⟩ with
  | none => ⟨none, none, e.1.flat⟩
  | some src => .ofPoint src e.1

/-- The type of the first destination that a source feeds. -/
def firstConsumerEpt? (g : Graph) (src : EndPoint) : Option Ept :=
  (g.consumers src).head?.bind (g.ept? .dst)

/-- The entries of row U: the sources whose first consumer does not show their type. -/
def listedRecords (g : Graph) : List PointRecord :=
  g.rows.toList.flatMap fun (row, s) =>
    s.src.epts.zipIdx.filterMap fun (e, k) =>
      if g.firstConsumerEpt? ⟨row, k⟩ = some e then none else some (.ofPoint ⟨row, k⟩ e)

def toRecord (g : Graph) : GraphRecord :=
  let rows := SortedMap.ofList (g.rows.toList.map fun (row, s) =>
    (row.text, s.dst.epts.zipIdx.map (g.dstRecord row)))
  let listed := g.listedRecords
  ⟨g.kind.text, if listed.isEmpty then rows else rows.insert Row.U.text listed⟩

end Graph

/-! ## Reading -/

/-- What is known while a document is read. -/
structure Draft where
  graph : Graph
  /-- The sources of row U. -/
  listed : SortedMap EndPoint Ept
  /-- The other sources, with the types of their consumers. -/
  implied : SortedMap EndPoint (List Ept)

namespace PointRecord

/-- The source of an entry. -/
def source? (p : PointRecord) : Except GraphError (Option EndPoint) :=
  match p.row, p.index with
  | some row, some index => do return some ⟨← Row.named row, index⟩
  | none, none => .ok none
  | _, _ => .error (.document .halfSource)

def ept (p : PointRecord) (r : Registry) : Except GraphError Ept :=
  (r.decode p.uids).mapError .type

end PointRecord

namespace Draft

/-- Notes that a destination of a type is fed by a source. -/
def imply (d : Draft) (src : EndPoint) (e : Ept) : Draft :=
  { d with implied := d.implied.insert src ((d.implied.get? src).getD [] ++ [e]) }

/-- Reads an entry of row U. -/
def addSource (r : Registry) (d : Draft) (p : PointRecord) : Except GraphError Draft := do
  match ← p.source? with
  | none => throw (.document .unnamedSource)
  | some src => return { d with listed := d.listed.insert src (← p.ept r) }

/-- Reads an entry of another row. The connection is made before its source exists. -/
def addDestination (r : Registry) (row : Row) (d : Draft) (p : PointRecord) :
    Except GraphError Draft := do
  let e ← p.ept r
  match d.graph.push row .dst e with
  | (.error err, _) => throw err
  | (.ok index, g) =>
    match ← p.source? with
    | none => return { d with graph := g }
    | some src =>
      let g := { g with wires := g.wires.insert ⟨row, index⟩ src }
      return { d with graph := g }.imply src e

def addRow (r : Registry) (d : Draft) (entry : String × List PointRecord) :
    Except GraphError Draft := do
  let row ← Row.named entry.1
  if row = .U then entry.2.foldlM (addSource r) d
  else entry.2.foldlM (addDestination r row) { d with graph := d.graph.addRow row }

/-- The type of a source that has consumers. -/
def impliedEpt (d : Draft) (src : EndPoint) (epts : List Ept) : Except GraphError Ept :=
  match d.listed.get? src, epts with
  | some e, _ => .ok e
  | none, e :: rest =>
    if rest.all fun e' => e' = e then .ok e else .error (.document (.ambiguous src))
  | none, [] => .error (.document (.ambiguous src))

def sources (d : Draft) : Except GraphError (SortedMap EndPoint Ept) := do
  let implied ← d.implied.toList.mapM fun (src, epts) => do
    return (src, ← d.impliedEpt src epts)
  return d.listed.insertAll implied

end Draft

/-- Adds a source at the end of its row: its index has to be the next one. -/
def Graph.addSource (g : Graph) (src : EndPoint) (e : Ept) : Except GraphError Graph :=
  if src.index = g.count src.row .src then
    match g.push src.row .src e with
    | (.error err, _) => .error err
    | (.ok _, g) => .ok g
  else .error (.document (.gap src))

namespace GraphRecord

def toGraph (doc : GraphRecord) (r : Registry) : Except GraphError Graph := do
  let kind ← GraphKind.named doc.kind
  let d ← doc.rows.toList.foldlM (Draft.addRow r) ⟨Graph.ofKind kind, .empty, .empty⟩
  let sources ← d.sources
  sources.toList.foldlM (fun g e => g.addSource e.1 e.2) d.graph

/-! ## JSON -/

end GraphRecord

def PointRecord.ofJson? (j : Json) : Option PointRecord := do
  match ← j.asList? some with
  | [row, index, uids] =>
    return ⟨← row.asOption? Json.asText?, ← index.asOption? (Json.asNat? Json.maxWord),
      ← uids.asList? TypeUid.ofJson?⟩
  | _ => none

def PointRecord.toJson (p : PointRecord) : Json :=
  .arr [p.row.elim .null Json.text, p.index.elim .null Json.nat,
    .arr (p.uids.map TypeUid.toJson)]

namespace GraphRecord

/-- Reads a document; of rows with the same key, the last one counts. -/
def ofJson? (j : Json) : Option GraphRecord := do
  match ← j.fields? ["graph_type", "rows"] with
  | [some kind, some rows] =>
    let kind ← kind.asText?
    let rows ← rows.asEntries?
    let rows ← rows.mapM fun (key, j) => do return (key, ← j.asList? PointRecord.ofJson?)
    return ⟨kind, SortedMap.ofList rows⟩
  | _ => none

def toJson (doc : GraphRecord) : Json :=
  .record [("graph_type", .text doc.kind),
    ("rows", .record (doc.rows.toList.map fun (key, ps) =>
      (key, .arr (ps.map PointRecord.toJson))))]

end GraphRecord

def Graph.ofText (r : Registry) (s : String) : Except GraphError Graph :=
  match Json.ofString? s >>= GraphRecord.ofJson? with
  | none => .error .json
  | some doc => doc.toGraph r

def Graph.toText (g : Graph) : String := g.toRecord.toJson.compact

end GeneGraph
