import GeneGraph.Validity

/-!
# Inserting one code into another

Two codes are put in sequence (`InsertOp.stack`, `InsertOp.inverseStack`), or one takes on the
interface of the other (`InsertOp.wrap`), or one is spliced into the other
(`InsertOp.restructure`). No operation invents connections: destinations that nothing was there
to feed stay without source.

Splicing leaves a row of the resultant empty for a fetal code, which is put there by
`Code.graft`, possibly after its own destinations were fed.
-/

namespace GeneGraph

/-- The placement above a row. -/
def Above.ofRow? : Row → Option Above
  | .A => some .A
  | .B => some .B
  | .O => some .O
  | _ => none

/-- The row whose sub-code is displaced. -/
def Above.replacedRow : Above → Row
  | .A => .A
  | .B | .O => .B

/-- The row of the fetal code that the displaced sub-code gets. -/
def Above.displacedRow : Above → Row
  | .A | .B => .B
  | .O => .A

/-- The row of the fetal code that the inserted code gets. -/
def Above.insertedRow : Above → Row
  | .A | .B => .A
  | .O => .B

/-- A code that waits to be grafted into a row. -/
structure Fetal where
  row : Row
  code : Code

/-- The outcome of an insertion. -/
structure Insertion where
  /-- The resultant. -/
  code : Code
  fetal : Option Fetal

/-- Makes connections one after another, each given by source and destination. -/
def Graph.connectAll (g : Graph) (wires : List (EndPoint × EndPoint)) : Except GraphError Graph :=
  wires.foldlM
    (fun g wire =>
      match g.connect wire.1 wire.2 with
      | (.error err, _) => .error err
      | (.ok _, g) => .ok g)
    g

def Code.connectAll (c : Code) (wires : List (EndPoint × EndPoint)) : Except GraphError Code :=
  return { c with graph := ← c.graph.connectAll wires }

/-- Pairs the sources of one row with the destinations of another, index by index. -/
def passThrough (src dst : Row) (count : Nat) : List (EndPoint × EndPoint) :=
  (List.range count).map fun k => (⟨src, k⟩, ⟨dst, k⟩)

/-- A standard graph with the given inputs and outputs. -/
def Graph.standard (inputs outputs : Interface) : Graph :=
  ((Graph.ofKind .standard).setRow .I (.ofSrc inputs)).setRow .O (.ofDst outputs)

/-! ## Sequences and wraps -/

/-- Runs `first`, then `second`, with the inputs of the one and the outputs of the other. -/
def Code.sequence (first second : Frozen) : Except GraphError Code :=
  let c := Code.ofGraph (.standard first.inputs second.outputs)
  ((c.setSub .A first).setSub .B second).connectAll
    (passThrough .I .A first.inputs.length ++ passThrough .B .O second.outputs.length)

/-- Complains of an operand that is only an interface. -/
def checkSequence (op : InsertOp) (target insert : Frozen) : Except GraphError Unit :=
  if target.kind = .empty then .error (.incompatibleKind op .target .empty)
  else if insert.kind = .empty then .error (.incompatibleKind op .insert .empty)
  else .ok ()

/-- The inserted code feeds the target. -/
def Code.stack (target insert : Frozen) : Except GraphError Code := do
  checkSequence .stack target insert
  Code.sequence insert target

/-- The target feeds the inserted code. -/
def Code.inverseStack (target insert : Frozen) : Except GraphError Code := do
  checkSequence .inverseStack target insert
  Code.sequence target insert

/-- Gives the inserted code the interface of the target. What fed the old outputs or was fed by
the old inputs is cut off. -/
def Code.wrap (target insert : Frozen) : Except GraphError Code :=
  if target.kind ≠ .empty then .error (.incompatibleKind .wrap .target target.kind)
  else if insert.kind ≠ .standard then .error (.incompatibleKind .wrap .insert insert.kind)
  else
    let g := insert.graph.setRow .I (.ofSrc target.inputs)
    .ok { insert.code with graph := g.setRow .O (.ofDst target.outputs) }

/-! ## Restructuring -/

/-- A source with the type that it delivers. -/
structure Feeder where
  ept : Ept
  point : EndPoint

/-- Adds the source of a connection to the feeders, unless it is among them. -/
def Feeder.add (g : Graph) (fs : List Feeder) (dst src : EndPoint) :
    Except GraphError (List Feeder) :=
  if fs.any fun f => f.point = src then .ok fs
  else
    match g.delivered src with
    | none => .error (.violation (.dangling dst src))
    | some e => .ok (fs ++ [⟨e, src⟩])

def Graph.wiresInto (g : Graph) (row : Row) : List (EndPoint × EndPoint) :=
  g.wires.toList.filter fun e => e.1.row = row

def Graph.wiresOutOf (g : Graph) (row : Row) : List (EndPoint × EndPoint) :=
  g.wires.toList.filter fun e => e.2.row = row

/-- The sources that feed a row, in canonical order of their types, sources of equal type in the
order of their first destinations. -/
def Graph.feeders (g : Graph) (row : Row) : Except GraphError (List Feeder) := do
  let fs ← (g.wiresInto row).foldlM (fun fs e => Feeder.add g fs e.1 e.2) []
  return stableSort Feeder.ept fs

/-- The index of a source among the feeders. -/
def feederIndex (fs : List Feeder) (src : EndPoint) : Except GraphError Nat :=
  match fs.findIdx? fun f => f.point = src with
  | some k => .ok k
  | none => .error (.outOfRange src.index fs.length)

/-- The connections from the inputs of a fetal code to the displaced sub-code, which had `count`
inputs. -/
def fetalInputs (g : Graph) (fs : List Feeder) (row displacedRow : Row) (count : Nat) :
    Except GraphError (List (EndPoint × EndPoint)) := do
  let wires ← (List.range count).mapM fun k =>
    match g.sourceOf? ⟨row, k⟩ with
    | none => .ok none
    | some src => do return some (⟨.I, ← feederIndex fs src⟩, ⟨displacedRow, k⟩)
  return wires.filterMap id

/-- The fetal code of a displaced sub-code and the inserted code, with the connections from its
inputs to the displaced sub-code. -/
def fetalCode (above : Above) (displaced insert : Frozen) (inputs outputs : Interface)
    (wires : List (EndPoint × EndPoint)) : Except GraphError Code :=
  let c := Code.ofGraph (.standard inputs outputs)
  let n := displaced.outputs.length
  let inserted := (List.range insert.outputs.length).map fun k =>
    ((⟨above.insertedRow, k⟩, ⟨.O, n + k⟩) : EndPoint × EndPoint)
  ((c.setSub above.insertedRow insert).setSub above.displacedRow displaced).connectAll
    (wires ++ passThrough above.displacedRow .O n ++ inserted)

/-- The target with a row made ready for the fetal code: its destinations are fed as the fetal
code's inputs are to be, and its consumers keep their sources. -/
def vacate (target : Code) (row : Row) (fs : List Feeder) (inputs outputs : Interface) :
    Except GraphError Code := do
  let g := target.graph
  let consumers := (g.wiresOutOf row).map fun e => (e.2, e.1)
  let fed := fs.zipIdx.map fun (f, k) => (f.point, (⟨row, k⟩ : EndPoint))
  let g ← (g.setRow row ⟨inputs, outputs⟩).connectAll (consumers ++ fed)
  return { target with graph := g }.attach row none

/-- Splices a code into a target. The displaced sub-code and the inserted code become the fetal
code, whose inputs are the sources that fed the displaced sub-code and whose outputs are the
outputs of both. -/
def Code.restructure (target : Code) (insert : Frozen) (above : Above) :
    Except GraphError Insertion := do
  let op := InsertOp.restructure above
  let row := above.replacedRow
  if target.kind ≠ .standard then throw (.incompatibleKind op .target target.kind)
  if insert.kind = .empty then throw (.incompatibleKind op .insert .empty)
  match target.sub? row with
  | none => throw (.missingSub row)
  | some displaced =>
    let fs ← target.graph.feeders row
    let outputs ← insert.outputs.epts.foldlM Interface.push displaced.outputs
    let inputs ← Interface.ofList (fs.map Feeder.ept)
    let wires ← fetalInputs target.graph fs row above.displacedRow displaced.inputs.length
    let fetal ← fetalCode above displaced insert inputs outputs wires
    let code ← vacate target row fs inputs outputs
    return ⟨code, some ⟨row, fetal⟩⟩

def Insertion.of (op : InsertOp) (target insert : Frozen) : Except GraphError Insertion :=
  match op with
  | .stack => return ⟨← Code.stack target insert, none⟩
  | .inverseStack => return ⟨← Code.inverseStack target insert, none⟩
  | .wrap => return ⟨← Code.wrap target insert, none⟩
  | .restructure above => target.code.restructure insert above

/-! ## Grafting -/

/-- Inserts the types of `inputs` into the destinations of a row, those apart that are already
there, and gives the old types that are left over. -/
def insertMissing (row : Row) : List Ept → List Ept → Graph → Edit (List Ept)
  | left, [], g => (.ok left, g)
  | left, e :: es, g =>
    if e ∈ left then insertMissing row (left.erase e) es g
    else
      match g.insert row .dst e with
      | (.error err, g) => (.error err, g)
      | (.ok _, g) => insertMissing row left es g

/-- Puts a frozen code into a row that was made ready for it. Inputs that the code has gained
become new destinations of the row, and the sources of the row are put into the order of the
code's outputs. The code is answered even if it fails. -/
def Code.graft (c : Code) (row : Row) (f : Frozen) : Except GraphError Unit × Code :=
  match insertMissing row (c.graph.interface row .dst).epts f.inputs.epts c.graph with
  | (.error err, g) => (.error err, { c with graph := g })
  | (.ok left, g) =>
    let c := { c with graph := (g.reorderSide row .src).2 }
    if left.isEmpty && c.graph.row? row = some f.rowSides then (.ok (), c.attach row (some f))
    else (.error (.violation (.subMismatch row)), c)

/-- Freezes and grafts the fetal code, if there is one, and freezes the resultant; the serial
numbers are the next ones. -/
def Insertion.assemble (i : Insertion) (serial : Nat) : Except GraphError Frozen :=
  match i.fetal with
  | none => .ok (i.code.freeze serial)
  | some ⟨row, fetal⟩ =>
    match i.code.graft row (fetal.freeze serial) with
    | (.error err, _) => .error err
    | (.ok _, c) => .ok (c.freeze (serial + 1))

end GeneGraph
