import GeneGraph.Insertion
import GeneGraph.Pool
import GeneGraph.Procedure
import GeneGraph.Tuning

/-!
# Stabilization

A stabilizer feeds the destinations of a code that have no source, one repair after another,
until the code is valid. A repair takes a source inside the code: one that feeds nothing yet, a
new input, or one that feeds something already; the kind and then the source are drawn. Only
where there is no such source, a gene pool is asked for a code to splice in, and the fetal code
is stabilized in turn.

All repairs of a stabilization, those of its fetal codes included, draw on one budget. So each
call of `Stabilizer.run` has fewer repairs left than its caller, and the limit bounds how deep
the calls nest. What it does on the way is kept in the log of the run.
-/

namespace GeneGraph

/-- A kind of source inside a code. -/
inductive SourceKind where
  /-- It feeds nothing yet. -/
  | unused
  | newInput
  /-- It feeds something already. -/
  | reused
  deriving DecidableEq, Repr

/-- What a stabilization does to a code, with the graph afterwards. -/
inductive Event where
  /-- A destination was fed from inside the code. -/
  | connected (kind : SourceKind) (graph : Graph) (dst src : EndPoint)
  /-- The gene pool was asked for the code of a digest. -/
  | fetched (digest : Digest)
  /-- A destination was fed from the code that was spliced in above a row for it: in the graph of
  the code itself above the outputs, and above a sub-code in the graph of the fetal code. -/
  | fed (above : Above) (graph : Graph) (dst src : EndPoint)
  /-- A fetal code was put into a row. -/
  | grafted (row : Row) (f : Frozen)

/-- What a stabilization changes as it goes on. -/
structure Run where
  prng : Prng
  /-- The repairs made so far. -/
  used : Nat
  /-- The serial number of the code that is frozen next. -/
  serial : Nat
  /-- The queries made of the gene pool so far, oldest first. -/
  asked : List Query
  /-- What was done so far, oldest first. -/
  log : List Event

/-- A part of a stabilization. -/
abbrev Repair (α : Type) := Procedure GraphError Run α

namespace Repair

def tell (e : Event) : Repair Unit := modify fun run => { run with log := run.log ++ [e] }

/-- Draws from the generator of the run. -/
def draw {α : Type} (f : Prng → α × Prng) : Repair α :=
  modifyGet fun run => ((f run.prng).1, { run with prng := (f run.prng).2 })

/-- Freezes a code under the next serial number. -/
def freeze (c : Code) : Repair Frozen :=
  modifyGet fun run => (c.freeze run.serial, { run with serial := run.serial + 1 })

/-- Gives up on a code. -/
def exhausted {α : Type} (c : Code) : Repair α := do
  throw (.stabilizationFailed c.graph.unconnected.length (← get).used)

/-- Grafts a frozen code into a row. -/
def graft (c : Code) (row : Row) (f : Frozen) : Repair Code := do
  match c.graft row f with
  | (.error err, _) => throw err
  | (.ok _, c) => tell (.grafted row f); return c

/-- Connects a source of the code to a destination. -/
def connect (c : Code) (src dst : EndPoint) : Repair Code := c.connectAll [(src, dst)]

end Repair

/-- `a` may stand before `b` when candidates are ranked: nearer ones come first, then more
abundant ones, then those of lesser digest. -/
def Candidate.ranksBefore (a b : Candidate) : Bool :=
  a.proximity < b.proximity || (a.proximity = b.proximity &&
    (b.abundance < a.abundance || (a.abundance = b.abundance &&
      !decide (Before b.digest a.digest))))

/-- What a stabilization depends on. -/
structure Stabilizer where
  registry : Registry
  pool : GenePool
  tuning : Tuning

namespace Stabilizer

/-! ## Sources inside the code -/

/-- A source may feed a destination of type `d`, as far as types go and the fixed instances of its
row, for which `known` are the choices made so far; `e` is the type that is asked for. -/
def accepts (s : Stabilizer) (g : Graph) (known : Choices) (d e : Ept) (src : EndPoint) : Bool :=
  match g.delivered src with
  | none => false
  | some e' => s.registry.isCompatible e' e && (known.record (e'.choices d)).1.isNone

/-- Those of some sources that may feed a destination when type `e` is asked for. -/
def viableAmong (s : Stabilizer) (g : Graph) (sources : List EndPoint) (dst : EndPoint) (e : Ept) :
    List EndPoint :=
  match g.ept? .dst dst with
  | none => []
  | some d => sources.filter (s.accepts g (g.knownChoices dst.row dst.index) d e)

/-- The sources of a graph that may feed a destination of type `e`. -/
def viable (s : Stabilizer) (g : Graph) (dst : EndPoint) (e : Ept) : List EndPoint :=
  s.viableAmong g
    ((g.kind.feeders dst.row).flatMap fun row => Graph.rowPoints row (g.interface row .src)) dst e

/-- Those of some sources that feed nothing yet. -/
def unusedAmong (g : Graph) (sources : List EndPoint) : List EndPoint :=
  sources.filter fun src => g.fanOut src = 0

/-- Those of some sources that feed something already, and may feed more. -/
def reusableAmong (s : Stabilizer) (g : Graph) (sources : List EndPoint) : List EndPoint :=
  sources.filter fun src => 0 < g.fanOut src && g.fanOut src < s.tuning.maxFanOut.toNat

/-- The code may get a new input of type `e` that feeds a destination. -/
def admitsNewInput (c : Code) (dst : EndPoint) (e : Ept) : Bool :=
  c.kind.isLegal .I dst.row && c.kind.presence .I ≠ .forbidden && !e.hasWildcard &&
    c.inputs.elements + e.length ≤ maxElements

/-- The kinds of sources that a destination can be fed from. -/
def sourceKinds (unused reusable : List EndPoint) (newInput : Bool) : List SourceKind :=
  (if unused.isEmpty then [] else [.unused]) ++ (if newInput then [.newInput] else []) ++
    (if reusable.isEmpty then [] else [.reused])

/-- Feeds a destination from a source of the code. -/
def feedFrom (kind : SourceKind) (c : Code) (dst src : EndPoint) : Repair Code := do
  let c ← Repair.connect c src dst
  Repair.tell (.connected kind c.graph dst src)
  return c

/-- Adds an input of type `e` that feeds a destination. -/
def feedNewInput (c : Code) (dst : EndPoint) (e : Ept) : Repair Code :=
  match c.graph.insert .I .src e with
  | (.error err, _) => throw err
  | (.ok k, g) => feedFrom .newInput { c with graph := g } dst ⟨.I, k⟩

/-- Feeds a destination from a source that is drawn, if there is one. -/
def feedDrawn (kind : SourceKind) (c : Code) (dst : EndPoint) (sources : List EndPoint) :
    Repair (Option Code) := do
  match ← Repair.draw (·.choose sources) with
  | none => return none
  | some src => return some (← feedFrom kind c dst src)

/-- Feeds a destination from inside the code, if that is possible. A wrapped code gets no new
inputs. -/
def repairInside (s : Stabilizer) (c : Code) (dst : EndPoint) (e : Ept) (wrapped : Bool) :
    Repair (Option Code) := do
  let sources := s.viable c.graph dst e
  let unused := unusedAmong c.graph sources
  let reusable := s.reusableAmong c.graph sources
  let newInput := !wrapped && admitsNewInput c dst e
  match ← Repair.draw (·.choose (sourceKinds unused reusable newInput)) with
  | none => return none
  | some .unused => feedDrawn .unused c dst unused
  | some .newInput => return some (← feedNewInput c dst e)
  | some .reused => feedDrawn .reused c dst reusable

/-! ## Sources from the gene pool -/

/-- Asks the pool. An answer that takes too long is an answer without candidates. -/
def ask (s : Stabilizer) (q : Query) : Repair (List Candidate) := do
  let earlier := (← get).asked
  modify fun run => { run with asked := run.asked ++ [q] }
  match s.pool.find earlier q with
  | .ok cs => return cs
  | .error (.timeout _) => return []
  | .error err => throw (.pool err)

/-- The candidates from which the draw is made: interfaces without a body are left out, and of
the others the first are kept. -/
def ranked (s : Stabilizer) (cs : List Candidate) : List Candidate :=
  ((cs.filter fun c => c.kind ≠ .empty).mergeSort Candidate.ranksBefore).take
    s.tuning.candidateLimit.toNat

/-- Draws the query for a destination of type `e`. -/
def drawQuery (s : Stabilizer) (e : Ept) : Repair Query := do
  let scope ← Repair.draw (·.within 1 (max s.tuning.maxSearchScope.toNat 1))
  let exact ← Repair.draw Prng.flip
  return ⟨e, if exact then .exact else .compatible, scope, s.tuning.timeout.toNat⟩

/-- Feeds a destination from the first source of a row that it accepts, if there is one among the
given indices. -/
def feed (s : Stabilizer) (above : Above) (c : Code) (row : Row) (indices : List Nat)
    (dst : EndPoint) (e : Ept) : Repair Code := do
  match s.viableAmong c.graph (indices.map fun k => ⟨row, k⟩) dst e with
  | [] => return c
  | src :: _ =>
    let c ← Repair.connect c src dst
    Repair.tell (.fed above c.graph dst src)
    return c

/-- Feeds a destination from the code that was spliced in for it: in the resultant, if the code
was placed above the outputs, and otherwise in the fetal code, where the displaced sub-code has
the destination. -/
def feedSpliced (s : Stabilizer) (above : Above) (c : Code) (insert : Frozen) (i : Insertion)
    (f : Fetal) (dst : EndPoint) (e : Ept) : Repair (Code × Fetal) :=
  let count := insert.outputs.length
  match above with
  | .O => do
    let before := ((c.sub? above.replacedRow).map fun d => d.outputs.length).getD 0
    return (← s.feed above i.code .B ((List.range count).map (before + ·)) dst e, f)
  | .A | .B => do
    let code ← s.feed above f.code .A (List.range count) ⟨.B, dst.index⟩ e
    return (i.code, { f with code })

/-- Splices a code in for a destination; `stabilize` is applied to the fetal code. -/
def splice (s : Stabilizer) (stabilize : Code → Repair Frozen) (above : Above) (c : Code)
    (insert : Frozen) (dst : EndPoint) (e : Ept) : Repair Code := do
  let i ← c.restructure insert above
  match i.fetal with
  | none => return i.code
  | some f =>
    let (code, f) ← s.feedSpliced above c insert i f dst e
    Repair.graft code f.row (← stabilize f.code)

/-- Feeds a destination from the gene pool. If the pool has no candidate, the code stays. -/
def repairOutside (s : Stabilizer) (stabilize : Code → Repair Frozen) (c : Code)
    (dst : EndPoint) (e : Ept) : Repair Code := do
  match Above.ofRow? dst.row with
  | none => Repair.exhausted c
  | some above =>
    if c.kind ≠ .standard then Repair.exhausted c
    else
      let cs ← s.ask (← s.drawQuery e)
      match ← Repair.draw (·.choose (s.ranked cs)) with
      | none => return c
      | some pick =>
        Repair.tell (.fetched pick.digest)
        match s.pool.fetch pick.digest with
        | .error err => throw (.pool err)
        | .ok insert => s.splice stabilize above c insert dst e

/-! ## Stabilization -/

/-- Feeds a destination, from inside the code if that is possible. -/
def repair (s : Stabilizer) (stabilize : Code → Repair Frozen) (c : Code) (dst : EndPoint)
    (wrapped : Bool) : Repair Code := do
  match c.graph.ept? .dst dst with
  | none => throw (.outOfRange dst.index (c.graph.count dst.row .dst))
  | some e =>
    match ← s.repairInside c dst e wrapped with
    | some c => return c
    | none => s.repairOutside stabilize c dst e

/-- Repairs a code until it is valid, with calls nested so deep at most. -/
def run (s : Stabilizer) : Nat → Bool → Code → Repair Frozen
  | 0, _, c => Repair.exhausted c
  | n + 1, wrapped, c =>
    match c.violation? s.registry with
    | none => Repair.freeze c
    | some (.incomplete dst _) => do
      if s.tuning.attemptLimit.toNat ≤ (← get).used then Repair.exhausted c
      else
        modify fun r => { r with used := r.used + 1 }
        let c ← s.repair (s.run n false) c dst wrapped
        s.run n wrapped c
    | some v => throw (.violation v)

/-- Repairs a code until it is valid. -/
def repairAll (s : Stabilizer) (wrapped : Bool) (c : Code) : Repair Frozen :=
  s.run (s.tuning.attemptLimit.toNat + 1) wrapped c

/-- Repairs a code on a budget of its own. -/
def stabilize (s : Stabilizer) (c : Code) : Repair Frozen := do
  modify fun r => { r with used := 0 }
  s.repairAll false c

/-- Inserts a code into a target and repairs the result, the fetal code first. A wrapped code
keeps the interface of its target. -/
def insert (s : Stabilizer) (op : InsertOp) (target insert : Frozen) : Repair Frozen := do
  modify fun r => { r with used := 0 }
  let i ← Insertion.of op target insert
  match i.fetal with
  | none => s.repairAll (op = .wrap) i.code
  | some f =>
    let c ← Repair.graft i.code f.row (← s.repairAll false f.code)
    s.repairAll (op = .wrap) c

end Stabilizer

end GeneGraph
