import GeneGraph.Arena
import GeneGraph.Registry.Compatible

/-!
# Gene pools

A gene pool is asked for codes with an output that can feed a destination (`GenePool.find`) and
hands them out by their digests (`GenePool.fetch`). What it answers to a query may depend on the
queries before it.

`MemoryPool` keeps its codes in an arena, each in a tier: a query sees the tiers up to its scope.
-/

namespace GeneGraph

/-- How an output has to relate to the wanted type. -/
inductive MatchMode where
  /-- It has the wanted type. -/
  | exact
  /-- It can feed the wanted type. -/
  | compatible
  deriving DecidableEq, Repr

def MatchMode.text : MatchMode → String
  | .exact => "Exact"
  | .compatible => "Compatible"

/-- A request for codes that can feed a destination. -/
structure Query where
  /-- The type of the destination. -/
  output : Ept
  mode : MatchMode
  /-- How many tiers are searched. -/
  scope : Nat
  /-- How many milliseconds the answer may take. -/
  timeout : Nat
  deriving DecidableEq

/-- A code that a pool can hand out. -/
structure Candidate where
  digest : Digest
  kind : GraphKind
  /-- How often the pool has seen it. -/
  abundance : Nat
  /-- How far away it was found. -/
  proximity : Nat
  deriving DecidableEq

/-- A source of codes. -/
structure GenePool where
  /-- The answer to a query, after the queries before it. -/
  find : List Query → Query → Except PoolError (List Candidate)
  /-- The code of a digest. -/
  fetch : Digest → Except PoolError Frozen

/-- The pool whose every query takes too long. -/
def GenePool.timingOut : GenePool where
  find _ q := .error (.timeout q.timeout)
  fetch d := .error (.notFound d)

/-! ## Pools in memory -/

/-- What a pool knows of a code besides the code. -/
structure PoolRecord where
  tier : Nat
  abundance : Nat
  deriving DecidableEq

/-- A pool that keeps its codes itself. -/
structure MemoryPool where
  arena : Arena
  /-- The records outlive codes that are collected. -/
  records : SortedMap Digest PoolRecord

namespace MemoryPool

def empty : MemoryPool := ⟨.empty, .empty⟩

instance : Inhabited MemoryPool := ⟨empty⟩

/-- The number of digests that were ever added. -/
def size (p : MemoryPool) : Nat := p.records.size

/-- Adds a code in a tier, at least the first, and gives the object kept for it. A code that is
added again keeps its nearest tier. -/
def add (p : MemoryPool) (f : Frozen) (tier : Nat) : Frozen × MemoryPool :=
  let (f, arena) := p.arena.intern f
  let tier := max tier 1
  let record : PoolRecord := (p.records.get? f.digest).getD ⟨tier, 0⟩
  (f, ⟨arena, p.records.insert f.digest ⟨min record.tier tier, record.abundance + 1⟩⟩)

/-- A code has an output that the query asks for. -/
def exposes (r : Registry) (f : Frozen) (q : Query) : Bool :=
  f.outputs.epts.any fun e =>
    match q.mode with
    | .exact => e = q.output
    | .compatible => r.isCompatible e q.output

/-- The candidate for a query that the record of a digest gives. -/
def candidate? (r : Registry) (p : MemoryPool) (q : Query) (d : Digest) (record : PoolRecord) :
    Option Candidate :=
  if record.tier ≤ q.scope then
    (p.arena.get? d).bind fun f =>
      if exposes r f q then some ⟨d, f.kind, record.abundance, record.tier⟩ else none
  else none

/-- The candidates for a query, by their digests. -/
def candidates (r : Registry) (p : MemoryPool) (q : Query) : List Candidate :=
  p.records.toList.filterMap fun e => p.candidate? r q e.1 e.2

def fetch (p : MemoryPool) (d : Digest) : Except PoolError Frozen :=
  match p.arena.get? d with
  | some f => .ok f
  | none => .error (.notFound d)

def toGenePool (r : Registry) (p : MemoryPool) : GenePool where
  find _ q := .ok (p.candidates r q)
  fetch := p.fetch

end MemoryPool

/-! ## Scripted pools -/

/-- An answer that is fixed beforehand. -/
inductive PoolResponse where
  | candidates (cs : List Candidate)
  /-- The query takes too long. -/
  | timeout
  | unavailable (reason : String)
  deriving DecidableEq

/-- A pool that answers one query after another as it was told. -/
structure ScriptedPool where
  /-- The answers in order; the last one repeats. -/
  responses : List PoolResponse
  /-- The codes that can be fetched. -/
  codes : SortedMap Digest Frozen

namespace ScriptedPool

/-- The pool of some responses, each with the codes that it lets be fetched; of equal codes the
last one is kept. -/
def ofResponses (rs : List (PoolResponse × List Frozen)) : ScriptedPool :=
  ⟨rs.map Prod.fst, SortedMap.ofList ((rs.flatMap Prod.snd).map fun f => (f.digest, f))⟩

/-- The answer to the query after so many queries. -/
def answer (p : ScriptedPool) (asked : Nat) (q : Query) : Except PoolError (List Candidate) :=
  match p.responses[min asked (p.responses.length - 1)]? with
  | none => .ok []
  | some (.candidates cs) => .ok cs
  | some .timeout => .error (.timeout q.timeout)
  | some (.unavailable reason) => .error (.unavailable reason)

def fetch (p : ScriptedPool) (d : Digest) : Except PoolError Frozen :=
  match p.codes.get? d with
  | some f => .ok f
  | none => .error (.notFound d)

def toGenePool (p : ScriptedPool) : GenePool where
  find earlier q := p.answer earlier.length q
  fetch := p.fetch

end ScriptedPool

end GeneGraph
