import GeneGraph.Json.Number
import GeneGraph.Json.Reader
import GeneGraph.Prng
import GeneGraph.SortedMap

/-!
# Tuning of the stabilizer

The limits of a stabilization and the seed of its draws, with their defaults, their admissible
range and their JSON form. A document need not give all fields.
-/

namespace GeneGraph

/-- The tuning of a stabilizer. -/
structure Tuning where
  /-- The repairs allowed in one stabilization, with those of its fetal codes. -/
  attemptLimit : UInt64
  /-- The destinations that a source may feed when it is used again. -/
  maxFanOut : UInt64
  /-- The widest scope of a gene pool query. -/
  maxSearchScope : UInt8
  /-- The candidates kept for the draw. -/
  candidateLimit : UInt64
  /-- The milliseconds that a gene pool query may take. -/
  timeout : UInt64
  seed : UInt64
  deriving DecidableEq, Repr

namespace Tuning

def default : Tuning := ⟨100, 16, 3, 16, 2000, 0⟩

instance : Inhabited Tuning := ⟨default⟩

/-- What is wrong with the first field that is out of range. -/
def fault? (t : Tuning) : Option String :=
  if t.maxFanOut = 0 then some "max_fan_out must be at least 1"
  else if t.maxSearchScope = 0 then some "max_search_scope must be at least 1"
  else if t.candidateLimit = 0 then some "candidate_limit must be at least 1"
  else none

def prng (t : Tuning) : Prng := .ofSeed t.seed

/-! ## JSON -/

/-- The names of the fields, in the order in which a document without keys lists them. -/
def fieldNames : List String :=
  ["sse_limit", "max_fan_out", "max_search_scope", "candidate_limit", "external_timeout_ms", "seed"]

/-- The values of the fields, in the order of their names. -/
def values (t : Tuning) : List Nat :=
  [t.attemptLimit.toNat, t.maxFanOut.toNat, t.maxSearchScope.toNat, t.candidateLimit.toNat,
    t.timeout.toNat, t.seed.toNat]

/-- Reads a 64-bit word, or takes the default if there is none. -/
def word? (default : UInt64) : Option Json → Option UInt64
  | none => some default
  | some j => (j.asNat? Json.maxWord).map UInt64.ofNat

/-- Reads a byte, or takes the default if there is none. -/
def byte? (default : UInt8) : Option Json → Option UInt8
  | none => some default
  | some j => (j.asNat? 255).map UInt8.ofNat

def ofJson? (j : Json) : Option Tuning := do
  match ← j.fields? fieldNames with
  | [attempts, fanOut, scope, candidates, timeout, seed] =>
    return {
      attemptLimit := ← word? default.attemptLimit attempts
      maxFanOut := ← word? default.maxFanOut fanOut
      maxSearchScope := ← byte? default.maxSearchScope scope
      candidateLimit := ← word? default.candidateLimit candidates
      timeout := ← word? default.timeout timeout
      seed := ← word? default.seed seed }
  | _ => none

def ofText? (s : String) : Option Tuning := Json.ofString? s >>= ofJson?

/-- The fields with their values, by their names. -/
def toMap (t : Tuning) : SortedMap String Json :=
  SortedMap.ofList (fieldNames.zip (t.values.map Json.nat))

def ofMap? (m : SortedMap String Json) : Option Tuning := ofJson? (.record m.toList)

end Tuning

end GeneGraph
