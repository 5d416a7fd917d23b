import GeneGraph.Stabilizer

/-!
# Workspaces

A workspace has named codes, working ones and handles to frozen ones, an arena, a gene pool, and
what a stabilization needs. Frozen codes get ascending serial numbers, and collection looks at
all handles of the workspace: those of the names, of the arena and of the pool.
-/

namespace GeneGraph

/-- What a name stands for. -/
inductive Item where
  /-- A code that can be changed. -/
  | working (c : Code)
  /-- A handle to a frozen code. -/
  | frozen (f : Frozen)

namespace Item

/-- The code that is named, or that is inside the frozen code. -/
def code : Item → Code
  | working c => c
  | frozen f => f.code

/-- The frozen codes that are held by handles. -/
def held : Item → List Frozen
  | working c => c.subs
  | frozen f => [f]

end Item

/-- The gene pool of a workspace. -/
inductive WorkspacePool where
  | memory (p : MemoryPool)
  /-- Every query takes too long. -/
  | timingOut
  | scripted (p : ScriptedPool)

namespace WorkspacePool

def toGenePool (r : Registry) : WorkspacePool → GenePool
  | memory p => p.toGenePool r
  | timingOut => .timingOut
  | scripted p => p.toGenePool

/-- The frozen codes that are held by the pool. -/
def held : WorkspacePool → List Frozen
  | memory p => p.arena.codes
  | timingOut => []
  | scripted p => p.codes.toList.map Prod.snd

end WorkspacePool

/-- Named codes with all that can be done with them. -/
structure Workspace where
  registry : Registry
  items : SortedMap String Item
  arena : Arena
  pool : WorkspacePool
  /-- The queries made of the pool, oldest first. -/
  asked : List Query
  tuning : Tuning
  prng : Prng
  /-- The serial number of the code that is frozen next. -/
  serial : Nat

namespace Workspace

def ofRegistry (r : Registry) : Workspace :=
  ⟨r, .empty, .empty, .memory .empty, [], .default, .ofSeed 0, 0⟩

def item? (w : Workspace) (name : String) : Option Item := w.items.get? name

/-- Lets a name stand for something else from now on. -/
def define (w : Workspace) (name : String) (i : Item) : Workspace :=
  { w with items := w.items.insert name i }

def drop (w : Workspace) (name : String) : Workspace := { w with items := w.items.erase name }

def heldByItems (w : Workspace) : List Frozen := w.items.toList.flatMap fun e => e.2.held

def freeze (w : Workspace) (c : Code) : Frozen × Workspace :=
  (c.freeze w.serial, { w with serial := w.serial + 1 })

/-- The frozen code inside an item, which is frozen now if it is a working one. -/
def freezeItem (w : Workspace) : Item → Frozen × Workspace
  | .working c => w.freeze c
  | .frozen f => (f, w)

/-- Freezes and grafts the fetal code of an insertion and freezes the resultant. -/
def assemble (w : Workspace) (i : Insertion) : Except GraphError Frozen × Workspace :=
  (i.assemble w.serial, { w with serial := w.serial + 2 })

/-! ## The arena -/

def intern (w : Workspace) (f : Frozen) : Frozen × Workspace :=
  let (f, arena) := w.arena.intern f
  (f, { w with arena })

/-- Drops the codes of the arena that nothing else holds, and counts them. -/
def collect (w : Workspace) : Nat × Workspace :=
  let arena := w.arena.collect (w.heldByItems ++ w.pool.held)
  (w.arena.size - arena.size, { w with arena })

/-! ## The gene pool -/

def setPool (w : Workspace) (pool : WorkspacePool) : Workspace := { w with pool, asked := [] }

/-- Drops the codes of a pool in memory that nothing else holds, and counts them. -/
def collectPool (w : Workspace) (p : MemoryPool) : Nat × Workspace :=
  let arena := p.arena.collect (w.heldByItems ++ w.arena.codes)
  (p.arena.size - arena.size, { w with pool := .memory { p with arena } })

def ask (w : Workspace) (q : Query) : Except PoolError (List Candidate) × Workspace :=
  ((w.pool.toGenePool w.registry).find w.asked q, { w with asked := w.asked ++ [q] })

def fetch (w : Workspace) (d : Digest) : Except PoolError Frozen :=
  (w.pool.toGenePool w.registry).fetch d

/-! ## Stabilization -/

/-- Sets the tuning and starts its generator. -/
def tune (w : Workspace) (t : Tuning) : Workspace := { w with tuning := t, prng := t.prng }

/-- Lets a stabilizer work, with the pool, the tuning and the generator of the workspace. -/
def repair {α : Type} (w : Workspace) (f : Stabilizer → Repair α) :
    Except GraphError α × Workspace :=
  let s : Stabilizer := ⟨w.registry, w.pool.toGenePool w.registry, w.tuning⟩
  let (answer, run) := (f s).outcome ⟨w.prng, 0, w.serial, w.asked, []⟩
  (answer, { w with prng := run.prng, serial := run.serial, asked := run.asked })

end Workspace

end GeneGraph
