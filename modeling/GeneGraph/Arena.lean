import GeneGraph.Code

/-!
# Arenas

An `Arena` keeps one frozen code for each digest, so that equal codes can share one object.
`Arena.collect` drops the codes that nothing else holds: an entry stays as long as its object is
held from outside or is a sub-code of something that is held or stays.

Objects are told apart by their serial numbers; an equal code that was frozen another time does
not hold an entry.
-/

namespace GeneGraph

/-! ## What codes hold -/

mutual

/-- Adds the serial numbers of a code and of all codes inside it to those already reached. -/
def Frozen.mark (reached : List Nat) : Frozen → List Nat
  | ⟨serial, _, _, subA, subB⟩ =>
    if serial ∈ reached then reached
    else markSub (markSub (serial :: reached) subA) subB

/-- Adds the serial numbers of a sub-code, if there is one. -/
def markSub (reached : List Nat) : Option Frozen → List Nat
  | none => reached
  | some f => f.mark reached

end

/-- The serial numbers of some codes and of all codes inside them. -/
def reachedFrom (fs : List Frozen) : List Nat := fs.foldl Frozen.mark []

/-! ## Arenas -/

/-- Frozen codes by their digests. -/
structure Arena where
  entries : SortedMap Digest Frozen

namespace Arena

def empty : Arena := ⟨.empty⟩

instance : Inhabited Arena := ⟨empty⟩

def size (a : Arena) : Nat := a.entries.size

/-- The digests, ascending. -/
def digests (a : Arena) : List Digest := a.entries.keys

def codes (a : Arena) : List Frozen := a.entries.toList.map Prod.snd

def get? (a : Arena) (d : Digest) : Option Frozen := a.entries.get? d

def contains (a : Arena) (d : Digest) : Bool := a.entries.contains d

/-- The code that stands for `f` from now on: the one with its digest, or `f` itself. -/
def intern (a : Arena) (f : Frozen) : Frozen × Arena :=
  match a.get? f.digest with
  | some f' => (f', a)
  | none => (f, ⟨a.entries.insert f.digest f⟩)

/-! ## Collection -/

/-- The object is held from outside, where `held` are the codes that are held there, or it is a
sub-code of something held there or in the arena. -/
def isHeld (a : Arena) (held : List Frozen) (f : Frozen) : Bool :=
  decide (f.serial ∈ reachedFrom (held ++ a.codes.flatMap Frozen.subs))

/-- Drops the entry of a digest, unless its object is held. -/
def visit (held : List Frozen) (a : Arena) (d : Digest) : Arena :=
  match a.get? d with
  | none => a
  | some f => if a.isHeld held f then a else ⟨a.entries.erase d⟩

/-- Visits entries in the given order. -/
def sweep (held : List Frozen) (order : List Digest) (a : Arena) : Arena :=
  order.foldl (visit held) a

/-- Sweeps until nothing more is dropped. -/
def collect (held : List Frozen) (a : Arena) : Arena :=
  let a' := a.sweep held a.digests
  if a'.size < a.size then collect held a' else a'
termination_by a.size

end Arena

end GeneGraph
