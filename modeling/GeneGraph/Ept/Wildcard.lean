import GeneGraph.TypeError

/-!
# Resolving wildcards

A wildcard of origin `(p, d)` stands for input `p`, gone down `d` times to the first template
type. `Ept.resolve` puts these types in the place of the outermost wildcards of a type; what
stands below a wildcard goes with it.
-/

namespace GeneGraph.Ept

/-- Goes down `n` times to the first template type. -/
def descend : Nat → Ept → Option Ept
  | 0, e => some e
  | n + 1, e => if h : 0 < e.head.arity.val then (e.arg ⟨0, h⟩).descend n else none

/-- The type that a wildcard of origin `o` stands for. -/
def ofOrigin (inputs : List Ept) (o : Origin) : Except TypeError Ept :=
  match inputs[o.position.val]? >>= descend o.depth with
  | some e => .ok e
  | none => .error (.wildcardUnresolved o)

/-- Answers for each index, or the first error. -/
def traverse {ε α : Type} : {n : Nat} → (Fin n → Except ε α) → Except ε (Fin n → α)
  | 0, _ => .ok fun i => i.elim0
  | _ + 1, f => do
    let x ← f 0
    let xs ← traverse fun i => f i.succ
    return fun i => i.cases x xs

/-- Puts the inputs' types in the place of the outermost wildcards. -/
def resolve (inputs : List Ept) : Ept → Except TypeError Ept
  | .node h args =>
    match h.origin? with
    | some o => ofOrigin inputs o
    | none => do
      let args ← traverse fun i => (args i).resolve inputs
      return .node h args

end GeneGraph.Ept
