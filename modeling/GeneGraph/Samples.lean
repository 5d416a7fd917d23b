import GeneGraph.Registry.Document
import GeneGraph.Stabilizer

/-!
# Sample types and codes

A small hierarchy of types, with a wildcard for the first input and one for its first template
type; codons, which are codes without anything inside, and codes of two of them; and a
stabilizer without types and candidates.
-/

namespace GeneGraph

/-- A sample record: a type that is no wildcard. -/
def plainRecord (name : String) (kind : TypeKind) (arity inst : Fin 8) (number : Fin 65536)
    (parents : List String) : TypeRecord :=
  ⟨name, ⟨arity, .plain inst number⟩, kind, parents, none, none, none⟩

/-- A sample record: a wildcard for the first input, so deep inside it. -/
def wildcardRecord (name : String) (depth : Fin 256) : TypeRecord :=
  ⟨name, ⟨0, .wildcard ⟨0, depth⟩⟩, .abstract, [], none, none, none⟩

/-- The records of the sample types. -/
def sampleRecords : List TypeRecord :=
  [plainRecord "object" .abstract 0 0 1 [],
    plainRecord "Number" .abstract 0 0 2 ["object"],
    plainRecord "int" .concrete 0 0 3 ["Number"],
    plainRecord "float" .concrete 0 0 4 ["Number"],
    plainRecord "str" .concrete 0 0 5 ["object"],
    plainRecord "bool" .concrete 0 0 6 ["object"],
    plainRecord "list" .concrete 1 0 7 ["object"],
    plainRecord "dict" .concrete 2 0 8 ["object"],
    plainRecord "object1" .abstract 0 1 9 ["object"],
    wildcardRecord "Input0" 0,
    wildcardRecord "Element0" 1]

/-- The registry of the sample types. -/
def sampleRegistry : Registry := (Registry.ofRecords sampleRecords).toOption.getD .empty

/-- A plain type without template types. -/
def Ept.plain (inst : Fin 8) (number : Fin 65536) : Ept := .node ⟨0, .plain inst number⟩ Fin.elim0

/-- A codon: a code with an interface and nothing inside. -/
def Code.codon (inputs outputs : Interface) : Code :=
  ofGraph (((Graph.ofKind .primitive).setRow .I (.ofSrc inputs)).setRow .O (.ofDst outputs))

/-- A frozen codon. -/
def Frozen.codon (inputs outputs : Interface) : Frozen := (Code.codon inputs outputs).freeze 0

/-- An interface of one plain type. -/
def Interface.single (number : Fin 65536) : Interface :=
  ⟨[Ept.plain 0 number], Nat.le_of_ble_eq_true rfl⟩

/-- A standard code of two sub-codes, without connections. -/
def Code.pair (inputs outputs : Interface) (a b : Frozen) : Code :=
  ((ofGraph (.standard inputs outputs)).setSub .A a).setSub .B b

/-- The code with connections, each from a source to a destination. -/
def Code.wired (c : Code) (connections : List (EndPoint × EndPoint)) : Code :=
  (c.connectAll connections).toOption.getD c

/-- A code with an input, an output and two codons that have neither. -/
def Code.sample : Code :=
  .pair (.single 3) (.single 3) (.codon .empty .empty) (.codon .empty .empty)

/-- A frozen interface of one output, with no body. -/
def Frozen.face : Frozen :=
  (Code.ofGraph ((Graph.ofKind .empty).setRow .O (.ofDst (.single 3)))).freeze 0

/-- A code in which the input goes through two codons to the output. -/
def Code.chain : Code :=
  (pair (.single 3) (.single 3) (.codon (.single 3) (.single 3))
    (.codon (.single 3) (.single 3))).wired
      [(⟨.I, 0⟩, ⟨.A, 0⟩), (⟨.A, 0⟩, ⟨.B, 0⟩), (⟨.B, 0⟩, ⟨.O, 0⟩)]

/-- The frozen code of two codons in a row. -/
def Frozen.chain : Frozen := Code.chain.freeze 0

/-- A stabilizer with default tuning. -/
def Stabilizer.sample : Stabilizer := ⟨.empty, .timingOut, .default⟩

/-- A stabilizer whose pool always offers a codon with one output. -/
def Stabilizer.offering : Stabilizer where
  registry := .empty
  pool :=
    { find := fun _ _ => .ok [⟨(Frozen.codon .empty (.single 3)).digest, .primitive, 1, 0⟩]
      fetch := fun _ => .ok (.codon .empty (.single 3)) }
  tuning := .default

/-- A run before its first step. -/
def Run.sample : Run := ⟨.ofSeed 0, 0, 1, [], []⟩

end GeneGraph
