import GeneGraph.GraphError
import GeneGraph.StableSort

/-!
# Interfaces

An `Interface` is the list of the end point types of one side of a row. Its elements, counted in
the flat forms, are at most 256. It is canonical when its types ascend; `Interface.insert` keeps
it canonical, and `Interface.reorder` makes it so.
-/

namespace GeneGraph

/-- The most elements an interface may have. -/
def maxElements : Nat := 256

/-- The number of identifiers in the flat forms of some types. -/
def elementsOf : List Ept → Nat
  | [] => 0
  | e :: es => e.length + elementsOf es

theorem elementsOf_append (l l' : List Ept) :
    elementsOf (l ++ l') = elementsOf l + elementsOf l' := by
  induction l with
  | nil => rw [elementsOf, Nat.zero_add, List.nil_append]
  | cons e l ih => rw [List.cons_append, elementsOf, elementsOf, ih, Nat.add_assoc]

theorem elementsOf_perm {l l' : List Ept} (h : l.Perm l') : elementsOf l = elementsOf l' := by
  induction h with
  | nil => rfl
  | cons e _ ih => rw [elementsOf, elementsOf, ih]
  | swap e e' l => simp only [elementsOf, Nat.add_left_comm]
  | trans _ _ ih ih' => exact ih.trans ih'

/-- The end point types of one side of a row. -/
structure Interface where
  /-- The types in index order. -/
  epts : List Ept
  fits : elementsOf epts ≤ maxElements
  deriving DecidableEq

namespace Interface

def empty : Interface := ⟨[], Nat.zero_le _⟩

instance : Inhabited Interface := ⟨empty⟩

def length (i : Interface) : Nat := i.epts.length

def elements (i : Interface) : Nat := elementsOf i.epts

def isEmpty (i : Interface) : Bool := i.epts.isEmpty

def get? (i : Interface) (index : Nat) : Option Ept := i.epts[index]?

/-- No type comes before the type at the index before it. -/
def isCanonicalList : List Ept → Bool
  | a :: b :: rest => !decide (Before b a) && isCanonicalList (b :: rest)
  | _ => true

/-- The types ascend. -/
def isCanonical (i : Interface) : Bool := isCanonicalList i.epts

/-! ## Adding end points -/

/-- The interface with types that have the elements of the old ones and of `e`, if they fit. -/
def grow (i : Interface) (e : Ept) (epts : List Ept)
    (h : elementsOf epts = i.elements + e.length) : Except GraphError Interface :=
  if hle : i.elements + e.length ≤ maxElements then .ok ⟨epts, h ▸ hle⟩
  else .error (.overflow (i.elements + e.length))

def push (i : Interface) (e : Ept) : Except GraphError Interface :=
  i.grow e (i.epts ++ [e]) (by simp [elementsOf, elements, elementsOf_append])

/-- The interface of the given types in the given order. -/
def ofList (epts : List Ept) : Except GraphError Interface := epts.foldlM push empty

/-- Halves a range of `size` indices from `base` on until one index is left, going to the upper
half whenever `p` holds at its first index; the answer is the index behind the last one for
which `p` holds, if `p` holds up to there and not after it. -/
def searchLast (p : Nat → Bool) (base size : Nat) : Nat :=
  if size ≤ 1 then if size = 1 ∧ p base then base + 1 else base
  else searchLast p (if p (base + size / 2) then base + size / 2 else base) (size - size / 2)
termination_by size

/-- The index behind the last type that does not come after `e`, found by halving. -/
def slot (i : Interface) (e : Ept) : Nat :=
  searchLast (fun k => (i.get? k).any fun x => !decide (Before e x)) 0 i.length

theorem elementsOf_insertIdx (l : List Ept) (k : Nat) (e : Ept) :
    elementsOf (l.take k ++ e :: l.drop k) = elementsOf l + e.length := by
  have h : elementsOf (l.take k ++ e :: l.drop k) = elementsOf (e :: (l.take k ++ l.drop k)) :=
    elementsOf_perm List.perm_middle
  rw [h, List.take_append_drop]
  simp [elementsOf, Nat.add_comm]

/-- Inserts an end point behind every end point whose type does not come after its own. -/
def insert (i : Interface) (e : Ept) : Except GraphError Interface :=
  i.grow e (i.epts.take (i.slot e) ++ e :: i.epts.drop (i.slot e)) (elementsOf_insertIdx ..)

/-! ## Removing and reordering end points -/

theorem elementsOf_eraseIdx_le (l : List Ept) (k : Nat) :
    elementsOf (l.eraseIdx k) ≤ elementsOf l := by
  induction l generalizing k with
  | nil => simp
  | cons e l ih =>
    cases k with
    | zero => simp [elementsOf]
    | succ k => simpa [elementsOf] using ih k

/-- Removes an end point, and gives its type. -/
def remove (i : Interface) (index : Nat) : Except GraphError (Ept × Interface) :=
  match i.get? index with
  | none => .error (.outOfRange index i.length)
  | some e =>
    .ok (e, ⟨i.epts.eraseIdx index, Nat.le_trans (elementsOf_eraseIdx_le _ _) i.fits⟩)

/-- The types with their indices, in canonical order. -/
def sorted (i : Interface) : List (Ept × Nat) := stableSort Prod.fst i.epts.zipIdx

theorem sorted_perm (i : Interface) : (i.sorted.map Prod.fst).Perm i.epts := by
  have h := (stableSort_perm Prod.fst i.epts.zipIdx).map Prod.fst
  rwa [List.zipIdx_map_fst] at h

/-- The types in canonical order, end points of equal type in the order they had. -/
def reorder (i : Interface) : Interface :=
  ⟨i.sorted.map Prod.fst, elementsOf_perm i.sorted_perm ▸ i.fits⟩

/-- The place of each end point in canonical order. -/
def places (i : Interface) : List Nat :=
  let order := i.sorted.map Prod.snd
  (List.range i.length).map fun k => order.idxOf k

end Interface

end GeneGraph
