import GeneGraph.TypeUid

/-!
# End point types

An `Ept` is a tree of type identifiers in which every identifier has as many subtrees as it
takes template types. Its flat form lists the identifiers in pre-order; since every identifier
tells how many trees follow it, the tree can be read back.

`Ept.read` reads a given number of trees from the front of a list, and `Ept.read_flat_append`
says that it undoes `Ept.flat`, whatever follows. Trees are ordered by the length of the flat
form, then by its identifiers.
-/

namespace GeneGraph

/-- An end point type with all its template types. -/
inductive Ept where
  | node (head : TypeUid) (args : Fin head.arity → Ept)

/-- Why a list of identifiers, or a head with its template types, makes no tree. -/
inductive EptError where
  /-- `head` takes another number of template types. -/
  | arityMismatch (head : TypeUid) (given : Nat)
  /-- So many identifiers stand after a complete tree. -/
  | trailing (count : Nat)
  /-- The list of so many identifiers ends inside a tree. -/
  | truncated (length : Nat)
  deriving DecidableEq, Repr

namespace Ept

def head : Ept → TypeUid
  | node h _ => h

def arg : (e : Ept) → Fin e.head.arity → Ept
  | node _ args => args

/-- Types with equally many template types have them at the same places. -/
theorem arity_eq (src : Ept) (d : TypeUid) (h : src.head.arity = d.arity) :
    d.arity.val = src.head.arity.val := by
  rw [h]

def args (e : Ept) : List Ept := List.ofFn e.arg

/-- The identifiers in pre-order. -/
def flat : Ept → List TypeUid
  | node h args => h :: (List.ofFn fun i => (args i).flat).flatten

def length (e : Ept) : Nat := e.flat.length

def isScalar (e : Ept) : Bool := e.head.arity = 0

def hasWildcard (e : Ept) : Bool := e.flat.any TypeUid.isWildcard

/-- The type `head` with the given template types. -/
def ofArgs (head : TypeUid) (args : List Ept) : Except EptError Ept :=
  if h : args.length = head.arity then .ok (node head fun i => args[i])
  else .error (.arityMismatch head args.length)

/-! ## Reading the flat form -/

/-- Puts `u` over the first trees of a list, as many as it takes. -/
def gather (u : TypeUid) (es : List Ept) : Option (List Ept) :=
  if h : u.arity ≤ es.length then some (node u (fun i => es[i]) :: es.drop u.arity) else none

/-- Reads `n` trees from the front of a list, and gives the rest of the list. -/
def read : Nat → List TypeUid → Option (List Ept × List TypeUid)
  | 0, us => some ([], us)
  | _ + 1, [] => none
  | n + 1, u :: us =>
    match read (u.arity + n) us with
    | none => none
    | some (es, rest) => (gather u es).map fun es => (es, rest)

/-- Reads one tree from the front of a list, and gives the rest of the list. -/
def readOne (us : List TypeUid) : Option (Ept × List TypeUid) :=
  match read 1 us with
  | some (e :: _, rest) => some (e, rest)
  | _ => none

/-- Reads a list that is one tree. -/
def ofFlat (us : List TypeUid) : Except EptError Ept :=
  match readOne us with
  | none => .error (.truncated us.length)
  | some (e, []) => .ok e
  | some (_, rest) => .error (.trailing rest.length)

theorem gather_ofFn_append (u : TypeUid) (args : Fin u.arity → Ept) (es : List Ept) :
    gather u (List.ofFn args ++ es) = some (node u args :: es) := by
  have h : u.arity ≤ (List.ofFn args ++ es).length := by simp
  rw [gather, dif_pos h]
  congr 2
  · congr 1
    funext i
    simp [List.getElem_append_left]
  · simp

/-- Reading trees one after another gives them one after another. -/
theorem read_flatten_append {l : List Ept}
    (hl : ∀ e ∈ l, ∀ {n us es rest}, read n us = some (es, rest) →
      read (n + 1) (e.flat ++ us) = some (e :: es, rest))
    {n : Nat} {us rest : List TypeUid} {es : List Ept} (h : read n us = some (es, rest)) :
    read (l.length + n) ((l.map flat).flatten ++ us) = some (l ++ es, rest) := by
  induction l with
  | nil => simpa using h
  | cons e l ih =>
    have := hl e List.mem_cons_self (ih fun e he => hl e (List.mem_cons_of_mem _ he))
    rw [List.map_cons, List.flatten_cons, List.append_assoc, List.length_cons, List.cons_append,
      Nat.add_right_comm]
    exact this

theorem read_flat_append (e : Ept) : ∀ {n us es rest}, read n us = some (es, rest) →
    read (n + 1) (e.flat ++ us) = some (e :: es, rest) := by
  induction e with
  | node h args ih =>
    intro n us es rest hr
    have key := read_flatten_append (l := List.ofFn args) (fun e he => by
      obtain ⟨i, rfl⟩ := List.mem_ofFn.mp he
      exact ih i) hr
    rw [List.length_ofFn, List.map_ofFn] at key
    simp only [flat, List.cons_append, read]
    rw [show (fun i => (args i).flat) = flat ∘ args from rfl, key]
    simp only [gather_ofFn_append, Option.map_some]

/-- The flat form of a tree is read back, whatever follows it. -/
theorem readOne_flat_append (e : Ept) (us : List TypeUid) :
    readOne (e.flat ++ us) = some (e, us) := by
  rw [readOne, @read_flat_append e 0 us [] us (by cases us <;> rfl)]

theorem flat_injective {a b : Ept} (h : a.flat = b.flat) : a = b := by
  have ha := readOne_flat_append a []
  rw [h, readOne_flat_append b []] at ha
  exact (congrArg Prod.fst (Option.some.inj ha)).symm

instance : DecidableEq Ept := fun a b =>
  decidable_of_iff (a.flat = b.flat) ⟨flat_injective, congrArg flat⟩

/-- What is left after reading trees is shorter by at least their number. -/
theorem length_rest_of_read {n : Nat} {us rest : List TypeUid} {es : List Ept}
    (h : read n us = some (es, rest)) : rest.length + n ≤ us.length := by
  induction us generalizing n es rest with
  | nil =>
    cases n with
    | zero => simp only [read, Option.some.injEq, Prod.mk.injEq] at h; simp [← h.2]
    | succ n => simp [read] at h
  | cons u us ih =>
    cases n with
    | zero => simp only [read, Option.some.injEq, Prod.mk.injEq] at h; simp [← h.2]
    | succ n =>
      simp only [read] at h
      split at h
      · cases h
      · rename_i heq
        obtain ⟨_, _, h⟩ := Option.map_eq_some_iff.mp h
        have := ih heq
        simp only [Prod.mk.injEq] at h
        rw [← h.2, List.length_cons]
        omega

theorem length_rest_of_readOne {us rest : List TypeUid} {e : Ept}
    (h : readOne us = some (e, rest)) : rest.length < us.length := by
  simp only [readOne] at h
  split at h
  · rename_i heq
    have := length_rest_of_read heq
    simp only [Option.some.injEq, Prod.mk.injEq] at h
    rw [← h.2]
    exact this
  · cases h

/-! ## Order -/

/-- Shorter flat forms come first, those of equal length by their identifiers. -/
instance : SortKey Ept :=
  ⟨fun e => e.length :: e.flat.map TypeUid.number, fun h =>
    flat_injective ((List.map_inj_right fun _ _ h => TypeUid.number_injective h).mp
      (List.tail_eq_of_cons_eq h))⟩

end Ept

end GeneGraph
