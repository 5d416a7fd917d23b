import GeneGraph.Procedure
import GeneGraph.Proofs.NormalForm

/-!
# Interfaces as they are stored

An interface is stored with the number of its elements beside its types. The number is looked at
before an end point is added, and every operation writes the number and the types one after the
other. A reordering writes the place of each end point to the index of the end point, and takes the
types out one by one.

`Interface.Stored` is such a record, and its operations are procedures, which could fail between two
writes. They do not (`Interface.Stored.perform_error`): an operation does to the record what it does
to the interface, and gives the same reply (`Interface.perform_stored`). So after any operations the
stored number is right, and an interface never has too many elements (`Interface.run_stored`).
-/

namespace GeneGraph

namespace Interface

/-! ## Operations -/

/-- What can be done to the end points of an interface. -/
inductive Operation where
  | push (e : Ept)
  | insert (e : Ept)
  | remove (index : Nat)
  | reorder

/-- What an operation gives back. -/
inductive Reply where
  /-- The index of a new end point. -/
  | index (k : Nat)
  /-- The type of an end point that was removed. -/
  | removed (e : Ept)
  /-- The new indices of all end points. -/
  | places (p : List Nat)
  deriving DecidableEq

/-- Does one operation, and gives its reply. -/
def perform (i : Interface) : Operation → Except GraphError (Reply × Interface)
  | .push e => do
    let i' ← i.push e
    return (.index i.length, i')
  | .insert e => do
    let i' ← i.insert e
    return (.index (i.slot e), i')
  | .remove k => do
    let (e, i') ← i.remove k
    return (.removed e, i')
  | .reorder => .ok (.places i.places, i.reorder)

/-- Does one operation on an interface, which stays the same if the operation fails. -/
def operate (x : Operation) : Procedure GraphError Interface Reply := .atomic fun i => i.perform x

section Runs

variable {σ τ : Type}

/-- Does one operation after the other, whether they fail or not. -/
def run (step : Operation → Procedure GraphError σ Reply) (s : σ) :
    List Operation → List (Except GraphError Reply) × σ
  | [] => ([], s)
  | x :: xs =>
    let (reply, s') := (step x).outcome s
    (run step s' xs).map (reply :: ·) id

/-- Where each operation does the same on both sides, so does a run of them. -/
theorem run_eq {step : Operation → Procedure GraphError σ Reply}
    {step' : Operation → Procedure GraphError τ Reply} {f : σ → τ}
    (h : ∀ s x, (step' x).outcome (f s) = ((step x).outcome s).map id f) (s : σ)
    (xs : List Operation) : run step' (f s) xs = (run step s xs).map id f := by
  induction xs generalizing s with
  | nil => rfl
  | cons x xs ih =>
    rw [run, run, h]
    exact congrArg (Prod.map _ id) (ih _)

end Runs

/-! ## The record -/

/-- An interface as it is stored. -/
structure Stored where
  /-- The types in index order. -/
  epts : List Ept
  /-- The number of elements. -/
  count : Nat
  deriving DecidableEq

namespace Stored

def empty : Stored := ⟨[], 0⟩

/-- Complains of another end point whose elements would be too many. -/
def reserve (e : Ept) : Procedure GraphError Stored Unit := do
  let s ← get
  if maxElements < s.count + e.length then throw (.overflow (s.count + e.length))

def slot (s : Stored) (e : Ept) : Nat :=
  searchLast (fun k => (s.epts[k]?).any fun x => !decide (Before e x)) 0 s.epts.length

/-- The indices, sorted by the types of the end points. -/
def order (s : Stored) : List Nat := (stableSort Prod.fst s.epts.zipIdx).map Prod.snd

/-- Writes to each index its position in `order`. -/
def written (order : List Nat) : List Nat :=
  order.zipIdx.foldl (fun p x => p.set x.1 x.2) (List.replicate order.length 0)

/-- Takes the types out of their slots in the given order; an empty slot is passed over. -/
def taken (slots : List (Option Ept)) : List Nat → List Ept
  | [] => []
  | k :: order =>
    match slots[k]? with
    | some (some e) => e :: taken (slots.set k none) order
    | _ => taken slots order

def push (e : Ept) : Procedure GraphError Stored Nat := do
  reserve e
  modify fun s => { s with count := s.count + e.length }
  modify fun s => { s with epts := s.epts ++ [e] }
  return (← get).epts.length - 1

def insert (e : Ept) : Procedure GraphError Stored Nat := do
  reserve e
  let k := (← get).slot e
  modify fun s => { s with count := s.count + e.length }
  modify fun s => { s with epts := s.epts.insertIdx k e }
  return k

def remove (k : Nat) : Procedure GraphError Stored Ept := do
  let s ← get
  match s.epts[k]? with
  | none => throw (.outOfRange k s.epts.length)
  | some e =>
    modify fun s => { s with epts := s.epts.eraseIdx k }
    modify fun s => { s with count := s.count - e.length }
    return e

def reorder : Procedure GraphError Stored (List Nat) := do
  let s ← get
  modify fun s => { s with epts := taken (s.epts.map some) s.order }
  return written s.order

/-- Does one operation on the record in place. -/
def perform : Operation → Procedure GraphError Stored Reply
  | .push e => .index <$> push e
  | .insert e => .index <$> insert e
  | .remove k => .removed <$> remove k
  | .reorder => .places <$> reorder

/-! ## What the operations leave -/

section Outcomes

variable {s : Stored}

theorem outcome_reserve (s : Stored) (e : Ept) : (reserve e).outcome s =
    if s.count + e.length ≤ maxElements then (.ok (), s)
    else (.error (.overflow (s.count + e.length)), s) := by
  refine (Procedure.outcome_bind_ok (a := s) rfl).trans ?_
  by_cases hroom : s.count + e.length ≤ maxElements
  · rw [if_pos hroom, if_neg (Nat.not_lt.mpr hroom)]
    rfl
  · rw [if_neg hroom, if_pos (Nat.lt_of_not_le hroom)]
    rfl

theorem outcome_push (s : Stored) (e : Ept) : (push e).outcome s =
    if s.count + e.length ≤ maxElements then
      (.ok s.epts.length, ⟨s.epts ++ [e], s.count + e.length⟩)
    else (.error (.overflow (s.count + e.length)), s) := by
  have hlast : (s.epts ++ [e]).length - 1 = s.epts.length := by
    rw [List.length_append, List.length_singleton, Nat.add_sub_cancel]
  rw [push, Procedure.outcome_bind, outcome_reserve, ← hlast]
  split_ifs <;> rfl

theorem outcome_insert (s : Stored) (e : Ept) : (insert e).outcome s =
    if s.count + e.length ≤ maxElements then
      (.ok (s.slot e), ⟨s.epts.insertIdx (s.slot e) e, s.count + e.length⟩)
    else (.error (.overflow (s.count + e.length)), s) := by
  rw [insert, Procedure.outcome_bind, outcome_reserve]
  split_ifs <;> rfl

theorem outcome_remove (s : Stored) (k : Nat) : (remove k).outcome s =
    match s.epts[k]? with
    | none => (.error (.outOfRange k s.epts.length), s)
    | some e => (.ok e, ⟨s.epts.eraseIdx k, s.count - e.length⟩) := by
  refine (Procedure.outcome_bind_ok (a := s) rfl).trans ?_
  cases s.epts[k]? <;> rfl

theorem outcome_reorder (s : Stored) : reorder.outcome s =
    (.ok (written s.order), ⟨taken (s.epts.map some) s.order, s.count⟩) := rfl

/-- An operation that fails has not written anything. -/
theorem perform_error {s' : Stored} {x : Operation} {err : GraphError}
    (h : (perform x).outcome s = (.error err, s')) : s' = s := by
  cases x with
  | push e =>
    rw [perform, Procedure.outcome_map, outcome_push] at h
    split_ifs at h
    · cases h
    · cases h
      rfl
  | insert e =>
    rw [perform, Procedure.outcome_map, outcome_insert] at h
    split_ifs at h
    · cases h
    · cases h
      rfl
  | remove k =>
    rw [perform, Procedure.outcome_map, outcome_remove] at h
    cases hk : s.epts[k]? with
    | none =>
      rw [hk] at h
      cases h
      rfl
    | some e =>
      rw [hk] at h
      cases h
  | reorder =>
    rw [perform, Procedure.outcome_map, outcome_reorder] at h
    cases h

end Outcomes

/-! ## Reordering in place -/

section Written

variable {p : List Nat} {l : List (Nat × Nat)} {k m : Nat}

theorem length_foldl_set : (l.foldl (fun p x => p.set x.1 x.2) p).length = p.length := by
  induction l generalizing p with
  | nil => rfl
  | cons x l ih => rw [List.foldl_cons, ih, List.length_set]

theorem getElem?_foldl_set_of_not_mem (h : k ∉ l.map Prod.fst) :
    (l.foldl (fun p x => p.set x.1 x.2) p)[k]? = p[k]? := by
  induction l generalizing p with
  | nil => rfl
  | cons x l ih =>
    rw [List.map_cons, List.mem_cons, not_or] at h
    rw [List.foldl_cons, ih h.2, List.getElem?_set_ne (Ne.symm h.1)]

/-- What is written to an index stays there if nothing else is written to it. -/
theorem getElem?_foldl_set (hl : (l.map Prod.fst).Nodup) (h : (k, m) ∈ l) (hk : k < p.length) :
    (l.foldl (fun p x => p.set x.1 x.2) p)[k]? = some m := by
  induction l generalizing p with
  | nil => cases h
  | cons x l ih =>
    rw [List.map_cons, List.nodup_cons] at hl
    rw [List.foldl_cons]
    rcases List.mem_cons.mp h with rfl | h
    · rw [getElem?_foldl_set_of_not_mem hl.1, List.getElem?_set_self hk]
    · exact ih hl.2 h (by rwa [List.length_set])

end Written

theorem taken_eq {slots : List (Option Ept)} {l : List Ept} {order : List Nat}
    (hd : order.Nodup) (h : ∀ k ∈ order, slots[k]? = (l[k]?).map some) :
    taken slots order = order.filterMap fun k => l[k]? := by
  induction order generalizing slots with
  | nil => rfl
  | cons k order ih =>
    obtain ⟨hk, hd⟩ := List.nodup_cons.mp hd
    obtain ⟨hslot, h⟩ := List.forall_mem_cons.mp h
    rw [taken, hslot, List.filterMap_cons]
    cases l[k]? with
    | none => exact ih hd h
    | some e =>
      refine congrArg (e :: ·) (ih hd fun k' hk' => ?_)
      have hne : k ≠ k' := fun heq => hk (by rwa [heq])
      rw [List.getElem?_set_ne hne]
      exact h k' hk'

end Stored

/-! ## The record stands for the interface -/

variable {i i' : Interface} {e : Ept} {k : Nat}

/-- The record of an interface. -/
def stored (i : Interface) : Stored := ⟨i.epts, i.elements⟩

theorem written_order (i : Interface) : Stored.written i.order = i.places := by
  have hnodup : (i.order.zipIdx.map Prod.fst).Nodup := by
    rw [List.zipIdx_map_fst]
    exact i.nodup_order
  have hlength : (Stored.written i.order).length = i.length := by
    rw [Stored.written, Stored.length_foldl_set, List.length_replicate, length_order]
  refine List.ext_getElem? fun k => ?_
  by_cases hk : k < i.length
  · have hmem : (k, i.order.idxOf k) ∈ i.order.zipIdx := by
      rw [List.mem_zipIdx_iff_getElem?, List.getElem?_idxOf (mem_order.mpr hk)]
    rw [getElem?_places hk, Stored.written, Stored.getElem?_foldl_set hnodup hmem]
    rwa [List.length_replicate, length_order]
  · rw [List.getElem?_eq_none (by omega), List.getElem?_eq_none]
    rw [places, List.length_map, List.length_range]
    omega

theorem taken_order (i : Interface) :
    Stored.taken (i.epts.map some) i.order = i.reorder.epts := by
  rw [Stored.taken_eq i.nodup_order fun k _ => List.getElem?_map, order, List.filterMap_map]
  show _ = i.sorted.map Prod.fst
  rw [← List.filterMap_eq_map]
  exact List.filterMap_congr fun x hx => get?_of_mem_sorted hx

/-- An interface takes a further end point if it has room for it. -/
theorem grow_stored {epts : List Ept} (h : elementsOf epts = i.elements + e.length)
    (hroom : i.stored.count + e.length ≤ maxElements) :
    ∃ i', i.grow e epts h = .ok i' ∧ i'.stored = ⟨epts, i.stored.count + e.length⟩ := by
  refine ⟨⟨epts, h ▸ hroom⟩, dif_pos hroom, ?_⟩
  show Stored.mk epts (elementsOf epts) = _
  rw [h]
  rfl

theorem grow_full {epts : List Ept} (h : elementsOf epts = i.elements + e.length)
    (hroom : ¬ i.stored.count + e.length ≤ maxElements) :
    i.grow e epts h = .error (.overflow (i.stored.count + e.length)) :=
  dif_neg hroom

theorem elementsOf_eraseIdx {l : List Ept} (h : l[k]? = some e) :
    elementsOf (l.eraseIdx k) + e.length = elementsOf l := by
  induction l generalizing k with
  | nil => cases h
  | cons d l ih =>
    cases k with
    | zero =>
      cases h
      exact Nat.add_comm _ _
    | succ k =>
      have := ih h
      rw [List.eraseIdx_cons_succ, elementsOf, elementsOf]
      omega

/-- An operation does to the record what it does to the interface. -/
theorem perform_stored (i : Interface) (x : Operation) :
    (Stored.perform x).outcome i.stored = ((operate x).outcome i).map id stored := by
  rw [operate, Procedure.outcome_atomic]
  cases x with
  | push e =>
    rw [Stored.perform, Procedure.outcome_map, Stored.outcome_push, perform]
    by_cases hroom : i.stored.count + e.length ≤ maxElements
    · obtain ⟨i', hpush, hi'⟩ : ∃ i', i.push e = .ok i' ∧ _ := grow_stored _ hroom
      rw [if_pos hroom, hpush]
      exact Prod.ext rfl hi'.symm
    · have hpush : i.push e = .error _ := grow_full _ hroom
      rw [if_neg hroom, hpush]
      rfl
  | insert e =>
    rw [Stored.perform, Procedure.outcome_map, Stored.outcome_insert, perform]
    by_cases hroom : i.stored.count + e.length ≤ maxElements
    · obtain ⟨i', hinsert, hi'⟩ : ∃ i', i.insert e = .ok i' ∧ _ := grow_stored _ hroom
      rw [take_append_cons_drop e (i.slot_le e)] at hi'
      rw [if_pos hroom, hinsert]
      exact Prod.ext rfl hi'.symm
    · have hinsert : i.insert e = .error _ := grow_full _ hroom
      rw [if_neg hroom, hinsert]
      rfl
  | remove k =>
    have hget : i.stored.epts[k]? = i.get? k := rfl
    rw [Stored.perform, Procedure.outcome_map, Stored.outcome_remove, hget, perform, remove]
    cases he : i.get? k with
    | none => rfl
    | some e =>
      have herase := elementsOf_eraseIdx he
      have hcount : i.elements - e.length = elementsOf (i.epts.eraseIdx k) := by
        unfold elements
        omega
      refine Prod.ext rfl ?_
      show Stored.mk (i.epts.eraseIdx k) (i.elements - e.length) = _
      rw [hcount]
      rfl
  | reorder =>
    have hcount : i.elements = i.reorder.elements := elementsOf_perm i.sorted_perm.symm
    show (Except.ok (Reply.places (Stored.written i.order)),
      Stored.mk (Stored.taken (i.epts.map some) i.order) i.elements) = _
    rw [written_order, taken_order, hcount]
    rfl

/-- After any operations the record of an empty interface has the types of the interface, as many
elements as these have, and not too many; and each operation replied the same. -/
theorem run_stored (xs : List Operation) :
    run Stored.perform .empty xs = (run operate .empty xs).map id stored :=
  run_eq perform_stored empty xs

end Interface

end GeneGraph
