import GeneGraph.Proofs.Identity
import GeneGraph.Samples

/-!
# Operations that fail

An operation that fails changes no interface and no connection. But pushing, inserting and
removing reach for the side of a row and make the row present for that (`Change.opens?`), before
it is known whether they succeed. So the graph is what it was exactly if that row was present
(`Graph.failed_keeps_iff`); otherwise an empty row is left behind. Connecting looks at its end
points first and leaves nothing behind.
-/

namespace GeneGraph

/-- The row that an operation makes present to look at a side of it. -/
def Change.opens? : Change → Option Row
  | .push row _ _ | .insert row _ _ | .remove row _ _ => some row
  | _ => none

/-- The error says that an end point did not fit, or that there was none. -/
inductive GraphError.Bounds : GraphError → Prop
  | overflow {n : Nat} (h : maxElements < n) : Bounds (.overflow n)
  | outOfRange {k n : Nat} (h : n ≤ k) : Bounds (.outOfRange k n)

namespace Interface

variable {i : Interface} {e : Ept} {err : GraphError} {k : Nat}

theorem bounds_of_grow {epts : List Ept} {hepts : elementsOf epts = i.elements + e.length}
    (h : i.grow e epts hepts = .error err) : err.Bounds := by
  unfold grow at h
  split at h
  · cases h
  · cases h
    exact .overflow (by omega)

theorem bounds_of_remove (h : i.remove k = .error err) : err.Bounds := by
  unfold remove at h
  split at h
  · rename_i hk
    cases h
    exact .outOfRange (List.getElem?_eq_none_iff.mp hk)
  · cases h

end Interface

namespace Graph

variable {g : Graph} {row : Row} {a : Side} {e : Ept} {k : Nat} {src dst : EndPoint}
  {err : GraphError} {x : Change}

/-! ## Failures of single operations -/

theorem addRow_eq_self_iff : g.addRow row = g ↔ g.hasRow row = true := by
  constructor
  · intro h
    rw [← h, hasRow_addRow, decide_eq_true rfl, Bool.true_or]
  · intro h
    obtain ⟨s, hs⟩ := Option.isSome_iff_exists.mp h
    refine Graph.ext_iff.mpr ⟨rfl, SortedMap.ext fun r => ?_, rfl⟩
    refine (row?_addRow g row r).trans ?_
    split
    · rename_i hr
      rw [hs, hr]
      exact hs.symm
    · rfl

theorem push_error (h : (g.push row a e).1 = .error err) :
    (g.push row a e).2 = g.addRow row ∧ err.Bounds := by
  unfold push at h ⊢
  simp only at h ⊢
  split at h
  · rename_i hi
    cases h
    exact ⟨rfl, Interface.bounds_of_grow hi⟩
  · cases h

theorem insert_error (h : (g.insert row a e).1 = .error err) :
    (g.insert row a e).2 = g.addRow row ∧ err.Bounds := by
  unfold insert at h ⊢
  simp only at h ⊢
  split at h
  · rename_i hi
    cases h
    exact ⟨rfl, Interface.bounds_of_grow hi⟩
  · cases h

theorem remove_error (h : (g.remove row a k).1 = .error err) :
    (g.remove row a k).2 = g.addRow row ∧ err.Bounds := by
  unfold remove at h ⊢
  split at h
  · rename_i hi
    cases h
    exact ⟨rfl, Interface.bounds_of_remove hi⟩
  · cases h

theorem checkPoint_error {p : EndPoint} (h : g.checkPoint a p = .error err) : err.Bounds := by
  unfold checkPoint at h
  split at h
  · cases h
  · rename_i hp
    cases h
    exact .outOfRange (by simpa [exists?] using hp)

theorem connect_error (h : (g.connect src dst).1 = .error err) :
    (g.connect src dst).2 = g ∧ err.Bounds := by
  unfold connect at h ⊢
  split at h
  · rename_i hs
    cases h
    exact ⟨rfl, checkPoint_error hs⟩
  · rename_i hd
    cases h
    exact ⟨rfl, checkPoint_error hd⟩
  · cases h

/-! ## Failures -/

/-- The graph with the row of the operation. -/
def opened (g : Graph) (x : Change) : Graph :=
  match x.opens? with
  | none => g
  | some row => g.addRow row

theorem failed_of_answer {α : Type} {f : α → Answer EndPoint} {y : Edit α}
    (hf : ∀ a err, f a ≠ .failed err) (h : (answer f y).1 = .failed err) :
    y.1 = .error err ∧ (answer f y).2 = y.2 := by
  obtain ⟨ans, g⟩ := y
  cases ans with
  | error err' =>
    cases h
    exact ⟨rfl, rfl⟩
  | ok b => exact absurd h (hf b err)

theorem failed_eq (h : (g.apply x).1 = .failed err) : (g.apply x).2 = g.opened x ∧ err.Bounds := by
  cases x with
  | push row a e =>
    obtain ⟨herr, hg⟩ := failed_of_answer (fun _ _ h => by cases h) h
    exact ⟨hg.trans (push_error herr).1, (push_error herr).2⟩
  | insert row a e =>
    obtain ⟨herr, hg⟩ := failed_of_answer (fun _ _ h => by cases h) h
    exact ⟨hg.trans (insert_error herr).1, (insert_error herr).2⟩
  | remove row a index =>
    obtain ⟨herr, hg⟩ := failed_of_answer (fun _ _ h => by cases h) h
    exact ⟨hg.trans (remove_error herr).1, (remove_error herr).2⟩
  | connect src dst =>
    obtain ⟨herr, hg⟩ := failed_of_answer (fun _ _ h => by cases h) h
    exact ⟨hg.trans (connect_error herr).1, (connect_error herr).2⟩
  | _ => cases h

/-- The graphs differ in the rows that are present only. -/
structure Alike (g g' : Graph) : Prop where
  kind_eq : g'.kind = g.kind
  wires_eq : g'.wires = g.wires
  interface_eq : ∀ row a, g'.interface row a = g.interface row a

theorem alike_opened (g : Graph) (x : Change) : g.Alike (g.opened x) := by
  unfold opened
  cases x.opens? with
  | none => exact ⟨rfl, rfl, fun _ _ => rfl⟩
  | some row => exact ⟨rfl, rfl, fun _ _ => interface_addRow⟩

theorem opened_eq_self_iff :
    g.opened x = g ↔ ∀ row, x.opens? = some row → g.hasRow row = true := by
  unfold opened
  cases x.opens? with
  | none => exact ⟨fun _ => nofun, fun _ => rfl⟩
  | some row =>
    refine addRow_eq_self_iff.trans ⟨fun h r hr => ?_, fun h => h row rfl⟩
    cases hr
    exact h

/-- An operation that fails for want of room or of an end point leaves the graph as it was exactly
if it did not reach for an absent row. Interfaces and connections are as they were in any case. -/
theorem failed_keeps_iff (h : (g.apply x).1 = .failed err) : err.Bounds ∧
    ((g.apply x).2 = g ↔ ∀ row, x.opens? = some row → g.hasRow row = true) ∧
    g.Alike (g.apply x).2 := by
  obtain ⟨hg, herr⟩ := failed_eq h
  rw [hg]
  exact ⟨herr, opened_eq_self_iff, g.alike_opened x⟩

/-- Row I is present, but has no second source. -/
theorem failed_keeps_iff_input :
    let g := Graph.standard (.single 3) .empty
    (g.apply (.remove .I .src 1)).1 = .failed (.outOfRange 1 1) ∧
      (g.apply (.remove .I .src 1)).2 = g := by
  intro g
  have h : (g.apply (.remove .I .src 1)).1 = .failed (.outOfRange 1 1) := rfl
  exact ⟨h, (failed_keeps_iff h).2.1.mpr fun row hrow => by cases hrow; rfl⟩

/-- Row A is absent before a removal fails, and present after it. -/
theorem failed_remove_adds_row :
    let g := Graph.ofKind .standard
    (g.apply (.remove .A .src 0)).1 = .failed (.outOfRange 0 0) ∧
      (g.apply (.remove .A .src 0)).2 ≠ g ∧ g.hasRow .A = false ∧
        (g.apply (.remove .A .src 0)).2.hasRow .A = true := by
  refine ⟨rfl, ?_, rfl, rfl⟩
  decide

end Graph

end GeneGraph
