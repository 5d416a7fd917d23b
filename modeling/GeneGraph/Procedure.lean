/-!
# Procedures

A `Procedure` changes a state as it goes on, and may fail on the way. What it changed until then
stays changed, unless it is `Procedure.atomic`.
-/

namespace GeneGraph

/-- An answer or an error, and the state afterwards. -/
abbrev Procedure (ε σ α : Type) := ExceptT ε (StateM σ) α

namespace Procedure

variable {ε σ α β : Type} {m : Procedure ε σ α} {k : α → Procedure ε σ β} {s s' : σ} {a : α}
  {err : ε}

/-- What is answered, and the state afterwards. -/
def outcome (m : Procedure ε σ α) (s : σ) : Except ε α × σ := m.run.run s

/-- Answers and goes over to another state, or fails and leaves the state as it is. -/
def atomic (f : σ → Except ε (α × σ)) : Procedure ε σ α := do
  match f (← get) with
  | .ok (a, s) => set s; return a
  | .error err => throw err

theorem outcome_lift {x y : Except ε α} (h : x = y) (s : σ) :
    outcome (liftM x : Procedure ε σ α) s = (y, s) := by
  rw [h]
  rfl

theorem outcome_bind (m : Procedure ε σ α) (k : α → Procedure ε σ β) (s : σ) :
    (m >>= k).outcome s = match m.outcome s with
      | (.ok a, s') => (k a).outcome s'
      | (.error err, s') => (.error err, s') := by
  unfold outcome
  rw [ExceptT.run_bind, StateT.run_bind]
  rcases m.run.run s with ⟨_ | _, _⟩ <;> rfl

theorem outcome_map (g : α → β) (m : Procedure ε σ α) (s : σ) :
    (g <$> m).outcome s = match m.outcome s with
      | (.ok a, s') => (.ok (g a), s')
      | (.error err, s') => (.error err, s') := by
  unfold outcome
  rw [ExceptT.run_map, StateT.run_map]
  rcases m.run.run s with ⟨_ | _, _⟩ <;> rfl

theorem outcome_bind_ok (h : m.outcome s = (.ok a, s')) :
    (m >>= k).outcome s = (k a).outcome s' := by
  rw [outcome_bind, h]

theorem outcome_bind_error (h : m.outcome s = (.error err, s')) :
    (m >>= k).outcome s = (.error err, s') := by
  rw [outcome_bind, h]

/-- Where two sides refuse the same, it is enough to look at what they do otherwise. -/
theorem outcome_refuse {c c' : Prop} [Decidable c] [Decidable c'] {g : β → α}
    {x : ¬ c' → Except ε β} (hc : c ↔ c') (h : ∀ hn, m.outcome s = ((x hn).map g, s)) :
    (if c then throw err else m : Procedure ε σ α).outcome s =
      ((if hn : c' then .error err else x hn).map g, s) := by
  by_cases hn : c'
  · rw [if_pos (hc.mpr hn), dif_pos hn]
    rfl
  · rw [if_neg (mt hc.mp hn), dif_neg hn]
    exact h hn

theorem outcome_tryCatch (m : Procedure ε σ α) (f : ε → Procedure ε σ α) (s : σ) :
    outcome (tryCatch m f) s = match m.outcome s with
      | (.ok a, s') => (.ok a, s')
      | (.error err, s') => (f err).outcome s' := by
  unfold outcome
  rw [ExceptT.run_tryCatch, StateT.run_bind]
  rcases m.run.run s with ⟨_ | _, _⟩ <;> rfl

theorem outcome_atomic (f : σ → Except ε (α × σ)) (s : σ) :
    (atomic f).outcome s = match f s with
      | .ok (a, s') => (.ok a, s')
      | .error err => (.error err, s) := by
  refine (outcome_bind_ok (a := s) rfl).trans ?_
  cases f s <;> rfl

end Procedure

end GeneGraph
