import GeneGraph.Proofs.Checks
import GeneGraph.Proofs.Steps

/-!
# A source beside its destination

A source and a destination are walked side by side, template type by template type.
`Ept.Aligned` says which part of the source is met where the walk stops at a head of the
destination: at a fixed instance, which then stands for that part, or at a wildcard, which takes
whatever it is fed.

`Ept.mem_choices_iff` reads the choices for fixed instances off the alignment, and
`Registry.isCompatible_resolve_iff` says what is left to be asked of a source when the wildcards
of its destination are resolved.
-/

namespace GeneGraph

namespace Ept

/-- The part `x` of a source stands where the destination has a head at which `stop` answers `a`.
The walk goes no further there, nor where the numbers of template types differ. -/
inductive Aligned {α : Type} (stop : TypeUid → Option α) (a : α) (x : Ept) : Ept → Ept → Prop
  | head {d : Ept} : stop d.head = some a → Aligned stop a x x d
  | arg {e d : Ept} (h : e.head.arity = d.head.arity) (i : Fin d.head.arity) :
    stop d.head = none → Aligned stop a x (e.arg (i.cast (e.arity_eq d.head h))) (d.arg i) →
      Aligned stop a x e d

variable {α : Type} {stop : TypeUid → Option α} {a : α} {x e : Ept} {u : TypeUid}
  {args : Fin u.arity → Ept}

theorem aligned_of_stop {b : α} (hb : stop u = some b) :
    Aligned stop a x e (node u args) ↔ b = a ∧ e = x := by
  constructor
  · rintro (h | ⟨-, -, h, -⟩)
    · exact ⟨Option.some.inj (hb.symm.trans h), rfl⟩
    · exact absurd (hb.symm.trans h) (Option.some_ne_none b)
  · rintro ⟨rfl, rfl⟩
    exact .head hb

theorem aligned_of_none (hs : stop u = none) :
    Aligned stop a x e (node u args) ↔ ∃ (h : e.head.arity = u.arity) (i : Fin u.arity),
      Aligned stop a x (e.arg (i.cast (e.arity_eq u h))) (args i) := by
  constructor
  · rintro (h | ⟨h, i, -, hi⟩)
    · exact absurd (hs.symm.trans h) (Option.some_ne_none a).symm
    · exact ⟨h, i, hi⟩
  · rintro ⟨h, i, hi⟩
    exact .arg h i hs hi

/-- The choices of a connection are the parts of the source that stand at fixed instances. -/
theorem mem_choices_iff {i : Fin 8} {d : Ept} :
    (i, x) ∈ e.choices d ↔ Aligned TypeUid.instance? i x e d := by
  induction d generalizing e with
  | node u args ih =>
    rw [choices]
    cases hu : u.instance? with
    | some j =>
      rw [aligned_of_stop hu, List.mem_singleton, Prod.mk.injEq, eq_comm, eq_comm (a := x)]
    | none =>
      rw [aligned_of_none hu]
      by_cases h : e.head.arity = u.arity
      · simp [ih, h]
      · simp [h]

/-! ## Wildcards -/

theorem hasWildcard_node :
    (node u args).hasWildcard = true ↔ u.isWildcard = true ∨ ∃ i, (args i).hasWildcard = true := by
  simp only [hasWildcard, flat, List.any_cons, List.any_flatten, List.any_eq_true,
    Bool.or_eq_true, List.mem_ofFn, exists_exists_eq_and]

theorem hasWildcard_eq_false_iff : (node u args).hasWildcard = false ↔
    u.origin? = none ∧ ∀ i, (args i).hasWildcard = false := by
  rw [← Bool.not_eq_true, hasWildcard_node, not_or, not_exists, TypeUid.isWildcard,
    Option.not_isSome_iff_eq_none]
  simp only [Bool.not_eq_true]

/-- A type without wildcards has nothing at a wildcard. -/
theorem Aligned.hasWildcard {o : Origin} {d : Ept} (h : Aligned TypeUid.origin? o x e d) :
    d.hasWildcard = true := by
  induction h with
  | @head d hd =>
    cases d
    exact hasWildcard_node.mpr (Or.inl (Option.isSome_iff_exists.mpr ⟨o, hd⟩))
  | @arg e d _ i _ _ ih =>
    cases d
    exact hasWildcard_node.mpr (Or.inr ⟨i, ih⟩)

theorem traverse_eq_ok {ε : Type} {n : Nat} {f : Fin n → Except ε α} {xs : Fin n → α}
    (h : traverse f = .ok xs) (i : Fin n) : f i = .ok (xs i) := by
  induction n with
  | zero => exact i.elim0
  | succ n ih =>
    obtain ⟨y, hy, h⟩ := bind_eq_ok.mp h
    obtain ⟨ys, hys, h⟩ := bind_eq_ok.mp h
    cases h
    refine i.cases ?_ (fun j => ?_)
    · exact hy
    · exact ih hys j

end Ept

namespace Registry

variable {r : Registry} {u : TypeUid} {e d t : Ept} {args : Fin u.arity → Ept} {inputs : List Ept}

theorem isCompatible_node_iff (hu : u.origin? = none) :
    r.isCompatible e (.node u args) = true ↔ r.covers u e.head = true ∧
      (u.arity = 0 ∨ ∃ h : e.head.arity = u.arity, ∀ i : Fin u.arity,
        r.isCompatible (e.arg (i.cast (e.arity_eq u h))) (args i) = true) := by
  have hw : u.isWildcard = false := by rw [TypeUid.isWildcard, hu]; rfl
  rw [isCompatible, hw, Bool.false_or, Bool.and_eq_true, Bool.or_eq_true, decide_eq_true_iff]
  by_cases h : e.head.arity = u.arity <;> simp [h]

/-- When the wildcards of a destination get types, what the destination takes still feeds it
exactly if each part of it that stands at a wildcard feeds the type that the wildcard gets. -/
theorem isCompatible_resolve_iff (h : r.isCompatible e d = true)
    (ht : d.resolve inputs = .ok t) :
    r.isCompatible e t = true ↔ ∀ o x y, Ept.Aligned TypeUid.origin? o x e d →
      Ept.ofOrigin inputs o = .ok y → r.isCompatible x y = true := by
  induction d generalizing e t with
  | node u args ih =>
    rw [Ept.resolve] at ht
    cases hu : u.origin? with
    | some o =>
      simp only [hu] at ht
      simp only [Ept.aligned_of_stop hu]
      constructor
      · rintro hc _ _ y ⟨rfl, rfl⟩ hy
        rw [ht] at hy
        cases hy
        exact hc
      · exact fun hall => hall o e t ⟨rfl, rfl⟩ ht
    | none =>
      simp only [hu] at ht
      obtain ⟨ts, hts, ht⟩ := bind_eq_ok.mp ht
      cases ht
      simp only [Ept.aligned_of_none hu]
      rw [isCompatible_node_iff hu] at h ⊢
      obtain ⟨hc, h0 | ⟨ha, h⟩⟩ := h
      · exact ⟨fun _ _ _ _ ⟨_, i, _⟩ => (i.cast (congrArg Fin.val h0)).elim0,
          fun _ => ⟨hc, Or.inl h0⟩⟩
      · have hi := fun i => ih i (h i) (Ept.traverse_eq_ok hts i)
        constructor
        · rintro ⟨-, h0 | ⟨_, hall⟩⟩ o x y ⟨_, i, hx⟩
          · exact (i.cast (congrArg Fin.val h0)).elim0
          · exact (hi i).mp (hall i) o x y hx
        · exact fun hall => ⟨hc, Or.inr ⟨ha, fun i =>
            (hi i).mpr fun o x y hx => hall o x y ⟨ha, i, hx⟩⟩⟩

end Registry

end GeneGraph
