import GeneGraph.Proofs.Alignment
import GeneGraph.Proofs.Ancestors
import Mathlib.Data.Fin.Basic

/-!
# The order of the plain types

A type is plain if it has neither wildcards nor fixed instances, at any depth. For plain types
`Registry.isCompatible` only asks the hierarchy: the head of the destination has to be above the
head of the source or the same, and the template types have to feed each other in turn, unless the
destination has none. That makes a partial order (`Registry.isCompatible_isPartialOrder`).
-/

namespace GeneGraph

open Relation

namespace Ept

variable {d : Ept} {u : TypeUid} {args : Fin u.arity → Ept}

/-- The type has a fixed instance. -/
def hasInstance (e : Ept) : Bool := e.flat.any fun u => u.instance?.isSome

/-- A type without wildcards and fixed instances. -/
structure IsPlain (e : Ept) : Prop where
  no_wildcard : e.hasWildcard = false
  no_instance : e.hasInstance = false

theorem hasInstance_node : (node u args).hasInstance = true ↔
    u.instance?.isSome = true ∨ ∃ i, (args i).hasInstance = true := by
  simp only [hasInstance, flat, List.any_cons, List.any_flatten, List.any_eq_true,
    Bool.or_eq_true, List.mem_ofFn, exists_exists_eq_and]

theorem hasInstance_eq_false_iff : (node u args).hasInstance = false ↔
    u.instance? = none ∧ ∀ i, (args i).hasInstance = false := by
  rw [← Bool.not_eq_true, hasInstance_node, not_or, not_exists, Option.not_isSome_iff_eq_none]
  simp only [Bool.not_eq_true]

/-- A source that feeds a type without fixed instances makes no choices. -/
theorem choices_eq_nil (src : Ept) (h : d.hasInstance = false) : src.choices d = [] := by
  induction d generalizing src with
  | node u args ih =>
    obtain ⟨hu, hargs⟩ := hasInstance_eq_false_iff.mp h
    simp [choices, hu, ih _ _ (hargs _)]

namespace IsPlain

theorem head (h : (node u args).IsPlain) : u.origin? = none ∧ u.instance? = none :=
  ⟨(hasWildcard_eq_false_iff.mp h.no_wildcard).1, (hasInstance_eq_false_iff.mp h.no_instance).1⟩

theorem arg (h : (node u args).IsPlain) (i : Fin u.arity) : (args i).IsPlain where
  no_wildcard := (hasWildcard_eq_false_iff.mp h.no_wildcard).2 i
  no_instance := (hasInstance_eq_false_iff.mp h.no_instance).2 i

end IsPlain

end Ept

namespace Registry

variable {r : Registry} {dst src u : TypeUid} {a b c e : Ept} {args : Fin u.arity → Ept}

/-! ## Heads -/

theorem coversIn_of_instance?_eq_none (r : Registry) (defs : List TypeDef)
    (h : dst.instance? = none) : r.coversIn defs dst src = (dst = src || r.isAncestor dst src) := by
  induction defs with
  | nil => rfl
  | cons d older ih =>
    rw [coversIn, h]
    split
    · simp
    · exact ih

/-- A head that is no fixed instance takes itself and what is below it. -/
theorem covers_eq_true_iff (h : dst.instance? = none) :
    r.covers dst src = true ↔ ReflTransGen r.Parent dst src := by
  rw [covers, coversIn_of_instance?_eq_none r _ h, Bool.or_eq_true, decide_eq_true_iff,
    isAncestor_eq_true_iff, reflTransGen_iff_eq_or_transGen, eq_comm]

theorem eq_of_reflTransGen (h : ReflTransGen r.Parent dst src)
    (h' : ReflTransGen r.Parent src dst) : dst = src := by
  rcases reflTransGen_iff_eq_or_transGen.mp h with rfl | hlt
  · rfl
  · exact absurd (hlt.trans_left h') (r.coherent.acyclic dst)

/-! ## Types -/

/-- What feeds a plain type. -/
theorem isCompatible_plain_iff (h : (Ept.node u args).IsPlain) :
    r.isCompatible e (.node u args) = true ↔ ReflTransGen r.Parent u e.head ∧
      (u.arity = 0 ∨ ∃ h : e.head.arity = u.arity, ∀ i : Fin u.arity,
        r.isCompatible (e.arg (i.cast (e.arity_eq u h))) (args i) = true) := by
  rw [isCompatible_node_iff h.head.1, covers_eq_true_iff h.head.2]

theorem isCompatible_trans (hb : b.IsPlain) (hc : c.IsPlain) (hab : r.isCompatible a b = true)
    (hbc : r.isCompatible b c = true) : r.isCompatible a c = true := by
  induction c generalizing a b with
  | node w cargs ih =>
    obtain ⟨v, bargs⟩ := b
    rw [isCompatible_plain_iff hb] at hab
    rw [isCompatible_plain_iff hc] at hbc ⊢
    obtain ⟨hheads, hargs⟩ := hab
    obtain ⟨hheads', hargs'⟩ := hbc
    refine ⟨hheads'.trans hheads, ?_⟩
    rcases hargs' with hscalar | ⟨hwv, hargs'⟩
    · exact Or.inl hscalar
    · -- a type with template types takes none without, so all three have equally many
      have hwv : v.arity = w.arity := hwv
      rcases hargs with hscalar | ⟨hva, hargs⟩
      · exact Or.inl (hwv.symm.trans hscalar)
      · exact Or.inr ⟨hva.trans hwv, fun i =>
          ih i (hb.arg _) (hc.arg i) (hargs (i.cast (congrArg Fin.val hwv.symm))) (hargs' i)⟩

theorem isCompatible_antisymm (ha : a.IsPlain) (hb : b.IsPlain) (hab : r.isCompatible a b = true)
    (hba : r.isCompatible b a = true) : a = b := by
  induction b generalizing a with
  | node v bargs ih =>
    obtain ⟨u, aargs⟩ := a
    rw [isCompatible_plain_iff hb] at hab
    rw [isCompatible_plain_iff ha] at hba
    obtain ⟨hheads, hargs⟩ := hab
    obtain ⟨hheads', hargs'⟩ := hba
    obtain rfl : v = u := eq_of_reflTransGen hheads hheads'
    congr 1
    funext i
    rcases hargs with hscalar | ⟨_, hargs⟩
    · exact (i.cast (congrArg Fin.val hscalar)).elim0
    · rcases hargs' with hscalar | ⟨_, hargs'⟩
      · exact (i.cast (congrArg Fin.val hscalar)).elim0
      · exact ih i (ha.arg i) (hb.arg i) (hargs i) (hargs' i)

/-- In any registry, compatibility is a partial order of the plain types, of whatever depth and
with whatever identifiers, registered or not. -/
theorem isCompatible_isPartialOrder (r : Registry) :
    IsPartialOrder {e : Ept // e.IsPlain} fun a b => r.isCompatible a b = true where
  refl a := isCompatible_self r a
  trans _ b c hab hbc := isCompatible_trans b.2 c.2 hab hbc
  antisymm a b hab hba := Subtype.ext (isCompatible_antisymm a.2 b.2 hab hba)

end Registry

end GeneGraph
