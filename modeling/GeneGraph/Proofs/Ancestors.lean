import GeneGraph.Proofs.Hierarchy
import GeneGraph.Registry.Compatible
import Mathlib.Order.Defs.Unbundled

/-!
# Supertypes, direct and indirect

`Registry.isAncestor` finds the types above a type in one walk over the definitions, from the newest
to the oldest. `Registry.climbs` is the search that knows nothing of their order: it keeps a stack
of types that wait and a list of those that were visited, and puts the parents of each type on the
stack when the type is visited for the first time. Each visit takes something off its load
(`Registry.load_visit_lt`), so it ends.

Both give the same answer, the one that the edges from types to their parents give, and make a
strict order of it (`Registry.isAncestor_iff_above`).
-/

namespace GeneGraph.Registry

open Relation

variable {r : Registry} {a p u : TypeUid} {seen stack wanted : List TypeUid} {defs : List TypeDef}

/-! ## The direct supertypes -/

/-- The direct supertypes, in the order of their identifiers. -/
def parents (r : Registry) (uid : TypeUid) : List TypeUid :=
  match r.find? uid with
  | none => []
  | some d => d.parents.keys

theorem mem_parents : p ∈ r.parents u ↔ r.Parent p u := by
  unfold parents Parent
  cases r.find? u with
  | none => simp
  | some d => simp [SortedMap.mem_keys, SortedMap.contains]

theorem parent_of_mem_defs {d : TypeDef} (hd : d ∈ r.defs) (hp : p ∈ d.parents.keys) :
    r.Parent p d.uid :=
  ⟨d, (r.coherent.find?_iff _ _).mpr ⟨mem_toList.mpr hd, rfl⟩, SortedMap.mem_keys.mp hp⟩

/-! ## The walk over the definitions -/

theorem above_of_mem_ancestorsIn (hdefs : ∀ d ∈ defs, d ∈ r.defs)
    (h : a ∈ ancestorsIn defs wanted) : ∃ u ∈ wanted, TransGen r.Parent a u := by
  induction defs generalizing wanted with
  | nil => cases h
  | cons d older ih =>
    obtain ⟨hd, holder⟩ := List.forall_mem_cons.mp hdefs
    rw [ancestorsIn] at h
    split at h
    · rename_i hwanted
      rcases List.mem_append.mp h with ha | ha
      · exact ⟨d.uid, hwanted, .single (parent_of_mem_defs hd ha)⟩
      · obtain ⟨u, hu, habove⟩ := ih holder ha
        rcases List.mem_append.mp hu with hu | hu
        · exact ⟨d.uid, hwanted, habove.tail (parent_of_mem_defs hd hu)⟩
        · exact ⟨u, hu, habove⟩
    · exact ih holder h

theorem mem_ancestorsIn (hdefs : ∀ d ∈ defs, d ∈ r.defs) (hreg : Registered defs)
    (hu : ∃ d ∈ defs, d.uid = u) (hw : u ∈ wanted) (h : TransGen r.Parent a u) :
    a ∈ ancestorsIn defs wanted := by
  induction hreg generalizing wanted u with
  | nil =>
    obtain ⟨d, hd, -⟩ := hu
    cases hd
  | @cons d older hadm _ ih =>
    obtain ⟨hd, holder⟩ := List.forall_mem_cons.mp hdefs
    rw [ancestorsIn]
    by_cases hdu : d.uid = u
    · -- the way up goes through a parent of the newest definition
      subst hdu
      rw [if_pos hw]
      obtain ⟨x, hax, e, he, hx⟩ := TransGen.tail'_iff.mp h
      obtain rfl : d = e := Option.some.inj
        (((r.coherent.find?_iff _ _).mpr ⟨mem_toList.mpr hd, rfl⟩).symm.trans he)
      have hx := SortedMap.mem_keys.mpr hx
      rcases (reflTransGen_iff_eq_or_transGen.mp hax) with rfl | hax
      · exact List.mem_append_left _ hx
      · exact List.mem_append_right _ (ih holder (hadm.parents_known x hx)
          (List.mem_append_left _ hx) hax)
    · have hu : ∃ e ∈ older, e.uid = u := by
        obtain ⟨e, he, heu⟩ := hu
        rcases List.mem_cons.mp he with rfl | he
        · exact absurd heu hdu
        · exact ⟨e, he, heu⟩
      split
      · exact List.mem_append_right _ (ih holder hu (List.mem_append_right _ hw) h)
      · exact ih holder hu hw h

theorem isAncestor_eq_true_iff : r.isAncestor a u = true ↔ TransGen r.Parent a u := by
  rw [isAncestor, decide_eq_true_iff]
  constructor
  · intro h
    obtain ⟨x, hx, habove⟩ := above_of_mem_ancestorsIn (fun _ hd => hd) h
    rwa [List.mem_singleton.mp hx] at habove
  · intro h
    refine mem_ancestorsIn (fun _ hd => hd) r.registered ?_ (List.mem_singleton_self u) h
    obtain ⟨x, -, d, hd, -⟩ := TransGen.tail'_iff.mp h
    obtain ⟨hmem, hdu⟩ := (r.coherent.find?_iff u d).mp hd
    exact ⟨d, mem_toList.mp hmem, hdu⟩

/-! ## The search with a stack -/

/-- A search under way: the types that were visited, and those that wait, the next one first. -/
structure Climb where
  seen : List TypeUid
  stack : List TypeUid

/-- Visits the next type: unless it was visited before, its parents have to wait, the last one
being the next. -/
def visit (r : Registry) (seen : List TypeUid) (u : TypeUid) (stack : List TypeUid) : Climb :=
  if u ∈ seen then ⟨seen, stack⟩ else ⟨u :: seen, (r.parents u).reverse ++ stack⟩

/-- How many types of a list of definitions still can be put on the stack. -/
def ahead (seen : List TypeUid) (defs : List TypeDef) : Nat :=
  ((defs.filter fun d => d.uid ∉ seen).flatMap fun d => d.parents.keys).length

/-- How many visits a search can still take. -/
def load (r : Registry) (c : Climb) : Nat := ahead c.seen r.defs + c.stack.length

theorem ahead_cons_le (defs : List TypeDef) (hu : u ∉ seen) : ahead (u :: seen) defs +
    ((defs.find? fun d => d.uid = u).elim 0 fun d => d.parents.keys.length) ≤ ahead seen defs := by
  induction defs with
  | nil => exact Nat.le_refl _
  | cons d older ih =>
    have hless : ahead (u :: seen) older ≤ ahead seen older := Nat.le_of_add_right_le ih
    unfold ahead at *
    by_cases hd : d.uid = u
    · subst hd
      rw [List.find?_cons_of_pos (by simp), List.filter_cons_of_neg (by simp),
        List.filter_cons_of_pos (by simpa using hu), List.flatMap_cons, List.length_append,
        Option.elim_some]
      omega
    · rw [List.find?_cons_of_neg (by simpa using hd)]
      by_cases hs : d.uid ∈ seen
      · rw [List.filter_cons_of_neg (by simp [hs]), List.filter_cons_of_neg (by simp [hs])]
        exact ih
      · rw [List.filter_cons_of_pos (by simp [hd, hs]), List.filter_cons_of_pos (by simp [hs]),
          List.flatMap_cons, List.flatMap_cons, List.length_append, List.length_append]
        omega

/-- The search comes closer to its end with every visit. -/
theorem load_visit_lt (r : Registry) (seen : List TypeUid) (u : TypeUid) (stack : List TypeUid) :
    r.load (r.visit seen u stack) < r.load ⟨seen, u :: stack⟩ := by
  unfold load visit
  split
  · simp
  · rename_i hu
    have hle := ahead_cons_le r.defs hu
    have hlen : (r.parents u).length =
        (r.defs.find? fun d => d.uid = u).elim 0 fun d => d.parents.keys.length := by
      unfold parents find?
      cases r.defs.find? fun d => d.uid = u <;> rfl
    simp only [List.length_append, List.length_reverse, List.length_cons]
    omega

/-- The type is met before the stack is empty. -/
def meets (r : Registry) (ancestor : TypeUid) : Climb → Bool
  | ⟨_, []⟩ => false
  | ⟨seen, u :: stack⟩ => u = ancestor || r.meets ancestor (r.visit seen u stack)
termination_by c => r.load c
decreasing_by exact r.load_visit_lt seen u stack

/-- `ancestor` is met on the way up from `uid`. -/
def climbs (r : Registry) (ancestor uid : TypeUid) : Bool :=
  r.meets ancestor ⟨[], (r.parents uid).reverse⟩

/-- What a search keeps as long as it has not met its type: the parents of the types that were
visited were visited too, or wait. -/
structure Climb.Keeps (r : Registry) (a : TypeUid) (c : Climb) : Prop where
  missed : a ∉ c.seen
  parents : ∀ u ∈ c.seen, ∀ p, r.Parent p u → p ∈ c.seen ∨ p ∈ c.stack

/-- `a` is a waiting type or above one. -/
def Climb.Leads (r : Registry) (a : TypeUid) (c : Climb) : Prop :=
  ∃ u ∈ c.stack, ReflTransGen r.Parent a u

/-- The way up from a type that was visited leads through one that waits. -/
theorem Climb.Keeps.leads {c : Climb} (h : c.Keeps r a) (hau : ReflTransGen r.Parent a u)
    (hu : u ∈ c.seen) : c.Leads r a := by
  induction hau with
  | refl => exact absurd hu h.missed
  | tail hap hp ih => exact (h.parents _ hu _ hp).elim ih fun hwait => ⟨_, hwait, hap⟩

/-- A type that is not the one that is looked for can be visited. -/
theorem Climb.Keeps.visit (h : Climb.Keeps r a ⟨seen, u :: stack⟩) (hua : u ≠ a) :
    (r.visit seen u stack).Keeps r a := by
  unfold Registry.visit
  split
  · rename_i hu
    refine ⟨h.missed, fun x hx p hp => ?_⟩
    rcases h.parents x hx p hp with hseen | hwait
    · exact Or.inl hseen
    · rcases List.mem_cons.mp hwait with rfl | hwait
      · exact Or.inl hu
      · exact Or.inr hwait
  · refine ⟨fun ha => ?_, fun x hx p hp => ?_⟩
    · rcases List.mem_cons.mp ha with rfl | ha
      · exact hua rfl
      · exact h.missed ha
    · rcases List.mem_cons.mp hx with rfl | hx
      · exact Or.inr (List.mem_append_left _ (List.mem_reverse.mpr (mem_parents.mpr hp)))
      · rcases h.parents x hx p hp with hseen | hwait
        · exact Or.inl (List.mem_cons_of_mem _ hseen)
        · rcases List.mem_cons.mp hwait with rfl | hwait
          · exact Or.inl List.mem_cons_self
          · exact Or.inr (List.mem_append_right _ hwait)

/-- A visit loses no way up. -/
theorem Climb.Keeps.leads_visit_iff (h : Climb.Keeps r a ⟨seen, u :: stack⟩) (hua : u ≠ a) :
    (r.visit seen u stack).Leads r a ↔ Climb.Leads r a ⟨seen, u :: stack⟩ := by
  constructor
  · rintro ⟨x, hx, hax⟩
    unfold Registry.visit at hx
    split at hx
    · exact ⟨x, List.mem_cons_of_mem _ hx, hax⟩
    · rcases List.mem_append.mp hx with hx | hx
      · have hp := mem_parents.mp (List.mem_reverse.mp hx)
        exact ⟨u, List.mem_cons_self, hax.tail hp⟩
      · exact ⟨x, List.mem_cons_of_mem _ hx, hax⟩
  · rintro ⟨x, hx, hax⟩
    rcases List.mem_cons.mp hx with rfl | hx
    · -- the type itself is visited now
      refine (h.visit hua).leads hax ?_
      unfold Registry.visit
      split
      · assumption
      · exact List.mem_cons_self
    · refine ⟨x, ?_, hax⟩
      unfold Registry.visit
      split
      · exact hx
      · exact List.mem_append_right _ hx

/-- The search meets its type exactly if a waiting type leads to it. -/
theorem meets_eq_true_iff {c : Climb} (h : c.Keeps r a) : r.meets a c = true ↔ c.Leads r a := by
  induction c using meets.induct (r := r) with
  | case1 seen =>
    rw [meets]
    refine iff_of_false Bool.false_ne_true ?_
    rintro ⟨x, hx, -⟩
    cases hx
  | case2 seen u stack ih =>
    rw [meets, Bool.or_eq_true, decide_eq_true_iff]
    by_cases hua : u = a
    · exact iff_of_true (Or.inl hua) ⟨u, List.mem_cons_self, hua ▸ .refl⟩
    · rw [or_iff_right hua, ih (h.visit hua), h.leads_visit_iff hua]

theorem climbs_eq_true_iff : r.climbs a u = true ↔ TransGen r.Parent a u := by
  have h : Climb.Keeps r a ⟨[], (r.parents u).reverse⟩ :=
    ⟨List.not_mem_nil, fun _ hx => absurd hx List.not_mem_nil⟩
  rw [climbs, meets_eq_true_iff h, TransGen.tail'_iff]
  simp only [Climb.Leads, List.mem_reverse, mem_parents]
  exact exists_congr fun _ => and_comm

/-! ## The order of the types -/

/-- In any registry, a type is found to be above another exactly if it is reached from this one by
edges to parents, whether the types are registered or not. The search with a stack finds the same,
and each of its visits takes something off a load, so it ends. To be above is a strict order. -/
theorem isAncestor_iff_above (r : Registry) :
    (∀ a u, r.isAncestor a u = true ↔ TransGen r.Parent a u) ∧
    (∀ a u, r.climbs a u = r.isAncestor a u) ∧
    (∀ seen u stack, r.load (r.visit seen u stack) < r.load ⟨seen, u :: stack⟩) ∧
    IsStrictOrder TypeUid fun a u => r.isAncestor a u = true := by
  refine ⟨fun a u => isAncestor_eq_true_iff, fun a u => ?_, r.load_visit_lt, ?_⟩
  · rw [Bool.eq_iff_iff, climbs_eq_true_iff, isAncestor_eq_true_iff]
  · simp only [isAncestor_eq_true_iff]
    exact { irrefl := r.coherent.acyclic, trans := fun _ _ _ h h' => h.trans h' }

end GeneGraph.Registry
