import GeneGraph.Arena
import GeneGraph.Proofs.Maps

/-!
# What a collection keeps

A collection looks at the codes that are marked from what is held, over and over, and drops what
is not marked. Objects get their serial numbers in ascending order, so a code has a greater one
than the codes inside it. So the object with the greatest serial number among those that nothing
outside reaches is not held, and a sweep drops it: what stays is what can be reached
(`Arena.get?_collectIn`), in whatever order the entries are visited.
-/

namespace GeneGraph

/-! ## Codes inside codes -/

namespace Frozen

/-- The code is `f`, or can be reached from it through sub-codes. -/
inductive Within (d : Frozen) : Frozen → Prop
  | refl : Within d d
  | inside {e f : Frozen} (he : e ∈ f.subs) (h : Within d e) : Within d f

variable {d e f : Frozen}

theorem Within.trans (h : d.Within e) (h' : e.Within f) : d.Within f := by
  induction h' with
  | refl => exact h
  | inside he _ ih => exact .inside he ih

/-- A slot inside a code is one of its own slots, or inside what is in one of these. -/
theorem within_sub_iff : (∃ e : Frozen, e.Within f ∧ d ∈ e.subs) ↔ ∃ e ∈ f.subs, d.Within e := by
  constructor
  · rintro ⟨e, he, hd⟩
    cases he with
    | refl => exact ⟨d, hd, .refl⟩
    | inside hsub hin => exact ⟨_, hsub, (Within.inside hd .refl).trans hin⟩
  · rintro ⟨e, he, hin⟩
    induction hin generalizing f with
    | refl => exact ⟨f, .refl, he⟩
    | inside hsub _ ih =>
      obtain ⟨e', hin, hd⟩ := ih hsub
      exact ⟨e', .inside he hin, hd⟩

theorem sizeOf_lt_of_mem_subs (h : d ∈ f.subs) : sizeOf d < sizeOf f := by
  obtain ⟨serial, digest, graph, subA, subB⟩ := f
  rcases List.mem_append.mp h with h | h
  · obtain rfl : subA = some d := Option.mem_toList.mp h
    simp only [mk.sizeOf_spec, Option.some.sizeOf_spec]
    omega
  · obtain rfl : subB = some d := Option.mem_toList.mp h
    simp only [mk.sizeOf_spec, Option.some.sizeOf_spec]
    omega

/-- What holds of a code if it holds of its sub-codes holds of all codes. -/
theorem subs_induction {P : Frozen → Prop} (h : ∀ f, (∀ d ∈ f.subs, P d) → P f) (f : Frozen) :
    P f := by
  apply h
  intro d hd
  have hlt := sizeOf_lt_of_mem_subs hd
  exact subs_induction h d
termination_by sizeOf f

end Frozen

/-! ## Objects -/

/-- Objects, with all that are inside them, before the one with the serial number `next` is made. -/
structure Heap (next : Nat) (objects : List Frozen) : Prop where
  serial_lt : ∀ f ∈ objects, f.serial < next
  nodup : (objects.map Frozen.serial).Nodup
  mem_of_subs : ∀ f ∈ objects, ∀ d ∈ f.subs, d ∈ objects
  subs_lt : ∀ f ∈ objects, ∀ d ∈ f.subs, d.serial < f.serial

namespace Heap

variable {next : Nat} {objects : List Frozen} {d f g : Frozen}

/-- A serial number tells an object apart. -/
theorem eq_of_serial (h : Heap next objects) (hf : f ∈ objects) (hg : g ∈ objects)
    (hserial : f.serial = g.serial) : f = g :=
  List.inj_on_of_nodup_map h.nodup hf hg hserial

theorem mem_of_within (h : Heap next objects) (hf : f ∈ objects) (hd : d.Within f) :
    d ∈ objects := by
  induction hd with
  | refl => exact hf
  | inside he _ ih => exact ih (h.mem_of_subs _ hf _ he)

theorem serial_le (h : Heap next objects) (hf : f ∈ objects) (hd : d.Within f) :
    d.serial ≤ f.serial := by
  induction hd with
  | refl => exact Nat.le_refl _
  | inside he _ ih =>
    exact Nat.le_trans (ih (h.mem_of_subs _ hf _ he)) (Nat.le_of_lt (h.subs_lt _ hf _ he))

/-- What holds of an object if it holds of all objects with a greater serial number holds of all
objects. -/
theorem newest_first (h : Heap next objects) {P : Frozen → Prop}
    (step : ∀ f ∈ objects, (∀ g ∈ objects, f.serial < g.serial → P g) → P f) :
    ∀ f ∈ objects, P f := by
  intro f hf
  induction hk : next - f.serial using Nat.strongRecOn generalizing f with
  | ind k ih =>
    refine step f hf fun g hg hlt => ih _ ?_ g hg rfl
    have hnext := h.serial_lt g hg
    omega

end Heap

/-! ## Marks -/

/-- Marking `fs` leads from the serial numbers reached before to those reached afterwards. -/
structure Marks (objects fs : List Frozen) (before after : List Nat) : Prop where
  grows : before ⊆ after
  roots : ∀ f ∈ fs, f.serial ∈ after
  /-- Only what is inside the codes is marked. -/
  sound : ∀ k ∈ after, k ∈ before ∨ ∃ f ∈ fs, ∃ d : Frozen, d.Within f ∧ d.serial = k
  /-- With an object that was not reached before its sub-codes are reached. -/
  closed : ∀ f ∈ objects, f.serial ∈ after → f.serial ∉ before → ∀ d ∈ f.subs, d.serial ∈ after

section Marks

variable {next : Nat} {objects fs : List Frozen} {f : Frozen} {before mid after : List Nat}

theorem Marks.nil : Marks objects [] before before where
  grows := fun _ h => h
  roots := nofun
  sound := fun _ h => Or.inl h
  closed := fun _ _ h hn => absurd h hn

theorem Marks.cons (hf : Marks objects [f] before mid) (hfs : Marks objects fs mid after) :
    Marks objects (f :: fs) before after where
  grows := List.Subset.trans hf.grows hfs.grows
  roots := by
    intro g hg
    rcases List.mem_cons.mp hg with rfl | hg
    · exact hfs.grows (hf.roots g (List.mem_singleton_self g))
    · exact hfs.roots g hg
  sound := by
    intro k hk
    rcases hfs.sound k hk with hk | ⟨g, hg, hd⟩
    · refine (hf.sound k hk).imp_right ?_
      rintro ⟨g, hg, hd⟩
      exact ⟨g, List.mem_cons.mpr (Or.inl (List.mem_singleton.mp hg)), hd⟩
    · exact Or.inr ⟨g, List.mem_cons_of_mem f hg, hd⟩
  closed := by
    intro g hg hafter hbefore d hd
    by_cases hmid : g.serial ∈ mid
    · exact hfs.grows (hf.closed g hg hmid hbefore d hd)
    · exact hfs.closed g hg hafter hmid d hd

theorem Marks.foldl (h : ∀ f ∈ fs, ∀ reached, Marks objects [f] reached (f.mark reached))
    (reached : List Nat) : Marks objects fs reached (fs.foldl Frozen.mark reached) := by
  induction fs generalizing reached with
  | nil => exact .nil
  | cons f fs ih =>
    exact (h f List.mem_cons_self reached).cons
      (ih (fun g hg => h g (List.mem_cons_of_mem f hg)) _)

theorem Frozen.mark_eq (f : Frozen) (reached : List Nat) : f.mark reached =
    if f.serial ∈ reached then reached else f.subs.foldl Frozen.mark (f.serial :: reached) := by
  obtain ⟨serial, digest, graph, subA, subB⟩ := f
  rw [mark]
  split
  · rfl
  · cases subA <;> cases subB <;> rfl

theorem marks_mark (h : Heap next objects) (f : Frozen) (hf : f ∈ objects) (reached : List Nat) :
    Marks objects [f] reached (f.mark reached) := by
  induction f using Frozen.subs_induction generalizing reached with
  | _ f ih =>
    rw [f.mark_eq]
    split
    · rename_i hmem
      exact { Marks.nil with
        roots := fun g hg => List.mem_singleton.mp hg ▸ hmem
        sound := fun k hk => Or.inl hk }
    · have hsubs := Marks.foldl (fun d hd => ih d hd (h.mem_of_subs f hf d hd))
        (f.serial :: reached)
      refine ⟨fun k hk => hsubs.grows (List.mem_cons_of_mem _ hk), fun g hg => ?_, fun k hk => ?_,
        fun g hg hafter hbefore d hd => ?_⟩
      · obtain rfl := List.mem_singleton.mp hg
        exact hsubs.grows List.mem_cons_self
      · rcases hsubs.sound k hk with hk | ⟨e, he, d, hd, hserial⟩
        · rcases List.mem_cons.mp hk with rfl | hk
          · exact Or.inr ⟨f, List.mem_singleton_self f, f, .refl, rfl⟩
          · exact Or.inl hk
        · exact Or.inr ⟨f, List.mem_singleton_self f, d, .inside he hd, hserial⟩
      · by_cases hserial : g.serial = f.serial
        · obtain rfl := h.eq_of_serial hg hf hserial
          exact hsubs.roots d hd
        · refine hsubs.closed g hg hafter (fun hmem => ?_) d hd
          rcases List.mem_cons.mp hmem with hmem | hmem
          · exact hserial hmem
          · exact hbefore hmem

/-- The serial numbers that are reached are those of the codes and of what is inside them. -/
theorem serial_mem_reachedFrom (h : Heap next objects) (hfs : fs ⊆ objects) (hf : f ∈ objects) :
    f.serial ∈ reachedFrom fs ↔ ∃ g ∈ fs, f.Within g := by
  have hmarks : Marks objects fs [] (reachedFrom fs) :=
    Marks.foldl (fun g hg => marks_mark h g (hfs hg)) []
  constructor
  · intro hmem
    rcases hmarks.sound _ hmem with hmem | ⟨g, hg, d, hd, hserial⟩
    · cases hmem
    · obtain rfl := h.eq_of_serial (h.mem_of_within (hfs hg) hd) hf hserial
      exact ⟨g, hg, hd⟩
  · rintro ⟨g, hg, hin⟩
    have hreached := hmarks.roots g hg
    have hobject := hfs hg
    clear hg
    induction hin with
    | refl => exact hreached
    | inside he _ ih =>
      exact ih (hmarks.closed _ hobject hreached List.not_mem_nil _ he)
        (h.mem_of_subs _ hobject _ he)

end Marks

/-! ## Collections -/

namespace Arena

variable {next : Nat} {objects held : List Frozen} {order : Arena → List Digest} {a : Arena}
  {d d' : Digest} {f : Frozen} {ds : List Digest}

/-- Sweeps until nothing more is dropped, each time in the order given for what is there. -/
def collectIn (order : Arena → List Digest) (held : List Frozen) (a : Arena) : Arena :=
  let a' := a.sweep held (order a)
  if a'.size < a.size then collectIn order held a' else a'
termination_by a.size

theorem collect_eq_collectIn (held : List Frozen) (a : Arena) :
    a.collect held = a.collectIn digests held := by
  induction a using collect.induct held with
  | case1 a a' hlt ih => rw [collect, collectIn, if_pos hlt, if_pos hlt, ih]
  | case2 a a' hlt => rw [collect, collectIn, if_neg hlt, if_neg hlt]

/-- The order visits every entry. -/
def Covers (order : Arena → List Digest) : Prop := ∀ a : Arena, ∀ d ∈ a.digests, d ∈ order a

theorem mem_codes : f ∈ a.codes ↔ ∃ d, a.get? d = some f := by
  rw [codes, List.mem_map]
  constructor
  · rintro ⟨⟨d, f⟩, he, rfl⟩
    exact ⟨d, SortedMap.get?_eq_some_iff.mpr he⟩
  · rintro ⟨d, hd⟩
    exact ⟨(d, f), SortedMap.get?_eq_some_iff.mp hd, rfl⟩

/-- What is held is inside something held outside or inside an entry. -/
theorem isHeld_iff (h : Heap next objects) (hheld : held ⊆ objects) (hcodes : a.codes ⊆ objects)
    (hf : f ∈ objects) : a.isHeld held f = true ↔
      (∃ g ∈ held, f.Within g) ∨ ∃ c ∈ a.codes, ∃ e ∈ c.subs, f.Within e := by
  have hsub : held ++ a.codes.flatMap Frozen.subs ⊆ objects := by
    refine List.append_subset.mpr ⟨hheld, fun e he => ?_⟩
    obtain ⟨c, hc, he⟩ := List.mem_flatMap.mp he
    exact h.mem_of_subs c (hcodes hc) e he
  rw [isHeld, decide_eq_true_eq, serial_mem_reachedFrom h hsub hf]
  simp only [List.mem_append, or_and_right, exists_or, List.mem_flatMap]
  refine or_congr_right ⟨?_, ?_⟩
  · rintro ⟨e, ⟨c, hc, he⟩, hin⟩
    exact ⟨c, hc, e, he, hin⟩
  · rintro ⟨c, hc, e, he, hin⟩
    exact ⟨e, ⟨c, hc, he⟩, hin⟩

theorem sweep_cons (held : List Frozen) (d : Digest) (ds : List Digest) (a : Arena) :
    a.sweep held (d :: ds) = (a.visit held d).sweep held ds := rfl

/-- A visit does nothing, or erases an entry that is not held. -/
theorem visit_cases (held : List Frozen) (a : Arena) (d : Digest) :
    (a.visit held d = a ∧ ∀ f, a.get? d = some f → a.isHeld held f = true) ∨
      (a.visit held d = ⟨a.entries.erase d⟩ ∧
        ∃ f, a.get? d = some f ∧ a.isHeld held f = false) := by
  unfold visit
  cases hget : a.get? d with
  | none => exact Or.inl ⟨rfl, nofun⟩
  | some f =>
    cases hheld : a.isHeld held f with
    | true => exact Or.inl ⟨by simp only [hheld, if_true], fun g hg => Option.some.inj hg ▸ hheld⟩
    | false => exact Or.inr ⟨by simp only [hheld, Bool.false_eq_true, if_false], f, rfl, hheld⟩

theorem get?_erase (a : Arena) (d d' : Digest) :
    (⟨a.entries.erase d⟩ : Arena).get? d' = if d' = d then none else a.get? d' :=
  SortedMap.get?_erase a.entries d d'

theorem size_erase (h : a.get? d = some f) : (⟨a.entries.erase d⟩ : Arena).size + 1 = a.size :=
  (SortedMap.toList_perm_of_get? h).length_eq.symm

theorem get?_of_visit (h : (a.visit held d).get? d' = some f) : a.get? d' = some f := by
  rcases visit_cases held a d with ⟨hvisit, -⟩ | ⟨hvisit, -⟩
  · rwa [hvisit] at h
  · rw [hvisit, get?_erase] at h
    split at h
    · cases h
    · exact h

theorem get?_of_sweep (h : (a.sweep held ds).get? d' = some f) : a.get? d' = some f := by
  induction ds generalizing a with
  | nil => exact h
  | cons d ds ih => exact get?_of_visit (ih h)

theorem codes_sweep_subset : (a.sweep held ds).codes ⊆ a.codes := by
  intro f hf
  obtain ⟨d, hd⟩ := mem_codes.mp hf
  exact mem_codes.mpr ⟨d, get?_of_sweep hd⟩

theorem codes_visit_subset : (a.visit held d).codes ⊆ a.codes := by
  have hsweep : (a.sweep held [d]).codes ⊆ a.codes := codes_sweep_subset
  exact hsweep

/-- A sweep does not drop what can be reached from outside. -/
theorem get?_sweep_of_within (h : Heap next objects) (hheld : held ⊆ objects)
    (hcodes : a.codes ⊆ objects) (hf : ∃ g ∈ held, f.Within g) (hget : a.get? d' = some f) :
    (a.sweep held ds).get? d' = some f := by
  induction ds generalizing a with
  | nil => exact hget
  | cons d ds ih =>
    refine ih (List.Subset.trans codes_visit_subset hcodes) ?_
    rcases visit_cases held a d with ⟨hvisit, -⟩ | ⟨hvisit, g, hg, hn⟩
    · rwa [hvisit]
    · rw [hvisit, get?_erase]
      split
      · rename_i he
        rw [he, hg] at hget
        obtain rfl := Option.some.inj hget
        rw [(isHeld_iff h hheld hcodes (hcodes (mem_codes.mpr ⟨d, hg⟩))).mpr (Or.inl hf)] at hn
        cases hn
      · exact hget

theorem size_visit_le : (a.visit held d).size ≤ a.size := by
  rcases visit_cases held a d with ⟨hvisit, -⟩ | ⟨hvisit, f, hf, -⟩
  · exact Nat.le_of_eq (congrArg size hvisit)
  · rw [hvisit, ← size_erase hf]
    exact Nat.le_succ _

theorem size_sweep_le : (a.sweep held ds).size ≤ a.size := by
  induction ds generalizing a with
  | nil => exact Nat.le_refl _
  | cons d ds ih => exact Nat.le_trans ih size_visit_le

/-- A sweep that drops nothing finds all entries held. -/
theorem sweep_cases (held : List Frozen) (a : Arena) (ds : List Digest) :
    (a.sweep held ds).size < a.size ∨ (a.sweep held ds = a ∧
      ∀ d ∈ ds, ∀ f, a.get? d = some f → a.isHeld held f = true) := by
  induction ds with
  | nil => exact Or.inr ⟨rfl, nofun⟩
  | cons d ds ih =>
    rw [sweep_cons]
    rcases visit_cases held a d with ⟨hvisit, hd⟩ | ⟨hvisit, f, hf, -⟩
    · rw [hvisit]
      refine ih.imp_right fun ⟨hds, hall⟩ => ⟨hds, fun d' hd' => ?_⟩
      rcases List.mem_cons.mp hd' with rfl | hd'
      · exact hd
      · exact hall d' hd'
    · left
      rw [hvisit]
      exact Nat.lt_of_le_of_lt size_sweep_le (Nat.lt_of_succ_le (Nat.le_of_eq (size_erase hf)))

/-- If all entries are held, all can be reached from outside: the newest of those that cannot be
reached would not be held. -/
theorem within_of_all_held (h : Heap next objects) (hheld : held ⊆ objects)
    (hcodes : a.codes ⊆ objects) (hall : ∀ f ∈ a.codes, a.isHeld held f = true) :
    ∀ f ∈ a.codes, ∃ g ∈ held, f.Within g := by
  have key : ∀ f ∈ objects, f ∈ a.codes → ∃ g ∈ held, f.Within g := by
    refine h.newest_first fun f hf ih hmem => ?_
    rcases (isHeld_iff h hheld hcodes hf).mp (hall f hmem) with hin | ⟨c, hc, e, he, hin⟩
    · exact hin
    · have hlt : f.serial < c.serial := by
        have hle := h.serial_le (h.mem_of_subs c (hcodes hc) e he) hin
        have hsub := h.subs_lt c (hcodes hc) e he
        omega
      obtain ⟨g, hg, hcg⟩ := ih c (hcodes hc) hlt hc
      exact ⟨g, hg, (Frozen.Within.inside he hin).trans hcg⟩
  exact fun f hf => key f (hcodes hf) hf

/-- A collection keeps the entries that can be reached from outside. -/
theorem get?_collectIn (h : Heap next objects) (hheld : held ⊆ objects) (horder : Covers order)
    (hcodes : a.codes ⊆ objects) : (a.collectIn order held).get? d = some f ↔
      a.get? d = some f ∧ ∃ g ∈ held, f.Within g := by
  induction a using collectIn.induct order held with
  | case1 a a' hlt ih =>
    rw [collectIn, if_pos hlt, ih (List.Subset.trans codes_sweep_subset hcodes)]
    refine and_congr_left fun hin => ⟨get?_of_sweep, ?_⟩
    exact get?_sweep_of_within h hheld hcodes hin
  | case2 a a' hlt =>
    obtain ⟨hsweep, hall⟩ := (sweep_cases held a (order a)).resolve_left hlt
    rw [collectIn, if_neg hlt, hsweep]
    refine ⟨fun hget => ⟨hget, ?_⟩, And.left⟩
    refine within_of_all_held h hheld hcodes (fun g hg => ?_) f (mem_codes.mpr ⟨d, hget⟩)
    obtain ⟨d', hd'⟩ := mem_codes.mp hg
    refine hall d' (horder a d' ?_) g hd'
    exact SortedMap.mem_keys.mpr (Option.isSome_iff_exists.mpr ⟨g, hd'⟩)

end Arena

end GeneGraph
