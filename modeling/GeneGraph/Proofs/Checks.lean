import GeneGraph.Proofs.Edits

/-!
# What the checks decide

Each check is put as a statement about look-ups, in which the order of end points no longer
matters. A code is `Code.Sound` when nothing but a destination without source can be wrong with
it, and `Code.violation?` finds nothing exactly when it is sound and every destination has a
source (`Code.violation?_eq_none_iff`).
-/

namespace GeneGraph

/-! ## Compatible types -/

namespace Registry

theorem coversIn_self (reg : Registry) (defs : List TypeDef) (u : TypeUid) :
    reg.coversIn defs u u = true := by
  induction defs with
  | nil => simp [coversIn]
  | cons d defs ih =>
    rw [coversIn]
    split
    · simp
    · exact ih

/-- Every type feeds itself. -/
theorem isCompatible_self (reg : Registry) (e : Ept) : reg.isCompatible e e = true := by
  induction e with
  | node h args ih =>
    have hc : reg.covers h (Ept.node h args).head = true := reg.coversIn_self _ h
    have hd : (Ept.node h args).head.arity = h.arity := rfl
    have ha : ((List.finRange h.arity).all fun i =>
        reg.isCompatible ((Ept.node h args).arg i) (args i)) = true :=
      List.all_eq_true.mpr fun i _ => ih i
    rw [isCompatible, dif_pos hd, hc, Bool.true_and]
    exact Bool.or_eq_true_iff.mpr (Or.inr (Bool.or_eq_true_iff.mpr (Or.inr ha)))

end Registry

/-! ## Choices for fixed instances -/

namespace Choices

/-- No instance stands for two types. -/
def Agree (cs : Choices) : Prop := ∀ i e e', (i, e) ∈ cs → (i, e') ∈ cs → e = e'

variable {known cs cs' rest : Choices} {i : Fin 8} {e : Ept}

theorem agree_nil : Agree [] := fun _ _ _ h => absurd h List.not_mem_nil

theorem Agree.mono (h : cs.Agree) (hsub : ∀ c ∈ cs', c ∈ cs) : cs'.Agree :=
  fun i e e' he he' => h i e e' (hsub _ he) (hsub _ he')

theorem agree_congr (h : ∀ c, c ∈ cs ↔ c ∈ cs') : cs.Agree ↔ cs'.Agree :=
  ⟨fun ha => ha.mono fun c hc => (h c).mpr hc, fun ha => ha.mono fun c hc => (h c).mp hc⟩

theorem mem_of_lookup (h : known.lookup i = some e) : (i, e) ∈ known := by
  obtain ⟨l₁, l₂, rfl, -⟩ := List.lookup_eq_some_iff.mp h
  exact List.mem_append_right _ List.mem_cons_self

theorem not_mem_of_lookup (h : known.lookup i = none) : (i, e) ∉ known := by
  intro hmem
  have := List.lookup_eq_none_iff.mp h _ hmem
  simp at this

theorem agree_append_singleton (hk : known.Agree) (h : known.lookup i = none) :
    Agree (known ++ [(i, e)]) := by
  intro j a b ha hb
  rcases List.mem_append.mp ha with ha | ha <;> rcases List.mem_append.mp hb with hb | hb
  · exact hk j a b ha hb
  · cases List.mem_singleton.mp hb
    exact absurd ha (not_mem_of_lookup h)
  · cases List.mem_singleton.mp ha
    exact absurd hb (not_mem_of_lookup h)
  · cases List.mem_singleton.mp ha
    cases List.mem_singleton.mp hb
    rfl

/-- A choice that was made before adds nothing. -/
theorem mem_append_cons_of_lookup (h : known.lookup i = some e) (c : Fin 8 × Ept) :
    c ∈ known ++ (i, e) :: rest ↔ c ∈ known ++ rest := by
  rw [List.mem_append, List.mem_append, List.mem_cons]
  constructor
  · rintro (hc | rfl | hc)
    · exact Or.inl hc
    · exact Or.inl (mem_of_lookup h)
    · exact Or.inr hc
  · rintro (hc | hc)
    · exact Or.inl hc
    · exact Or.inr (Or.inr hc)

/-- Choices that are recorded agree, whatever is refused. -/
theorem record_agree (hk : known.Agree) : (known.record cs).2.Agree := by
  induction cs generalizing known with
  | nil => exact hk
  | cons c rest ih =>
    obtain ⟨i, e⟩ := c
    rw [record]
    split
    · exact ih (agree_append_singleton hk ‹_›)
    · split
      · exact ih hk
      · exact hk

/-- Without a conflict, what is recorded is what was known and what was added. -/
theorem mem_record (h : (known.record cs).1 = none) (c : Fin 8 × Ept) :
    c ∈ (known.record cs).2 ↔ c ∈ known ++ cs := by
  induction cs generalizing known with
  | nil => rw [record, List.append_nil]
  | cons d rest ih =>
    obtain ⟨i, e⟩ := d
    rw [record] at h ⊢
    split at h
    · rename_i hl
      rw [ih h, List.append_assoc, List.singleton_append]
    · rename_i e' hl
      split at h
      · rename_i he
        subst he
        rw [if_pos rfl, ih h, mem_append_cons_of_lookup hl]
      · cases h

/-- There is no conflict exactly when all choices agree. -/
theorem record_eq_none_iff (hk : known.Agree) :
    (known.record cs).1 = none ↔ Agree (known ++ cs) := by
  constructor
  · intro h
    exact (agree_congr (mem_record h)).mp (record_agree hk)
  · induction cs generalizing known with
    | nil => exact fun _ => rfl
    | cons c rest ih =>
      obtain ⟨i, e⟩ := c
      intro h
      rw [record]
      split
      · refine ih (agree_append_singleton hk ‹_›) ?_
        rwa [List.append_assoc, List.singleton_append]
      · rename_i e' hl
        have he : e' = e := h i e' e (List.mem_append_left _ (mem_of_lookup hl))
          (List.mem_append_right _ List.mem_cons_self)
        rw [if_pos he]
        exact ih hk (h.mono fun c hc => by
          subst he
          exact (mem_append_cons_of_lookup hl c).mpr hc)

theorem agree_record_append (h : (known.record cs).1 = none) :
    Agree ((known.record cs).2 ++ rest) ↔ Agree (known ++ cs ++ rest) :=
  agree_congr fun c => by
    rw [List.mem_append, mem_record h, List.mem_append (s := known ++ cs)]

end Choices

namespace Graph

variable {r : Registry} {g : Graph} {row : Row} {p dst src : EndPoint} {v : Violation}

/-! ## Rows -/

theorem mem_rows {s : Sides} : (row, s) ∈ g.rows.toList ↔ g.row? row = some s :=
  SortedMap.get?_eq_some_iff.symm

theorem mem_all (row : Row) : row ∈ Row.all := by cases row <;> decide

/-- No row has end points on a side that it lacks. -/
theorem sideViolation?_eq_none_iff :
    g.sideViolation? = none ↔
      ∀ row a, row.hasSide a = false → (g.interface row a).isEmpty = true := by
  rw [sideViolation?, List.findSome?_eq_none_iff]
  constructor
  · intro hs row a ha
    rw [interface_eq]
    cases hrow : g.row? row with
    | none => cases a <;> rfl
    | some s =>
      have h := List.findSome?_eq_none_iff.mp (hs (row, s) (mem_rows.mpr hrow)) a
        (by cases a <;> decide)
      simpa [ha] using h
  · rintro hs ⟨row, s⟩ hrow
    refine List.findSome?_eq_none_iff.mpr fun a _ => ?_
    cases ha : row.hasSide a with
    | true => rfl
    | false =>
      have h := hs row a ha
      rw [interface_of_row? (mem_rows.mp hrow)] at h
      simp [h]

theorem presenceViolation?_eq_none_iff :
    g.presenceViolation? = none ↔ ∀ row, g.rowViolation? row = none := by
  rw [presenceViolation?, List.findSome?_eq_none_iff]
  exact ⟨fun h row => h row (mem_all row), fun h row _ => h row⟩

/-- A graph keeps the rules on rows when no row has end points on a side it lacks and each row
obeys its presence rule. -/
theorem rowsViolation?_eq_none_iff :
    g.rowsViolation? = none ↔
      (∀ row a, row.hasSide a = false → (g.interface row a).isEmpty = true) ∧
        ∀ row, g.rowViolation? row = none := by
  rw [rowsViolation?, Option.orElse_eq_orElse, Option.orElse_eq_or, Option.or_eq_none_iff,
    sideViolation?_eq_none_iff, presenceViolation?_eq_none_iff]

theorem rowViolation?_category (h : g.rowViolation? row = some v) : v.category = .presence := by
  simp only [rowViolation?] at h
  split at h
  · split at h <;> cases h; rfl
  · split at h <;> cases h; rfl
  · cases h
  · split at h <;> cases h; rfl
  · split at h
    · cases h; rfl
    · split at h <;> cases h; rfl

theorem rowsViolation?_category (h : g.rowsViolation? = some v) : v.category = .presence := by
  rw [rowsViolation?, Option.orElse_eq_orElse, Option.orElse_eq_or, Option.or_eq_some_iff] at h
  rcases h with h | ⟨-, h⟩
  · obtain ⟨⟨row, s⟩, -, h⟩ := List.exists_of_findSome?_eq_some h
    obtain ⟨a, -, h⟩ := List.exists_of_findSome?_eq_some h
    split at h
    · cases h; rfl
    · cases h
  · obtain ⟨row, -, h⟩ := List.exists_of_findSome?_eq_some h
    exact rowViolation?_category h

/-! ## Connections -/

/-- A connection between end points that exist, from a row that may feed the other, of a type
that the destination takes. -/
def Joins (r : Registry) (g : Graph) (dst src : EndPoint) : Prop :=
  ∃ d e, g.ept? .dst dst = some d ∧ g.delivered src = some e ∧
    g.kind.isLegal src.row dst.row = true ∧ r.isCompatible e d = true

theorem wireViolation?_eq_none_iff :
    g.wireViolation? r dst src = none ↔ g.Joins r dst src := by
  rw [wireViolation?]
  split
  · rename_i d e hd he
    constructor
    · intro h
      split at h
      · cases h
      · split at h
        · cases h
        · rename_i hl hc
          exact ⟨d, e, hd, he, by simpa using hl, by simpa using hc⟩
    · rintro ⟨d', e', hd', he', hl, hc⟩
      rw [hd, Option.some.injEq] at hd'
      rw [he, Option.some.injEq] at he'
      subst hd' he'
      rw [hl, hc]
      rfl
  · rename_i hne
    refine ⟨nofun, ?_⟩
    rintro ⟨d, e, hd, he, -⟩
    exact absurd he (hne d e hd)

theorem wiresViolation?_eq_none_iff :
    g.wiresViolation? r = none ↔ ∀ dst src, g.sourceOf? dst = some src → g.Joins r dst src := by
  rw [wiresViolation?, List.findSome?_eq_none_iff]
  constructor
  · exact fun h dst src hs => wireViolation?_eq_none_iff.mp (h (dst, src) (mem_wires.mpr hs))
  · exact fun h ⟨dst, src⟩ hs => wireViolation?_eq_none_iff.mpr (h dst src (mem_wires.mp hs))

theorem wireViolation?_category (h : g.wireViolation? r dst src = some v) :
    v.category = .connectivity := by
  unfold wireViolation? at h
  split at h
  · split at h
    · cases h; rfl
    · split at h <;> cases h; rfl
  · cases h; rfl

theorem wiresViolation?_category (h : g.wiresViolation? r = some v) :
    v.category = .connectivity := by
  obtain ⟨w, -, h⟩ := List.exists_of_findSome?_eq_some h
  exact wireViolation?_category h

/-! ## Fixed instances -/

/-- The choices that the connections into a row make. -/
def rowChoices (g : Graph) (row : Row) : Choices :=
  (g.interface row .dst).epts.zipIdx.flatMap fun x => g.choicesAt ⟨row, x.2⟩ x.1

theorem mem_choicesAt {d : Ept} {c : Fin 8 × Ept} :
    c ∈ g.choicesAt p d ↔ ∃ e, g.fed p = some e ∧ c ∈ e.choices d := by
  rw [choicesAt]
  cases g.fed p with
  | none => simp
  | some e => simp

theorem mem_rowChoices {c : Fin 8 × Ept} :
    c ∈ g.rowChoices row ↔ ∃ k d e, g.ept? .dst ⟨row, k⟩ = some d ∧ g.fed ⟨row, k⟩ = some e ∧
      c ∈ e.choices d := by
  rw [rowChoices, List.mem_flatMap]
  constructor
  · rintro ⟨⟨d, k⟩, hx, hc⟩
    obtain ⟨e, he, hc⟩ := mem_choicesAt.mp hc
    exact ⟨k, d, e, List.mem_zipIdx_iff_getElem?.mp hx, he, hc⟩
  · rintro ⟨k, d, e, hd, he, hc⟩
    exact ⟨(d, k), List.mem_zipIdx_iff_getElem?.mpr hd, mem_choicesAt.mpr ⟨e, he, hc⟩⟩

theorem instanceConflict?_eq_none_iff {known : Choices} (hk : known.Agree)
    {l : List (Ept × Nat)} :
    g.instanceConflict? row known l = none ↔
      Choices.Agree (known ++ l.flatMap fun x => g.choicesAt ⟨row, x.2⟩ x.1) := by
  induction l generalizing known with
  | nil => simpa [instanceConflict?] using hk
  | cons x l ih =>
    obtain ⟨d, k⟩ := x
    rw [instanceConflict?, List.flatMap_cons, ← List.append_assoc]
    split
    · rename_i i known' h
      refine ⟨nofun, fun ha => ?_⟩
      have hn := (Choices.record_eq_none_iff hk).mpr
        (ha.mono fun c hc => List.mem_append_left _ hc)
      rw [h] at hn
      cases hn
    · rename_i known' h
      have hn : (known.record (g.choicesAt ⟨row, k⟩ d)).1 = none := by rw [h]
      have hk' : known' = (known.record (g.choicesAt ⟨row, k⟩ d)).2 := by rw [h]
      rw [ih (hk' ▸ Choices.record_agree hk), hk', Choices.agree_record_append hn]

theorem rowChoices_of_absent (h : g.row? row = none) : g.rowChoices row = [] := by
  rw [rowChoices, interface_eq, h]
  rfl

theorem instancesViolation?_eq_none_iff :
    g.instancesViolation? = none ↔ ∀ row, (g.rowChoices row).Agree := by
  rw [instancesViolation?, List.findSome?_eq_none_iff]
  constructor
  · intro h row
    cases hrow : g.row? row with
    | none => rw [rowChoices_of_absent hrow]; exact Choices.agree_nil
    | some s =>
      have hs := Option.map_eq_none_iff.mp (h (row, s) (mem_rows.mpr hrow))
      rw [rowChoices, interface_of_row? hrow]
      exact (instanceConflict?_eq_none_iff Choices.agree_nil).mp hs
  · rintro h ⟨row, s⟩ hrow
    have hr := h row
    rw [rowChoices, interface_of_row? (mem_rows.mp hrow)] at hr
    exact Option.map_eq_none_iff.mpr ((instanceConflict?_eq_none_iff Choices.agree_nil).mpr hr)

theorem instancesViolation?_category (h : g.instancesViolation? = some v) :
    v.category = .connectivity := by
  obtain ⟨⟨row, s⟩, -, h⟩ := List.exists_of_findSome?_eq_some h
  obtain ⟨i, -, rfl⟩ := Option.map_eq_some_iff.mp h
  rfl

/-! ## Completeness -/

theorem mem_points {a : Side} : p ∈ g.points a ↔ g.exists? a p = true := by
  rw [points, List.mem_flatMap, exists?, decide_eq_true_iff, count, interface_eq]
  constructor
  · rintro ⟨⟨row, s⟩, hrow, hp⟩
    obtain ⟨k, hk, rfl⟩ := List.mem_map.mp hp
    rw [mem_rows.mp hrow]
    exact List.mem_range.mp hk
  · intro hp
    cases hrow : g.row? p.row with
    | none => rw [hrow] at hp; cases a <;> exact absurd hp (Nat.not_lt_zero _)
    | some s =>
      rw [hrow] at hp
      exact ⟨(p.row, s), mem_rows.mpr hrow, List.mem_map.mpr ⟨p.index, List.mem_range.mpr hp, rfl⟩⟩

/-- End points that are listed row by row ascend if they do so in each row. -/
theorem ascending_flatMap {f : Row × Sides → List EndPoint}
    (hrow : ∀ x ∈ g.rows.toList, ∀ p ∈ f x, p.row = x.1)
    (hf : ∀ x ∈ g.rows.toList, (f x).Pairwise Before) :
    (g.rows.toList.flatMap f).Pairwise Before := by
  rw [List.pairwise_flatMap]
  refine ⟨hf, g.rows.ascending.imp_of_mem fun hx hy hxy p hp q hq => ?_⟩
  rw [EndPoint.before_iff, hrow _ hx p hp, hrow _ hy q hq]
  exact Or.inl hxy

theorem rowPoints_ascending (row : Row) (i : Interface) : (rowPoints row i).Pairwise Before := by
  unfold rowPoints
  rw [List.pairwise_map]
  refine List.pairwise_lt_range.imp fun h => ?_
  exact EndPoint.before_iff.mpr (Or.inr ⟨rfl, h⟩)

theorem points_ascending (g : Graph) (a : Side) : (g.points a).Pairwise Before := by
  apply ascending_flatMap
  · intro x _ p hp
    obtain ⟨k, -, rfl⟩ := List.mem_map.mp hp
    rfl
  · exact fun x _ => rowPoints_ascending x.1 _

theorem mem_unconnected :
    p ∈ g.unconnected ↔ g.exists? .dst p = true ∧ g.sourceOf? p = none := by
  rw [unconnected, List.mem_filter, mem_points, SortedMap.contains, sourceOf?,
    Bool.not_eq_true', Option.isSome_eq_false_iff, Option.isNone_iff_eq_none]

theorem mem_consumers : dst ∈ g.consumers src ↔ g.sourceOf? dst = some src := by
  rw [consumers, List.mem_map, ← mem_wires]
  constructor
  · rintro ⟨⟨d, s⟩, hw, rfl⟩
    obtain ⟨hw, hs⟩ := List.mem_filter.mp hw
    rwa [← of_decide_eq_true hs]
  · exact fun hw => ⟨(dst, src), List.mem_filter.mpr ⟨hw, decide_eq_true rfl⟩, rfl⟩

theorem mem_unused :
    p ∈ g.unused ↔ g.exists? .src p = true ∧ ∀ dst, g.sourceOf? dst ≠ some p := by
  rw [unused, List.mem_filter, mem_points, List.isEmpty_iff, List.eq_nil_iff_forall_not_mem]
  simp only [mem_consumers, ne_eq]

/-- Every destination has a source. -/
def Complete (g : Graph) : Prop := ∀ p, g.exists? .dst p = true → (g.sourceOf? p).isSome

theorem completenessViolation?_eq_none_iff :
    g.completenessViolation? = none ↔ g.kind.isWiringExempt = true ∨ g.Complete := by
  rw [completenessViolation?]
  split
  · exact ⟨fun _ => Or.inl ‹_›, fun _ => rfl⟩
  · rename_i hx
    rw [Option.map_eq_none_iff, List.head?_eq_none_iff, List.eq_nil_iff_forall_not_mem]
    constructor
    · refine fun h => Or.inr fun p hp => ?_
      by_contra hs
      exact h p (mem_unconnected.mpr ⟨hp, Option.not_isSome_iff_eq_none.mp hs⟩)
    · rintro (h | h) p hp
      · exact absurd h hx
      · obtain ⟨hp, hs⟩ := mem_unconnected.mp hp
        have := h p hp
        rw [hs] at this
        cases this

theorem completenessViolation?_eq_some (h : g.completenessViolation? = some v) :
    ∃ p, v = .incomplete p (g.kind.requiredSource p.row) ∧ p ∈ g.unconnected := by
  rw [completenessViolation?] at h
  split at h
  · cases h
  · obtain ⟨p, hp, rfl⟩ := Option.map_eq_some_iff.mp h
    exact ⟨p, rfl, List.mem_of_head? hp⟩

end Graph

/-! ## Codes -/

namespace Code

variable {r : Registry} {c : Code} {row : Row} {v : Violation}

/-- Nothing is wrong with the code, destinations without source apart. -/
structure Sound (r : Registry) (c : Code) : Prop where
  rows : c.graph.rowsViolation? = none
  subs : c.subsViolation? = none
  joins : ∀ dst src, c.graph.sourceOf? dst = some src → c.graph.Joins r dst src
  agree : ∀ row, (c.graph.rowChoices row).Agree

theorem violation?_eq (r : Registry) (c : Code) :
    c.violation? r = (c.graph.rowsViolation?.or (c.subsViolation?.or
      ((c.graph.wiresViolation? r).or
        (c.graph.instancesViolation?.or c.graph.completenessViolation?)))) := by
  simp only [violation?, Graph.wiringViolation?, Option.orElse_eq_orElse, Option.orElse_eq_or]

/-- The checks find nothing exactly if the code is sound and, unless its kind is exempt, every
destination has a source. -/
theorem violation?_eq_none_iff :
    c.violation? r = none ↔
      c.Sound r ∧ (c.kind.isWiringExempt = true ∨ c.graph.Complete) := by
  rw [violation?_eq, Option.or_eq_none_iff, Option.or_eq_none_iff, Option.or_eq_none_iff,
    Option.or_eq_none_iff, Graph.wiresViolation?_eq_none_iff,
    Graph.instancesViolation?_eq_none_iff, Graph.completenessViolation?_eq_none_iff]
  constructor
  · rintro ⟨hr, hs, hw, hi, hc⟩
    exact ⟨⟨hr, hs, hw, hi⟩, hc⟩
  · rintro ⟨⟨hr, hs, hw, hi⟩, hc⟩
    exact ⟨hr, hs, hw, hi, hc⟩

/-- The violations of a sound code are destinations without source. -/
theorem Sound.violation?_eq (h : c.Sound r) : c.violation? r = c.graph.completenessViolation? := by
  rw [Code.violation?_eq, h.rows, h.subs, Graph.wiresViolation?_eq_none_iff.mpr h.joins,
    Graph.instancesViolation?_eq_none_iff.mpr h.agree]
  rfl

theorem subViolation?_category (h : c.subViolation? row = some v) : v.category = .presence := by
  unfold subViolation? at h
  split at h <;> try split at h
  all_goals first
    | (cases h; rfl)
    | cases h

theorem subsViolation?_category (h : c.subsViolation? = some v) : v.category = .presence := by
  obtain ⟨row, -, h⟩ := List.exists_of_findSome?_eq_some h
  exact subViolation?_category h

/-- A code is sound if the checks find nothing worse than a destination without source. -/
theorem sound_of_violation? (h : ∀ v, c.violation? r = some v → v.category = .completeness) :
    c.Sound r := by
  cases hr : c.graph.rowsViolation? with
  | some v =>
    have hv := h v (by rw [violation?_eq, hr]; rfl)
    rw [Graph.rowsViolation?_category hr] at hv
    cases hv
  | none =>
  cases hs : c.subsViolation? with
  | some v =>
    have hv := h v (by rw [violation?_eq, hr, hs]; rfl)
    rw [subsViolation?_category hs] at hv
    cases hv
  | none =>
  cases hw : c.graph.wiresViolation? r with
  | some v =>
    have hv := h v (by rw [violation?_eq, hr, hs, hw]; rfl)
    rw [Graph.wiresViolation?_category hw] at hv
    cases hv
  | none =>
  cases hi : c.graph.instancesViolation? with
  | some v =>
    have hv := h v (by rw [violation?_eq, hr, hs, hw, hi]; rfl)
    rw [Graph.instancesViolation?_category hi] at hv
    cases hv
  | none =>
    exact ⟨hr, hs, Graph.wiresViolation?_eq_none_iff.mp hw,
      Graph.instancesViolation?_eq_none_iff.mp hi⟩

theorem sound_of_incomplete {p : EndPoint} {feeder : Option Row}
    (h : c.violation? r = some (.incomplete p feeder)) : c.Sound r := by
  refine sound_of_violation? fun v hv => ?_
  rw [h] at hv
  cases hv
  rfl

/-- A sound code can only lack a source. -/
theorem Sound.incomplete (h : c.Sound r) (hv : c.violation? r = some v) :
    ∃ p, v = .incomplete p (c.graph.kind.requiredSource p.row) ∧ p ∈ c.graph.unconnected := by
  rw [h.violation?_eq] at hv
  exact Graph.completenessViolation?_eq_some hv

end Code

end GeneGraph
