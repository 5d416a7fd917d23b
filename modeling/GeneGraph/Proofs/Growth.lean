import GeneGraph.Proofs.Grafting
import Mathlib.Data.List.Perm.Subperm

/-!
# Grafting a code that has grown

Before a fetal code is grafted it may grow: it may get new inputs and connections, and its own
sub-codes may be replaced. `Code.Grows` is any sequence of such steps, with the index that each of
its first inputs has in the end.

The row that waits for the code has to get the same inputs, but `Code.graft` finds the new ones by
their types alone, and inserts them in another order. `Interface.Grown` is why that does not
matter: an end point is inserted behind its equals, so where the old ones are found depends on the
new types and not on their order. `graft_grows` says that grafting always succeeds, and that the
sources and the consumers of the row are found where the inputs and outputs of the code went.
-/

namespace GeneGraph

/-! ## Interfaces with new end points -/

namespace Interface

variable {i i' i'' : Interface} {new new' : List Ept} {σ τ : Nat → Nat} {e x : Ept} {j : Nat}

/-- `i'` has the end points of `i` at the indices `σ`, and new ones of the types `new`. An old end
point moved on by one index for each new type that comes before its own. -/
structure Grown (i : Interface) (new : List Ept) (σ : Nat → Nat) (i' : Interface) : Prop where
  canonical : i'.isCanonical = true
  perm : i'.epts.Perm (new ++ i.epts)
  get?_eq : ∀ j, i'.get? (σ j) = i.get? j
  index_eq : ∀ j x, i.get? j = some x → σ j = j + new.countP fun e => Before e x

theorem Grown.refl (hc : i.isCanonical = true) : i.Grown [] id i :=
  ⟨hc, .refl _, fun _ => rfl, fun _ _ _ => rfl⟩

theorem grown_insert (hc : i.isCanonical = true) (h : i.insert e = .ok i') :
    i.Grown [e] (i.shift e) i' where
  canonical := insert_isCanonical hc h
  perm := insert_perm h
  get?_eq := get?_insert_shift h
  index_eq j x hj := by
    simp only [shift, slot_le_iff hc hj, List.countP_singleton, decide_eq_true_eq]
    split <;> rfl

theorem Grown.trans (h : i.Grown new σ i') (h' : i'.Grown new' τ i'') :
    i.Grown (new' ++ new) (τ ∘ σ) i'' where
  canonical := h'.canonical
  perm := by
    rw [List.append_assoc]
    exact h'.perm.trans (h.perm.append_left new')
  get?_eq j := (h'.get?_eq (σ j)).trans (h.get?_eq j)
  index_eq j x hj := by
    rw [Function.comp_apply, h'.index_eq (σ j) x ((h.get?_eq j).trans hj), h.index_eq j x hj,
      List.countP_append, Nat.add_assoc, Nat.add_comm (new.countP _)]

theorem Grown.congr (h : i.Grown new σ i') (hp : new.Perm new') : i.Grown new' σ i' where
  canonical := h.canonical
  perm := h.perm.trans (hp.append_right i.epts)
  get?_eq := h.get?_eq
  index_eq j x hj := (h.index_eq j x hj).trans (congrArg (j + ·) (hp.countP_eq _))

theorem Grown.elements_eq (h : i.Grown new σ i') : i'.elements = elementsOf new + i.elements :=
  (elementsOf_perm h.perm).trans (elementsOf_append new i.epts)

/-- Types that are the same but for their order make the same interface. -/
theorem eq_of_perm (hc : i.isCanonical = true) (hc' : i'.isCanonical = true)
    (h : i.epts.Perm i'.epts) : i = i' := by
  refine ext (h.eq_of_pairwise (fun a b _ _ hab hba => ?_) (isCanonical_iff.mp hc)
    (isCanonical_iff.mp hc'))
  exact eq_of_not_before hba hab

/-- What an interface becomes depends on the types of the new end points only. -/
theorem Grown.unique (h : i.Grown new σ i') (h' : i.Grown new τ i'') :
    i' = i'' ∧ ∀ j < i.length, σ j = τ j := by
  constructor
  · exact eq_of_perm h.canonical h'.canonical (h.perm.trans h'.perm.symm)
  · intro j hj
    obtain ⟨x, hx⟩ := Option.isSome_iff_exists.mp (get?_isSome_iff.mpr hj)
    rw [h.index_eq j x hx, h'.index_eq j x hx]

/-- An interface can get any new end points for which there is room. -/
theorem Grown.exists (hc : i.isCanonical = true)
    (hroom : elementsOf (new ++ i.epts) ≤ maxElements) : ∃ σ i', i.Grown new σ i' := by
  induction new with
  | nil => exact ⟨id, i, .refl hc⟩
  | cons e new ih =>
    have hsize : e.length + elementsOf (new ++ i.epts) ≤ maxElements := hroom
    obtain ⟨σ, i', h⟩ := ih (Nat.le_trans (Nat.le_add_left _ _) hsize)
    have hroom' : i'.elements + e.length ≤ maxElements := by
      rw [h.elements_eq, elements, ← elementsOf_append, Nat.add_comm]
      exact hsize
    obtain ⟨i'', hi⟩ := insert_total hroom'
    exact ⟨_, i'', h.trans (grown_insert h.canonical hi)⟩

/-- A canonical interface with more end points is the smaller one with new end points. -/
theorem grown_of_subperm (hc : i.isCanonical = true) (hc' : i'.isCanonical = true)
    (h : i.epts.Subperm i'.epts) : ∃ new σ, i.Grown new σ i' := by
  obtain ⟨old, hold, hsub⟩ := h
  obtain ⟨new, hnew⟩ := hsub.exists_perm_append
  have hperm : i'.epts.Perm (new ++ i.epts) :=
    (hnew.trans (hold.append_right new)).trans List.perm_append_comm
  obtain ⟨σ, i₁, h₁⟩ := Grown.exists hc (elementsOf_perm hperm ▸ i'.fits)
  obtain rfl : i₁ = i' := eq_of_perm h₁.canonical hc' (h₁.perm.trans hperm.symm)
  exact ⟨new, σ, h₁⟩

end Interface

/-! ## Rows with new destinations -/

namespace Graph

variable {g g' g'' : Graph} {row r : Row} {a : Side} {e : Ept} {k : Nat} {new new' : List Ept}
  {σ τ : Nat → Nat} {dst src : EndPoint}

/-- `g'` is `g` with new destinations of the types `new` in a row. The old ones are at the indices
`σ`, with their sources, and the new ones have no source. -/
structure Widened (row : Row) (g : Graph) (new : List Ept) (σ : Nat → Nat) (g' : Graph) : Prop where
  grown : (g.interface row .dst).Grown new σ (g'.interface row .dst)
  row_eq : g'.row? row = (g.row? row).map fun s => ⟨g'.interface row .dst, s.src⟩
  others : ∀ r, r ≠ row → g'.row? r = g.row? r
  kept : ∀ p, p.row ≠ row → g'.sourceOf? p = g.sourceOf? p
  moved : ∀ j, g'.sourceOf? ⟨row, σ j⟩ = g.sourceOf? ⟨row, j⟩
  fresh : ∀ k, (∀ j, σ j ≠ k) → g'.sourceOf? ⟨row, k⟩ = none

theorem Widened.refl (hc : (g.interface row .dst).isCanonical = true) :
    g.Widened row [] id g where
  grown := .refl hc
  row_eq := by
    cases hrow : g.row? row with
    | none => rfl
    | some s => rw [interface_of_row? hrow]; rfl
  others _ _ := rfl
  kept _ _ := rfl
  moved _ := rfl
  fresh k h := absurd rfl (h k)

theorem Widened.trans (h : g.Widened row new σ g') (h' : g'.Widened row new' τ g'') :
    g.Widened row (new' ++ new) (τ ∘ σ) g'' where
  grown := h.grown.trans h'.grown
  row_eq := by
    rw [h'.row_eq, h.row_eq, Option.map_map]
    rfl
  others r hr := (h'.others r hr).trans (h.others r hr)
  kept p hp := (h'.kept p hp).trans (h.kept p hp)
  moved j := (h'.moved (σ j)).trans (h.moved j)
  fresh k hk := by
    by_cases hm : ∃ m, τ m = k
    · obtain ⟨m, rfl⟩ := hm
      rw [h'.moved, h.fresh m fun j hj => hk j (congrArg τ hj)]
    · exact h'.fresh k fun m hm' => hm ⟨m, hm'⟩

theorem Widened.congr (h : g.Widened row new σ g') (hp : new.Perm new') :
    g.Widened row new' σ g' :=
  ⟨h.grown.congr hp, h.row_eq, h.others, h.kept, h.moved, h.fresh⟩

theorem widened_insert {s : Sides} (hrow : g.row? row = some s)
    (hc : (g.interface row .dst).isCanonical = true) (h : g.insert row .dst e = (.ok k, g')) :
    g.Widened row [e] ((g.interface row .dst).shift e) g' := by
  obtain ⟨i', hi, -, rfl⟩ := insert_ok h
  have hinj := (g.interface row .dst).shift_injective e
  have hint : Graph.interface ((g.setSide row .dst i').moveWires row .dst fun k =>
      some ((g.interface row .dst).shift e k)) row .dst = i' :=
    interface_setSide.trans (if_pos ⟨rfl, rfl⟩)
  refine ⟨?_, ?_, fun r hr => (row?_setSide g row r .dst i').trans (if_neg hr), fun p hp => ?_,
    fun j => ?_, fun k hk => sourceOf?_moveWires_fresh hinj hk⟩
  · rw [hint]
    exact Interface.grown_insert hc hi
  · rw [hint, hrow]
    refine (row?_setSide g row row .dst i').trans ?_
    rw [if_pos rfl, hrow]
    rfl
  · have hmoved := sourceOf?_moveWires_onRow (g := g.setSide row .dst i') row hinj p
    rwa [EndPoint.onRow_of_ne hp] at hmoved
  · have hmoved := sourceOf?_moveWires_onRow (g := g.setSide row .dst i') row hinj ⟨row, j⟩
    rwa [EndPoint.onRow_self] at hmoved

/-- Inserting the types of `es` that are not among `left` inserts the types `rest` that they have
more, and leaves nothing over. -/
theorem insertMissing_ok {s : Sides} {es left rest : List Ept} (hrow : g.row? row = some s)
    (h : g.Widened row new σ g') (hes : es.Perm (left ++ rest))
    (hfits : elementsOf (rest ++ (new ++ (g.interface row .dst).epts)) ≤ maxElements) :
    ∃ τ g'', insertMissing row left es g' = (.ok [], g'') ∧ g.Widened row (rest ++ new) τ g'' := by
  induction es generalizing left rest new σ g' with
  | nil =>
    obtain ⟨rfl, rfl⟩ := List.append_eq_nil_iff.mp (List.nil_perm.mp hes)
    exact ⟨σ, g', rfl, h⟩
  | cons e es ih =>
    rw [insertMissing]
    by_cases he : e ∈ left
    · rw [if_pos he]
      refine ih h ?_ hfits
      have := hes.trans ((List.perm_cons_erase he).append_right rest)
      exact (List.perm_cons e).mp this
    · rw [if_neg he]
      have hrest : rest.Perm (e :: rest.erase e) := List.perm_cons_erase
        ((List.mem_append.mp (hes.mem_iff.mp List.mem_cons_self)).resolve_left he)
      have hes' : es.Perm (left ++ rest.erase e) := (List.perm_cons e).mp
        (hes.trans ((hrest.append_left left).trans List.perm_middle))
      have hp : (rest.erase e ++ ([e] ++ new)).Perm (rest ++ new) :=
        List.perm_middle.trans (hrest.symm.append_right new)
      have hsize : elementsOf rest = e.length + elementsOf (rest.erase e) := elementsOf_perm hrest
      have hroom : (g'.interface row .dst).elements + e.length ≤ maxElements := by
        rw [h.grown.elements_eq, Interface.elements]
        rw [elementsOf_append, elementsOf_append] at hfits
        omega
      obtain ⟨k, g₁, hi⟩ := insert_total hroom
      have hrow' : g'.row? row = some ⟨g'.interface row .dst, s.src⟩ := by
        rw [h.row_eq, hrow]
        rfl
      obtain ⟨τ, g₂, hok, h₂⟩ := ih (h.trans (widened_insert hrow' h.grown.canonical hi)) hes' (by
        rw [← List.append_assoc, elementsOf_append, elementsOf_perm hp, ← elementsOf_append,
          List.append_assoc]
        exact hfits)
      refine ⟨τ, g₂, ?_, h₂.congr hp⟩
      rw [hi]
      exact hok

/-- Connections of the row still name end points that exist. -/
theorem Widened.anchoredAt (h : g.Widened row new σ g') (ha : g.AnchoredAt row) :
    g'.AnchoredAt row := by
  have hsrc {dst src : EndPoint} (hs : g.sourceOf? dst = some src) (hrow : src.row = row) :
      g'.exists? .src src = true := by
    have hex := (ha dst src hs).2 hrow
    have hint : g'.interface row .src = g.interface row .src := by
      rw [interface_eq, interface_eq, h.row_eq]
      cases g.row? row <;> rfl
    rwa [exists?, count, hrow, hint, ← hrow]
  rintro ⟨r, k⟩ src hs
  by_cases hr : r = row
  · subst hr
    by_cases hk : ∃ j, σ j = k
    · obtain ⟨j, rfl⟩ := hk
      rw [h.moved] at hs
      refine ⟨fun _ => exists?_iff.mpr ?_, hsrc hs⟩
      have hex := exists?_iff.mp ((ha _ _ hs).1 rfl)
      rwa [ept?, h.grown.get?_eq]
    · rw [h.fresh k fun j hj => hk ⟨j, hj⟩] at hs
      cases hs
  · rw [h.kept _ hr] at hs
    exact ⟨fun hr' => absurd hr' hr, hsrc hs⟩

/-- Only the old destinations have sources. -/
theorem Widened.sourceOf?_of_new (h : g.Widened row new σ g') (ha : g.AnchoredAt row)
    (hk : ∀ j < g.count row .dst, σ j ≠ k) : g'.sourceOf? ⟨row, k⟩ = none := by
  by_cases hj : ∃ j, σ j = k
  · obtain ⟨j, rfl⟩ := hj
    rw [h.moved]
    refine Option.eq_none_iff_forall_ne_some.mpr fun src hs => ?_
    exact hk j (of_decide_eq_true ((ha _ _ hs).1 rfl)) rfl
  · exact h.fresh k fun j hj' => hj ⟨j, hj'⟩

theorem placeAt_eq_onRow {s : Sides} (hrow : g.row? row = some s) :
    g.placeAt row .src .src = EndPoint.onRow row s.src.place := funext fun p => by
  by_cases hp : p.row = row
  · rw [placeAt, if_pos ⟨hp, rfl⟩, EndPoint.onRow, if_pos hp, place, hp, interface_of_row? hrow]
    rfl
  · rw [placeAt_other fun h => hp h.1, EndPoint.onRow_of_ne hp]

theorem row?_insertMissing_of_ne {left es : List Ept} (h : r ≠ row) :
    (insertMissing row left es g).2.row? r = g.row? r := by
  induction es generalizing left g with
  | nil => rfl
  | cons e es ih =>
    rw [insertMissing]
    split
    · exact ih
    · have hins : (g.insert row .dst e).2.row? r = g.row? r := row?_insert_of_ne h
      split
      · rename_i hg
        rwa [hg] at hins
      · rename_i hg
        rw [hg] at hins
        exact ih.trans hins

end Graph

/-! ## Grafting -/

namespace Code

variable {c c' c'' : Code} {row r : Row} {f : Frozen} {new : List Ept} {σ τ : Nat → Nat}

theorem row?_graft_of_ne (h : r ≠ row) : (c.graft row f).2.graph.row? r = c.graph.row? r := by
  have hins : (insertMissing row (c.graph.interface row .dst).epts f.inputs.epts c.graph).2.row? r =
      c.graph.row? r := Graph.row?_insertMissing_of_ne h
  unfold graft
  split
  · rename_i hg
    rwa [hg] at hins
  · rename_i g hg
    rw [hg] at hins
    have hreorder : (g.reorderSide row .src).2.row? r = c.graph.row? r := by
      rw [Graph.row?_reorderSide, if_neg h]
      exact hins
    dsimp only
    split
    · rw [graph_attach]
      exact hreorder
    · exact hreorder

/-- `c'` is `c` with the code `f` in a row: destination `j` of the row has become input `ι j`, with
its source, source `m` has become output `ο m`, with its consumers, and the inputs that are new
have no source. -/
structure Receives (c : Code) (row : Row) (f : Frozen) (ι ο : Nat → Nat) (c' : Code) : Prop where
  sub : c'.sub? row = some f
  sides : c'.graph.row? row = some f.rowSides
  fed : ∀ j < c.graph.count row .dst, c'.graph.sourceOf? ⟨row, ι j⟩ =
    (c.graph.sourceOf? ⟨row, j⟩).map (EndPoint.onRow row ο)
  added : ∀ k < f.inputs.length, (∀ j < c.graph.count row .dst, ι j ≠ k) →
    ⟨row, k⟩ ∈ c'.graph.unconnected
  consumers : ∀ p, p.row ≠ row →
    c'.graph.sourceOf? p = (c.graph.sourceOf? p).map (EndPoint.onRow row ο)
  others : ∀ r, r ≠ row → c'.graph.row? r = c.graph.row? r ∧ c'.sub? r = c.sub? r

/-- A row that is in order takes any code with its inputs, perhaps more, and its outputs. -/
theorem graft_of_grown {s : Sides} (hsub : row.isSub = true) (hrow : c.graph.row? row = some s)
    (hc : s.dst.isCanonical = true) (ha : c.graph.AnchoredAt row)
    (hin : s.dst.Grown new σ f.inputs) (hout : f.outputs = s.src.reorder) :
    ∃ c', c.graft row f = (.ok (), c') ∧ c.Receives row f σ s.src.place c' := by
  have hdst : c.graph.interface row .dst = s.dst := Graph.interface_of_row? hrow
  have hes : f.inputs.epts.Perm (s.dst.epts ++ new) := hin.perm.trans List.perm_append_comm
  obtain ⟨τ, g, hok, hw⟩ := Graph.insertMissing_ok hrow (.refl (hdst ▸ hc)) hes (by
    rw [hdst, List.nil_append, ← elementsOf_perm hin.perm]
    exact f.inputs.fits)
  rw [List.append_nil] at hw
  have hgrown := hw.grown
  rw [hdst] at hgrown
  obtain ⟨hinputs, hindex⟩ := hgrown.unique hin
  have hrow' : g.row? row = some ⟨f.inputs, s.src⟩ := by
    rw [hw.row_eq, hrow, hinputs]
    rfl
  have hfit : (g.reorderSide row .src).2.row? row = some f.rowSides := by
    rw [Graph.row?_reorderSide, if_pos rfl, hrow', Frozen.rowSides, hout]
    rfl
  have hsource (p : EndPoint) : (g.reorderSide row .src).2.sourceOf? p =
      (g.sourceOf? p).map (EndPoint.onRow row s.src.place) := by
    rw [Graph.sourceOf?_reorderSide_src (hw.anchoredAt ha) hrow', Graph.placeAt_eq_onRow hrow']
  refine ⟨({ c with graph := (g.reorderSide row .src).2 } : Code).attach row (some f), ?_, ?_⟩
  · unfold graft
    rw [hdst, hok]
    simp only [hfit, List.isEmpty_nil, decide_true, Bool.and_true, if_true]
  have hlt {j : Nat} (hj : j < c.graph.count row .dst) : σ j = τ j := by
    rw [Graph.count, hdst] at hj
    exact (hindex j hj).symm
  refine ⟨?_, ?_, fun j hj => ?_, fun k hk hnew => ?_, fun p hp => ?_, fun r hr => ⟨?_, ?_⟩⟩
  · rw [sub?_attach hsub, if_pos rfl]
  · rw [graph_attach]
    exact hfit
  · rw [graph_attach, hlt hj, ← hw.moved]
    exact hsource _
  · rw [graph_attach]
    refine Graph.mem_unconnected.mpr ⟨?_, ?_⟩
    · rw [Graph.exists?, Graph.count, Graph.interface_of_row? hfit]
      exact decide_eq_true hk
    · rw [hsource]
      refine Option.map_eq_none_iff.mpr (hw.sourceOf?_of_new ha fun j hj => ?_)
      rw [← hlt hj]
      exact hnew j hj
  · rw [graph_attach, ← hw.kept p hp]
    exact hsource p
  · rw [graph_attach, ← hw.others r hr]
    exact (Graph.row?_reorderSide ..).trans (if_neg hr)
  · rw [sub?_attach hsub, if_neg hr, sub?_of_graph]

/-! ## Growth -/

/-- A step in which a code grows, with the index that each of its inputs has then. -/
inductive Grow : Code → (Nat → Nat) → Code → Prop
  /-- A new input is inserted at `k`. -/
  | input {c : Code} {e : Ept} {k : Nat} {g : Graph} :
    c.graph.insert .I .src e = (.ok k, g) →
      Grow c (fun j => if k ≤ j then j + 1 else j) { c with graph := g }
  /-- A destination without source is connected. -/
  | feed {c : Code} {src dst : EndPoint} {g : Graph} :
    c.graph.connect src dst = (.ok none, g) → Grow c id { c with graph := g }
  /-- Another code is spliced in. -/
  | restructure {c : Code} {insert : Frozen} {above : Above} {i : Insertion} :
    c.restructure insert above = .ok i → Grow c id i.code
  /-- A code is grafted into row A or B. -/
  | graft {c c' : Code} {row : Row} {f : Frozen} : row.isSub = true →
    c.graft row f = (.ok (), c') → Grow c id c'

/-- Any number of such steps. -/
inductive Grows : Code → (Nat → Nat) → Code → Prop
  | refl {c : Code} : Grows c id c
  | step {c c' c'' : Code} {σ τ : Nat → Nat} : Grows c σ c' → Grow c' τ c'' → Grows c (τ ∘ σ) c''

/-- Rows I and O say what the inputs and outputs are. -/
theorem grown_of_rows (hc : c.inputs.isCanonical = true)
    (h : ∀ r, r.isSub = false → c'.graph.row? r = c.graph.row? r) :
    (∃ new, c.inputs.Grown new id c'.inputs) ∧ c'.outputs = c.outputs := by
  have hin : c'.inputs = c.inputs := Graph.interface_of_row?_eq (h .I rfl)
  refine ⟨⟨[], ?_⟩, Graph.interface_of_row?_eq (h .O rfl)⟩
  rw [hin]
  exact .refl hc

theorem Grow.grown (h : Grow c τ c') (hc : c.inputs.isCanonical = true) :
    (∃ new, c.inputs.Grown new τ c'.inputs) ∧ c'.outputs = c.outputs := by
  cases h with
  | @input e k g h =>
    obtain ⟨i', hi, rfl, rfl⟩ := Graph.insert_ok h
    have hint : (c.graph.setSide .I .src i').interface .I .src = i' :=
      Graph.interface_setSide.trans (if_pos ⟨rfl, rfl⟩)
    refine ⟨⟨[e], ?_⟩, Graph.interface_setSide.trans (if_neg (by decide))⟩
    show c.inputs.Grown [e] _ ((c.graph.setSide .I .src i').interface .I .src)
    rw [hint]
    exact Interface.grown_insert hc hi
  | feed h =>
    obtain ⟨-, -, rfl⟩ := Graph.connect_ok h
    exact ⟨⟨[], .refl hc⟩, rfl⟩
  | @restructure insert above i h =>
    obtain ⟨x, rfl⟩ := restructure_ok h
    refine grown_of_rows hc fun r hr => x.row?_code.trans (if_neg fun he => ?_)
    rw [he, Above.isSub_replacedRow] at hr
    cases hr
  | @graft _ row f hsub h =>
    refine grown_of_rows hc fun r hr => ?_
    have hgraft : (c.graft row f).2.graph.row? r = c.graph.row? r := row?_graft_of_ne fun he => by
      rw [he, hsub] at hr
      cases hr
    rwa [h] at hgraft

/-- A code that grows keeps its outputs, and gets new inputs in canonical order. -/
theorem Grows.grown (h : Grows c σ c') (hc : c.inputs.isCanonical = true) :
    (∃ new, c.inputs.Grown new σ c'.inputs) ∧ c'.outputs = c.outputs := by
  induction h with
  | refl => exact ⟨⟨[], .refl hc⟩, rfl⟩
  | step _ hstep ih =>
    obtain ⟨⟨new, hnew⟩, hout⟩ := ih
    obtain ⟨⟨new', hnew'⟩, hout'⟩ := hstep.grown hnew.canonical
    exact ⟨⟨new' ++ new, hnew.trans hnew'⟩, hout'.trans hout⟩

end Code

/-! ## The vacated row -/

namespace Graph

variable {g g' : Graph} {row : Row}

/-- Connecting checks that the end points exist. -/
theorem anchoredAt_connectAll {ws : List (EndPoint × EndPoint)} (h : g.connectAll ws = .ok g')
    (ha : g.AnchoredAt row) : g'.AnchoredAt row := by
  induction ws generalizing g with
  | nil =>
    cases h
    exact ha
  | cons w ws ih =>
    rw [connectAll_cons] at h
    split at h
    · cases h
    · rename_i prev g₁ hw
      obtain ⟨hs, hd, rfl⟩ := connect_ok hw
      refine ih h fun dst src hsrc => ?_
      rw [sourceOf?_insert_wire] at hsrc
      split at hsrc
      · rename_i hdst
        cases hsrc
        subst hdst
        exact ⟨fun _ => hd, fun _ => hs⟩
      · exact ha dst src hsrc

/-- A row that was written has no connections. -/
theorem anchoredAt_setRow (s : Sides) : (g.setRow row s).AnchoredAt row := by
  intro dst src hs
  rw [sourceOf?_setRow, Option.filter_eq_some_iff, Bool.and_eq_true, decide_eq_true_iff,
    decide_eq_true_iff] at hs
  exact ⟨fun hd => absurd hd hs.2.1, fun hr => absurd hr hs.2.2⟩

end Graph

theorem Splice.anchoredAt_code {target : Code} {insert : Frozen} {above : Above}
    (x : Splice target insert above) : x.code.graph.AnchoredAt above.replacedRow := by
  obtain ⟨g, hg, hc⟩ := x.vacated
  rw [hc, Code.graph_attach]
  exact Graph.anchoredAt_connectAll hg (Graph.anchoredAt_setRow _)

/-- However a fetal code has grown, it can be grafted: its row receives it, with each destination
at the index that its input has in the frozen code, and each source at the index of its output. -/
theorem graft_grows {target : Code} {insert : Frozen} {above : Above} {i : Insertion} {row : Row}
    {fetal c : Code} {σ : Nat → Nat} (hr : target.restructure insert above = .ok i)
    (hf : i.fetal = some ⟨row, fetal⟩) (hg : fetal.Grows σ c) (serial : Nat) :
    i.code.graph.row? row = some ⟨fetal.inputs, fetal.outputs⟩ ∧ c.outputs = fetal.outputs ∧
      ∃ g, i.code.graft row (c.freeze serial) = (.ok (), g) ∧
        i.code.Receives row (c.freeze serial) (fun j => c.inputs.place (σ j))
          c.outputs.place g := by
  obtain ⟨x, rfl⟩ := Code.restructure_ok hr
  obtain ⟨rfl, rfl⟩ := Fetal.mk.inj (Option.some.inj hf)
  have hinputs : x.fetal.inputs = x.inputs := x.interface_fetal_I
  have houtputs : x.fetal.outputs = x.outputs := x.interface_fetal_O
  obtain ⟨⟨new, hnew⟩, hout⟩ := hg.grown (hinputs ▸ x.inputs_canonical)
  rw [hinputs] at hnew
  have hplace : (fun j => c.inputs.place (σ j)) = σ := funext fun j =>
    Interface.place_of_canonical hnew.canonical (σ j)
  have hin : (c.freeze serial).inputs = c.inputs :=
    (Graph.interface_reorder ..).trans (Interface.reorder_of_canonical hnew.canonical)
  have hrow : x.insertion.code.graph.row? above.replacedRow = some ⟨x.inputs, x.outputs⟩ := by
    show x.code.graph.row? _ = _
    rw [x.row?_code, if_pos rfl]
  refine ⟨by rw [hrow, hinputs, houtputs], hout, ?_⟩
  rw [hplace, hout, houtputs]
  refine Code.graft_of_grown Above.isSub_replacedRow hrow x.inputs_canonical x.anchoredAt_code
    (hin ▸ hnew) ?_
  show c.graph.reorder.interface .O .dst = x.outputs.reorder
  rw [Graph.interface_reorder]
  exact congrArg Interface.reorder (hout.trans houtputs)

/-- A codon is spliced into the chain, and is then fed from a new input of the fetal code. -/
theorem graft_grows_chain :
    ∃ i fetal c g, Frozen.chain.code.restructure (.codon (.single 3) (.single 3)) .B = .ok i ∧
      i.fetal = some ⟨.B, fetal⟩ ∧ fetal.Grows (fun j => if 1 ≤ j then j + 1 else j) c ∧
        i.code.graft .B (c.freeze 0) = (.ok (), g) ∧
          i.code.Receives .B (c.freeze 0) (fun j => c.inputs.place (if 1 ≤ j then j + 1 else j))
            c.outputs.place g := by
  have hok : (Frozen.chain.code.restructure (.codon (.single 3) (.single 3)) .B).toOption.map
      (fun i => i.fetal.map fun f =>
        let extended := f.code.graph.insert .I .src (.plain 0 3)
        decide (f.row = .B ∧ extended.1 = .ok 1 ∧
          (extended.2.connect ⟨.I, 1⟩ ⟨.A, 0⟩).1 = .ok none)) = some (some true) := by
    decide +kernel
  obtain ⟨i, hr, h⟩ := toOption_map_eq_some.mp hok
  obtain ⟨⟨row, fetal⟩, hf, h⟩ := Option.map_eq_some_iff.mp h
  obtain ⟨rfl, hinsert, hconnect⟩ := of_decide_eq_true h
  have hgrows := (Code.Grows.refl.step (.input (Prod.ext hinsert rfl))).step
    (.feed (Prod.ext hconnect rfl))
  obtain ⟨-, -, g, hg, hreceives⟩ := graft_grows hr hf hgrows 0
  exact ⟨i, fetal, _, g, hr, hf, hgrows, hg, hreceives⟩

end GeneGraph
