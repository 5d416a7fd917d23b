import GeneGraph.Proofs.Delivery
import GeneGraph.Samples

/-!
# What freezing keeps

Freezing puts the interfaces of a code into canonical order, one side of a row after another.
Each step moves end points to their places and the connections with them, so the whole is a
renaming of end points: `Graph.moves_reorder`. The rows of sub-codes are canonical before, so
the checks come out as before, and a valid code is valid when it is frozen (`Code.freeze_valid`).
-/

namespace GeneGraph

/-- Both sides in canonical order. -/
def Sides.reorder (s : Sides) : Sides := ⟨s.dst.reorder, s.src.reorder⟩

namespace Interface

@[simp] theorem reorder_reorder (i : Interface) : i.reorder.reorder = i.reorder :=
  reorder_of_canonical i.reorder_isCanonical

theorem isEmpty_reorder (i : Interface) : i.reorder.isEmpty = i.isEmpty := by
  rw [Bool.eq_iff_iff, isEmpty, isEmpty, List.isEmpty_iff_length_eq_zero,
    List.isEmpty_iff_length_eq_zero]
  show i.reorder.length = 0 ↔ i.length = 0
  rw [length_reorder]

end Interface

namespace Graph

variable {g g' g'' : Graph} {row r : Row} {a b : Side} {p : EndPoint} {i : Interface}
  {δ σ δ' σ' : EndPoint → EndPoint}

/-! ## Rows -/

theorem row?_reorderSide (g : Graph) (row r : Row) (a : Side) :
    (g.reorderSide row a).2.row? r =
      if r = row then (g.row? r).map fun s => s.setSide a (s.side a).reorder else g.row? r := by
  rw [reorderSide, interface?]
  cases hrow : g.row? row with
  | none =>
    by_cases hr : r = row
    · rw [if_pos hr, hr, hrow]; exact hrow
    · rw [if_neg hr]; rfl
  | some s =>
    show (g.setSide row a (s.side a).reorder).row? r = _
    rw [row?_setSide, hrow]
    by_cases hr : r = row
    · rw [if_pos hr, if_pos hr, hr, hrow]; rfl
    · rw [if_neg hr, if_neg hr]

theorem setSide_side (s : Sides) (a : Side) : s.setSide a (s.side a) = s := by cases a <;> rfl

theorem row?_canonicalizeSide (g : Graph) (row r : Row) (a : Side) :
    (g.canonicalizeSide row a).row? r =
      if r = row then (g.row? r).map fun s => s.setSide a (s.side a).reorder else g.row? r := by
  rw [canonicalizeSide]
  split
  · rename_i hc
    by_cases hr : r = row
    · subst hr
      rw [if_pos rfl]
      cases hrow : g.row? r with
      | none => rfl
      | some s =>
        rw [interface_of_row? hrow] at hc
        rw [Option.map_some, Interface.reorder_of_canonical hc, setSide_side]
    · rw [if_neg hr]
  · exact row?_reorderSide g row r a

/-- The rows of a list are canonical after their sides are, and the others stay. -/
theorem row?_foldl_canonicalizeSide (g : Graph) (rows : List Row) (r : Row) :
    (rows.foldl (fun g row => (g.canonicalizeSide row .dst).canonicalizeSide row .src) g).row? r =
      if r ∈ rows then (g.row? r).map Sides.reorder else g.row? r := by
  induction rows generalizing g with
  | nil => rfl
  | cons row rows ih =>
    rw [List.foldl_cons, ih, row?_canonicalizeSide, row?_canonicalizeSide]
    by_cases hr : r = row
    · subst hr
      rw [if_pos rfl, if_pos rfl, if_pos List.mem_cons_self]
      cases g.row? r with
      | none => split <;> rfl
      | some s => split <;> simp [Sides.reorder, Sides.setSide, Sides.side]
    · rw [if_neg hr, if_neg hr]
      by_cases hm : r ∈ rows
      · rw [if_pos hm, if_pos (List.mem_cons_of_mem row hm)]
      · rw [if_neg hm, if_neg fun h => (List.mem_cons.mp h).elim hr hm]

/-- Every row is canonical afterwards. -/
theorem row?_reorder (g : Graph) (r : Row) : g.reorder.row? r = (g.row? r).map Sides.reorder := by
  rw [reorder, row?_foldl_canonicalizeSide]
  split
  · rfl
  · rename_i hr
    rw [SortedMap.mem_keys, Option.not_isSome_iff_eq_none] at hr
    show g.row? r = _
    rw [row?, hr]
    rfl

theorem interface_reorder (g : Graph) (r : Row) (a : Side) :
    g.reorder.interface r a = (g.interface r a).reorder := by
  rw [interface_eq, interface_eq, row?_reorder]
  cases g.row? r with
  | none => cases a <;> rfl
  | some s => cases a <;> rfl

theorem exists?_reorder (g : Graph) (a : Side) (p : EndPoint) :
    g.reorder.exists? a p = g.exists? a p := by
  rw [exists?, exists?, count, count, interface_reorder, Interface.length_reorder]

/-! ## Connections -/

/-- Every connection is between end points that exist. -/
def Anchored (g : Graph) : Prop :=
  ∀ dst src, g.sourceOf? dst = some src →
    g.exists? .dst dst = true ∧ g.exists? .src src = true

/-- The end points of the row that connections name exist. -/
def AnchoredAt (g : Graph) (row : Row) : Prop :=
  ∀ dst src, g.sourceOf? dst = some src →
    (dst.row = row → g.exists? .dst dst = true) ∧ (src.row = row → g.exists? .src src = true)

theorem Anchored.anchoredAt (h : g.Anchored) (row : Row) : g.AnchoredAt row := fun dst src hs =>
  ⟨fun _ => (h dst src hs).1, fun _ => (h dst src hs).2⟩

/-- The name of an end point in the canonical order of its interface. -/
def place (g : Graph) (a : Side) (p : EndPoint) : EndPoint :=
  ⟨p.row, (g.interface p.row a).place p.index⟩

theorem place_of_canonical (h : (g.interface p.row a).isCanonical = true) : g.place a p = p :=
  EndPoint.ext rfl (Interface.place_of_canonical h p.index)

theorem place_surjective (g : Graph) (a : Side) : Function.Surjective (g.place a) := by
  rintro ⟨row, l⟩
  obtain ⟨k, hk⟩ := (g.interface row a).place_surjective l
  exact ⟨⟨row, k⟩, EndPoint.ext rfl hk⟩

namespace Moves

theorem refl (g : Graph) : Moves id id g g where
  kind_eq := rfl
  dst_row _ := rfl
  src_row _ := rfl
  dst_ept _ := rfl
  src_ept _ := rfl
  onto := Function.surjective_id
  source_eq p := by rw [Option.map_id]; rfl

theorem trans (h : Moves δ σ g g') (h' : Moves δ' σ' g' g'') : Moves (δ' ∘ δ) (σ' ∘ σ) g g'' where
  kind_eq := h'.kind_eq.trans h.kind_eq
  dst_row p := (h'.dst_row (δ p)).trans (h.dst_row p)
  src_row p := (h'.src_row (σ p)).trans (h.src_row p)
  dst_ept p := (h'.dst_ept (δ p)).trans (h.dst_ept p)
  src_ept p := (h'.src_ept (σ p)).trans (h.src_ept p)
  onto := h'.onto.comp h.onto
  source_eq p := by
    show g''.sourceOf? (δ' (δ p)) = _
    rw [h'.source_eq, h.source_eq, Option.map_map]

theorem anchored (h : Moves δ σ g g') (ha : g.Anchored) : g'.Anchored := by
  intro dst' src' hs
  obtain ⟨dst, rfl⟩ := h.onto dst'
  rw [h.source_eq] at hs
  obtain ⟨src, hsrc, rfl⟩ := Option.map_eq_some_iff.mp hs
  obtain ⟨hd, hs⟩ := ha dst src hsrc
  rw [exists?_iff, exists?_iff, h.dst_ept, h.src_ept, ← exists?_iff, ← exists?_iff]
  exact ⟨hd, hs⟩

end Moves

/-- The name of an end point when one side of one row is put into canonical order. -/
def placeAt (g : Graph) (row : Row) (a b : Side) (p : EndPoint) : EndPoint :=
  if p.row = row ∧ b = a then g.place b p else p

theorem placeAt_row : (g.placeAt row a b p).row = p.row := by
  unfold placeAt
  split <;> rfl

theorem placeAt_self (k : Nat) :
    g.placeAt row a a ⟨row, k⟩ = ⟨row, (g.interface row a).place k⟩ := if_pos ⟨rfl, rfl⟩

theorem placeAt_other (h : ¬ (p.row = row ∧ b = a)) : g.placeAt row a b p = p := if_neg h

theorem placeAt_of_canonical (h : (g.interface row a).isCanonical = true) :
    g.placeAt row a b p = p := by
  unfold placeAt
  split
  · rename_i hp
    obtain ⟨rfl, rfl⟩ := hp
    exact place_of_canonical h
  · rfl

theorem place_injective (g : Graph) (a : Side) : Function.Injective (g.place a) := by
  rintro ⟨row, k⟩ ⟨row', l⟩ h
  obtain rfl : row = row' := congrArg EndPoint.row h
  exact EndPoint.ext rfl ((g.interface row a).place_injective (congrArg EndPoint.index h))

theorem placeAt_injective : Function.Injective (g.placeAt row a b) := by
  intro p q h
  have hrow : p.row = q.row := by rw [← placeAt_row (p := p), h, placeAt_row]
  unfold placeAt at h
  rw [hrow] at h
  split at h
  · exact g.place_injective b h
  · exact h

theorem placeAt_surjective : Function.Surjective (g.placeAt row a b) := by
  intro p
  by_cases h : p.row = row ∧ b = a
  · obtain ⟨rfl, rfl⟩ := h
    obtain ⟨q, hq⟩ := g.place_surjective b p
    have hrow : (g.place b q).row = p.row := congrArg EndPoint.row hq
    exact ⟨q, by rw [placeAt, if_pos ⟨hrow, rfl⟩, hq]⟩
  · exact ⟨p, if_neg h⟩

theorem interface_reorderSide (g : Graph) (row r : Row) (a b : Side) :
    (g.reorderSide row a).2.interface r b =
      if r = row ∧ b = a then (g.interface r b).reorder else g.interface r b := by
  rw [interface_eq, interface_eq, row?_reorderSide]
  by_cases hr : r = row
  · rw [if_pos hr]
    cases g.row? r with
    | none =>
      show (Option.getD none Sides.empty).side b = _
      rw [Option.getD_none, Sides.side_empty, Interface.reorder_of_canonical rfl, ite_self]
    | some s =>
      show (s.setSide a (s.side a).reorder).side b = if r = row ∧ b = a then _ else s.side b
      rw [Sides.side_setSide]
      by_cases hb : b = a
      · rw [if_pos hb, if_pos ⟨hr, hb⟩, hb]; rfl
      · rw [if_neg hb, if_neg fun h => hb h.2]
  · rw [if_neg hr, if_neg fun h => hr h.1]

theorem reorderSide_of_row? {s : Sides} (h : g.row? row = some s) :
    (g.reorderSide row a).2 = (g.setSide row a (g.interface row a).reorder).moveWires row a
      fun k => (g.interface row a).places[k]? := by
  rw [reorderSide, interface?, h, Option.map_some, interface_of_row? h]

theorem ept?_reorderSide :
    (g.reorderSide row a).2.ept? b (g.placeAt row a b p) = g.ept? b p := by
  rw [ept?, ept?, placeAt_row, interface_reorderSide]
  by_cases h : p.row = row ∧ b = a
  · rw [if_pos h, placeAt, if_pos h]
    exact Interface.get?_reorder_place _ _
  · rw [if_neg h, placeAt_other h]

/-- An end point that exists goes to its place. -/
theorem movePoint_places (h : p.row = row → g.exists? a p = true) :
    movePoint row (fun k => (g.interface row a).places[k]?) p = some (g.placeAt row a a p) := by
  obtain ⟨r, k⟩ := p
  by_cases hr : r = row
  · subst hr
    rw [movePoint, if_pos rfl, Interface.getElem?_places_eq_some (of_decide_eq_true (h rfl))]
    exact congrArg some (placeAt_self k).symm
  · rw [movePoint_of_row_ne hr, placeAt_other fun h => hr h.1]

theorem places_injective {k l m : Nat} (hk : i.places[k]? = some m) (hl : i.places[l]? = some m) :
    k = l := by
  have lt : ∀ {k}, i.places[k]? = some m → k < i.length := fun h => by
    have := (List.getElem?_eq_some_iff.mp h).1
    rwa [Interface.places, List.length_map, List.length_range] at this
  rw [Interface.getElem?_places_eq_some (lt hk)] at hk
  rw [Interface.getElem?_places_eq_some (lt hl)] at hl
  exact i.place_injective ((Option.some.inj hk).trans (Option.some.inj hl).symm)

theorem sourceOf?_reorderSide_src {s : Sides} (ha : g.AnchoredAt row) (hrow : g.row? row = some s) :
    (g.reorderSide row .src).2.sourceOf? p = (g.sourceOf? p).map (g.placeAt row .src .src) := by
  rw [reorderSide_of_row? hrow, sourceOf?_moveWires_src]
  show (g.sourceOf? p).bind _ = _
  cases hp : g.sourceOf? p with
  | none => rfl
  | some src => exact movePoint_places (ha p src hp).2

theorem sourceOf?_reorderSide_dst {s : Sides} (ha : g.AnchoredAt row) (hrow : g.row? row = some s) :
    (g.reorderSide row .dst).2.sourceOf? (g.placeAt row .dst .dst p) = g.sourceOf? p := by
  rw [reorderSide_of_row? hrow]
  refine Option.ext fun src => ?_
  rw [sourceOf?_moveWires_dst_eq_some_iff fun _ _ _ => places_injective]
  constructor
  · rintro ⟨q, hq, hs⟩
    rw [movePoint_places (ha q src hs).1, Option.some.injEq] at hq
    rwa [← placeAt_injective hq]
  · exact fun hs => ⟨p, movePoint_places (ha p src hs).1, hs⟩

/-- Putting one side of one row into canonical order is a renaming. -/
theorem moves_reorderSide (ha : g.Anchored) (row : Row) (a : Side) :
    Moves (g.placeAt row a .dst) (g.placeAt row a .src) g (g.reorderSide row a).2 where
  kind_eq := by
    rw [reorderSide]
    cases g.interface? row a <;> rfl
  dst_row _ := placeAt_row
  src_row _ := placeAt_row
  dst_ept _ := ept?_reorderSide
  src_ept _ := ept?_reorderSide
  onto := placeAt_surjective
  source_eq p := by
    cases hrow : g.row? row with
    | none =>
      have hc : ∀ b, (g.interface row b).isCanonical = true := fun b => by
        rw [interface_eq, hrow]
        cases b <;> rfl
      have hid : g.placeAt row a .src = id := funext fun q => placeAt_of_canonical (hc a)
      rw [placeAt_of_canonical (hc a), hid, Option.map_id, reorderSide, interface?, hrow]
      rfl
    | some s =>
      cases a with
      | src =>
        rw [placeAt_other (b := .dst) fun h => Side.noConfusion h.2]
        exact sourceOf?_reorderSide_src (ha.anchoredAt row) hrow
      | dst =>
        have hid : g.placeAt row .dst .src = id := 
          funext fun q => placeAt_other fun h => Side.noConfusion h.2
        rw [hid, Option.map_id]
        exact sourceOf?_reorderSide_dst (ha.anchoredAt row) hrow

/-- `g'` is `g` with some sides put into canonical order: what is still to be done for `g'` and
what was done make up what is to be done for `g`. -/
def Settles (g g' : Graph) : Prop :=
  ∃ δ σ, Moves δ σ g g' ∧ (∀ p, g'.place .dst (δ p) = g.place .dst p) ∧
    ∀ p, g'.place .src (σ p) = g.place .src p

theorem Settles.refl (g : Graph) : g.Settles g := ⟨id, id, Moves.refl g, fun _ => rfl, fun _ => rfl⟩

theorem Settles.trans (h : g.Settles g') (h' : g'.Settles g'') : g.Settles g'' := by
  obtain ⟨δ, σ, hm, hd, hs⟩ := h
  obtain ⟨δ', σ', hm', hd', hs'⟩ := h'
  exact ⟨δ' ∘ δ, σ' ∘ σ, hm.trans hm', fun p => (hd' (δ p)).trans (hd p),
    fun p => (hs' (σ p)).trans (hs p)⟩

theorem Settles.anchored (h : g.Settles g') (ha : g.Anchored) : g'.Anchored := by
  obtain ⟨δ, σ, hm, -, -⟩ := h
  exact hm.anchored ha

theorem place_reorderSide :
    (g.reorderSide row a).2.place b (g.placeAt row a b p) = g.place b p := by
  refine EndPoint.ext placeAt_row ?_
  show ((g.reorderSide row a).2.interface (g.placeAt row a b p).row b).place _ = _
  rw [placeAt_row, interface_reorderSide]
  by_cases h : p.row = row ∧ b = a
  · rw [if_pos h, Interface.place_of_canonical (Interface.reorder_isCanonical _), placeAt, if_pos h]
  · rw [if_neg h, placeAt_other h]
    rfl

theorem settles_canonicalizeSide (ha : g.Anchored) (row : Row) (a : Side) :
    g.Settles (g.canonicalizeSide row a) := by
  unfold canonicalizeSide
  split
  · exact Settles.refl g
  · exact ⟨_, _, moves_reorderSide ha row a, fun _ => place_reorderSide,
      fun _ => place_reorderSide⟩

theorem settles_foldl (ha : g.Anchored) (rows : List Row) :
    g.Settles (rows.foldl
      (fun g row => (g.canonicalizeSide row .dst).canonicalizeSide row .src) g) := by
  induction rows generalizing g with
  | nil => exact Settles.refl g
  | cons row rows ih =>
    have hd := settles_canonicalizeSide ha row .dst
    have hs := settles_canonicalizeSide (hd.anchored ha) row .src
    have h := hd.trans hs
    exact h.trans (ih (h.anchored ha))

/-- Putting a graph into canonical order moves every end point to its place. -/
theorem moves_reorder (ha : g.Anchored) : Moves (g.place .dst) (g.place .src) g g.reorder := by
  obtain ⟨δ, σ, hm, hd, hs⟩ := settles_foldl ha g.rows.keys
  have hc : ∀ b p, g.reorder.place b p = p := fun b p => by
    refine place_of_canonical ?_
    rw [interface_reorder]
    exact Interface.reorder_isCanonical _
  obtain rfl : δ = g.place .dst := funext fun p => (hc .dst (δ p)).symm.trans (hd p)
  obtain rfl : σ = g.place .src := funext fun p => (hc .src (σ p)).symm.trans (hs p)
  exact hm

theorem reorder_of_canonical (h : ∀ row a, (g.interface row a).isCanonical = true) :
    g.reorder = g := by
  unfold reorder
  generalize g.rows.keys = rows
  induction rows with
  | nil => rfl
  | cons row rows ih =>
    have hd : g.canonicalizeSide row .dst = g := if_pos (h row .dst)
    have hs : g.canonicalizeSide row .src = g := if_pos (h row .src)
    rw [List.foldl_cons, hd, hs, ih]

/-- A graph whose sub-codes have canonical inputs is renamed. -/
theorem renames_reorder (ha : g.Anchored)
    (hsub : ∀ row, row.isSub = true → (g.interface row .dst).isCanonical = true) :
    Renames (g.place .dst) (g.place .src) g g.reorder where
  toMoves := moves_reorder ha
  fixed p hp := place_of_canonical (hsub p.row hp)

/-! ## Rules on rows -/

theorem hasRow_reorder (g : Graph) (row : Row) : g.reorder.hasRow row = g.hasRow row := by
  rw [hasRow, row?_reorder, Option.isSome_map]
  rfl

theorem kind_reorderSide (g : Graph) (row : Row) (a : Side) :
    (g.reorderSide row a).2.kind = g.kind := by
  rw [reorderSide]
  cases g.interface? row a <;> rfl

theorem kind_canonicalizeSide (g : Graph) (row : Row) (a : Side) :
    (g.canonicalizeSide row a).kind = g.kind := by
  rw [canonicalizeSide]
  split
  · rfl
  · exact g.kind_reorderSide row a

theorem kind_reorder (g : Graph) : g.reorder.kind = g.kind := by
  unfold reorder
  generalize g.rows.keys = rows
  induction rows generalizing g with
  | nil => rfl
  | cons row rows ih =>
    rw [List.foldl_cons, ih, kind_canonicalizeSide, kind_canonicalizeSide]

/-- Rows keep their rules. -/
theorem rowViolation?_reorder (h : g.rowViolation? row = none) :
    g.reorder.rowViolation? row = none := by
  have hr : g.reorder.hasRow = g.hasRow := funext g.hasRow_reorder
  rw [rowViolation?, kind_reorder, hr]
  rw [rowViolation?] at h
  generalize g.kind.presence row = rule at h ⊢
  cases rule with
  | symmetric partner needed =>
    simp only at h ⊢
    split at h
    · cases h
    · rename_i hsym
      obtain ⟨hrow, hi⟩ := not_or.mp hsym
      have hn : ¬ (g.hasRow row ≠ g.hasRow partner ∨
          g.reorder.interface row .dst ≠ g.reorder.interface partner .dst) := by
        rw [interface_reorder, interface_reorder, not_not.mp hi]
        rintro (hne | hne)
        · exact hrow hne
        · exact hne rfl
      exact (if_neg hn).trans h
  | _ => exact h

theorem rowsViolation?_reorder (h : g.rowsViolation? = none) : g.reorder.rowsViolation? = none := by
  rw [rowsViolation?_eq_none_iff] at h ⊢
  refine ⟨fun row a ha => ?_, fun row => rowViolation?_reorder (h.2 row)⟩
  rw [interface_reorder, Interface.isEmpty_reorder]
  exact h.1 row a ha

end Graph

/-! ## Frozen codes -/

/-- The code was made by freezing, and so were its sub-codes. There is no other way to make frozen
codes. -/
inductive Frozen.Made : Frozen → Prop
  | freeze (c : Code) (serial : Nat) (hsubs : ∀ f ∈ c.subs, Made f) : Made (c.freeze serial)

namespace Frozen

variable {f : Frozen}

theorem Made.subs_made (h : f.Made) : ∀ d ∈ f.subs, d.Made := by
  cases h with
  | freeze c serial hsubs => exact hsubs

/-- The interfaces of a frozen code are canonical. -/
theorem Made.isCanonical (h : f.Made) (row : Row) (a : Side) :
    (f.graph.interface row a).isCanonical = true := by
  cases h with
  | freeze c serial hsubs =>
    show (c.graph.reorder.interface row a).isCanonical = true
    rw [Graph.interface_reorder]
    exact Interface.reorder_isCanonical _

theorem Made.rowSides_reorder (h : f.Made) : f.rowSides.reorder = f.rowSides :=
  congrArg₂ Sides.mk (Interface.reorder_of_canonical (h.isCanonical .I .src))
    (Interface.reorder_of_canonical (h.isCanonical .O .dst))

end Frozen

namespace Code

variable {r : Registry} {c : Code} {f : Frozen} {row : Row}

theorem mem_subs : f ∈ c.subs ↔ ∃ row, c.sub? row = some f := by
  rw [subs, List.mem_append, Option.mem_toList, Option.mem_toList]
  constructor
  · rintro (h | h)
    · exact ⟨.A, h⟩
    · exact ⟨.B, h⟩
  · rintro ⟨row, h⟩
    cases row with
    | A => exact Or.inl h
    | B => exact Or.inr h
    | _ => cases h

/-- A row mirrors its sub-code, or belongs to a codon and has none. -/
def SubFits (c : Code) (row : Row) : Prop :=
  c.graph.row? row = (c.sub? row).map Frozen.rowSides ∨ (c.kind = .primitive ∧ c.sub? row = none)

theorem subViolation?_eq_none_iff : c.subViolation? row = none ↔ c.SubFits row := by
  rw [subViolation?, SubFits]
  cases c.graph.row? row with
  | none => cases c.sub? row <;> simp
  | some s =>
    cases c.sub? row with
    | none => simp
    | some f => simp

theorem subsViolation?_eq_none_iff :
    c.subsViolation? = none ↔ ∀ row, row.isSub = true → c.SubFits row := by
  rw [subsViolation?, List.findSome?_eq_none_iff]
  constructor
  · intro h row hrow
    exact subViolation?_eq_none_iff.mp (h row (by cases row <;> first | decide | cases hrow))
  · intro h row hrow
    exact subViolation?_eq_none_iff.mpr (h row (by revert hrow; cases row <;> decide))

/-- A row of a code that is no codon mirrors its sub-code. -/
theorem Sound.row?_eq (h : c.Sound r) (hk : c.kind ≠ .primitive) (hrow : row.isSub = true) :
    c.graph.row? row = (c.sub? row).map Frozen.rowSides :=
  (subsViolation?_eq_none_iff.mp h.subs row hrow).resolve_right fun hp => hk hp.1

/-- Sub-codes that are frozen fit after canonical ordering as they did before. -/
theorem subsViolation?_canonical (h : c.subsViolation? = none) (hs : ∀ f ∈ c.subs, f.Made) :
    c.canonical.subsViolation? = none := by
  rw [subsViolation?_eq_none_iff] at h ⊢
  intro row hrow
  rcases h row hrow with hfit | ⟨hk, hn⟩
  · refine Or.inl ?_
    show c.graph.reorder.row? row = (c.sub? row).map _
    rw [Graph.row?_reorder, hfit, Option.map_map]
    refine Option.map_congr fun f hf => ?_
    exact (hs f (mem_subs.mpr ⟨row, hf⟩)).rowSides_reorder
  · exact Or.inr ⟨(Graph.kind_reorder _).trans hk, hn⟩

theorem Sound.anchored (h : c.Sound r) : c.graph.Anchored := by
  intro dst src hs
  obtain ⟨d, e, hd, he, -⟩ := h.joins dst src hs
  exact ⟨Graph.exists?_iff.mpr (by rw [hd]; rfl), Graph.exists?_of_delivered he⟩

/-- The rows for sub-codes are canonical, codons apart. -/
theorem Sound.canonical_row (h : c.Sound r) (hk : c.kind ≠ .primitive)
    (hs : ∀ f ∈ c.subs, f.Made) (hrow : row.isSub = true) :
    (c.graph.interface row .dst).isCanonical = true := by
  rw [Graph.interface_eq, h.row?_eq hk hrow]
  cases hf : c.sub? row with
  | none => rfl
  | some f =>
    have hc := congrArg Sides.dst (hs f (mem_subs.mpr ⟨row, hf⟩)).rowSides_reorder
    show f.rowSides.dst.isCanonical = true
    rw [← hc]
    exact Interface.reorder_isCanonical _

/-- Canonical ordering of a sound code with frozen sub-codes is a renaming. -/
theorem Sound.renames (h : c.Sound r) (hk : c.kind ≠ .primitive) (hs : ∀ f ∈ c.subs, f.Made) :
    Graph.Renames (c.graph.place .dst) (c.graph.place .src) c.graph c.graph.reorder :=
  Graph.renames_reorder h.anchored fun _ hrow => h.canonical_row hk hs hrow

theorem Sound.canonical (h : c.Sound r) (hk : c.kind ≠ .primitive) (hs : ∀ f ∈ c.subs, f.Made) :
    c.canonical.Sound r where
  rows := Graph.rowsViolation?_reorder h.rows
  subs := subsViolation?_canonical h.subs hs
  joins := (h.renames hk hs).joins_all h.joins
  agree := (h.renames hk hs).agree h.agree

/-- A valid code that is no codon and has frozen sub-codes is valid when it is frozen. -/
theorem freeze_valid (h : c.violation? r = none) (hk : c.kind ≠ .primitive)
    (hs : ∀ f ∈ c.subs, f.Made) (serial : Nat) : (c.freeze serial).code.violation? r = none := by
  show c.canonical.violation? r = none
  rw [violation?_eq_none_iff] at h ⊢
  refine ⟨h.1.canonical hk hs, h.2.imp (fun hx => ?_) fun hc => (h.1.renames hk hs).complete hc⟩
  rw [← hx]
  exact congrArg GraphKind.isWiringExempt (Graph.kind_reorder c.graph)

end Code

/-! ## Samples -/

theorem codon_made (inputs outputs : Interface) : (Frozen.codon inputs outputs).Made :=
  .freeze _ _ nofun

theorem pair_subs_made (inputs outputs : Interface) {a b : Frozen} (ha : a.Made) (hb : b.Made) :
    ∀ d ∈ (Code.pair inputs outputs a b).subs, d.Made := by
  intro d hd
  rcases List.mem_cons.mp hd with rfl | hd
  · exact ha
  · rwa [List.mem_singleton.mp hd]

end GeneGraph
