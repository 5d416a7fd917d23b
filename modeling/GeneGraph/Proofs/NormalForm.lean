import GeneGraph.Proofs.Preimage
import Mathlib.Logic.Equiv.Basic

/-!
# Canonical order is a normal form

Graphs that differ only in the indices of their end points have the same canonical form, as long
as end points of equal type are in the same order (`Graph.Relabels`). The converse holds as well:
graphs without dangling connections have the same canonical form only if they differ in nothing
else (`Graph.relabels_iff`). So canonical ordering picks one graph of each such class, and a
second ordering changes nothing (`Graph.reorder_reorder`).
-/

namespace GeneGraph

/-! ## Interfaces -/

namespace Interface

variable {i i' : Interface} {ρ : Equiv.Perm Nat} {k l : Nat}

/-- End point `k` goes before end point `l` in canonical order. -/
def Precedes (i : Interface) (k l : Nat) : Prop :=
  ∃ d e, i.get? k = some d ∧ i.get? l = some e ∧ (Before d e ∨ d = e ∧ k < l)

theorem Precedes.asymm (h : i.Precedes k l) : ¬ i.Precedes l k := by
  obtain ⟨d, e, hk, hl, h⟩ := h
  rintro ⟨e', d', hl', hk', h'⟩
  obtain rfl : e = e' := Option.some.inj (hl.symm.trans hl')
  obtain rfl : d = d' := Option.some.inj (hk.symm.trans hk')
  rcases h with h | ⟨rfl, h⟩
  · rcases h' with h' | ⟨rfl, -⟩
    · exact h.asymm h'
    · exact Before.irrefl _ h
  · rcases h' with h' | ⟨-, h'⟩
    · exact Before.irrefl _ h'
    · omega

theorem get?_of_mem_sorted {x : Ept × Nat} (hx : x ∈ i.sorted) : i.get? x.2 = some x.1 := by
  rw [sorted, (stableSort_perm _ _).mem_iff, List.mem_zipIdx_iff_getElem?] at hx
  exact hx

theorem order_precedes (i : Interface) : i.order.Pairwise i.Precedes := by
  have hindices : i.epts.zipIdx.Pairwise fun x y => x.2 < y.2 := by
    rw [← List.pairwise_map (f := Prod.snd) (R := (· < ·)), List.zipIdx_map_snd,
      ← List.range_eq_range']
    exact List.pairwise_lt_range
  rw [order, List.pairwise_map]
  exact (stableSort_stable Prod.fst hindices).imp_of_mem fun hx hy hxy =>
    ⟨_, _, get?_of_mem_sorted hx, get?_of_mem_sorted hy, hxy⟩

theorem getElem?_order_place (h : k < i.length) : i.order[i.place k]? = some k := by
  have hk : i.place k < i.order.length := by rwa [length_order, place_lt_iff]
  rw [List.getElem?_eq_getElem hk, i.place_injective (place_getElem_order hk)]

theorem Precedes.place_lt (h : i.Precedes k l) : i.place k < i.place l := by
  obtain ⟨d, e, hk, hl, -⟩ := id h
  have hk : k < i.length := by rw [← get?_isSome_iff, hk]; rfl
  have hl : l < i.length := by rw [← get?_isSome_iff, hl]; rfl
  obtain ⟨hkn, hk⟩ := List.getElem?_eq_some_iff.mp (getElem?_order_place hk)
  obtain ⟨hln, hl⟩ := List.getElem?_eq_some_iff.mp (getElem?_order_place hl)
  rcases Nat.lt_trichotomy (i.place k) (i.place l) with hlt | heq | hgt
  · exact hlt
  · rw [i.place_injective heq] at h
    exact absurd h h.asymm
  · have hlk := List.pairwise_iff_getElem.mp i.order_precedes _ _ hln hkn hgt
    rw [hk, hl] at hlk
    exact absurd hlk h.asymm

/-- `i'` has the end points of `i` at other indices, those of equal type in the same order. -/
structure Permutes (ρ : Equiv.Perm Nat) (i i' : Interface) : Prop where
  /-- Only indices of end points change. -/
  fixed : ∀ k, i.length ≤ k → ρ k = k
  get?_eq : ∀ k, i'.get? (ρ k) = i.get? k
  ordered : ∀ k l e, k < l → i.get? k = some e → i.get? l = some e → ρ k < ρ l

namespace Permutes

theorem precedes (h : Permutes ρ i i') (hkl : i.Precedes k l) : i'.Precedes (ρ k) (ρ l) := by
  obtain ⟨d, e, hk, hl, hkl⟩ := hkl
  refine ⟨d, e, (h.get?_eq k).trans hk, (h.get?_eq l).trans hl, hkl.imp_right ?_⟩
  rintro ⟨rfl, hlt⟩
  exact ⟨rfl, h.ordered k l d hlt hk hl⟩

theorem lt_length_iff (h : Permutes ρ i i') : ρ k < i'.length ↔ k < i.length := by
  rw [← get?_isSome_iff, h.get?_eq, get?_isSome_iff]

/-- The end points come in the same canonical order. -/
theorem order_eq (h : Permutes ρ i i') : i'.order = i.order.map ρ := by
  have hperm : i'.order.Perm (i.order.map ρ) := by
    rw [List.perm_ext_iff_of_nodup i'.nodup_order (i.nodup_order.map ρ.injective)]
    intro m
    rw [mem_order, List.mem_map]
    constructor
    · intro hm
      rw [← ρ.apply_symm_apply m, h.lt_length_iff] at hm
      exact ⟨ρ.symm m, mem_order.mpr hm, ρ.apply_symm_apply m⟩
    · rintro ⟨k, hk, rfl⟩
      exact h.lt_length_iff.mpr (mem_order.mp hk)
  refine hperm.eq_of_pairwise (fun k l _ _ hkl hlk => absurd hlk hkl.asymm) i'.order_precedes ?_
  exact List.pairwise_map.mpr (i.order_precedes.imp h.precedes)

theorem length_eq (h : Permutes ρ i i') : i'.length = i.length := by
  rw [← length_order, h.order_eq, List.length_map, length_order]

/-- An end point goes to the same place from each of its indices. -/
theorem place_eq (h : Permutes ρ i i') (k : Nat) : i'.place (ρ k) = i.place k := by
  by_cases hk : k < i.length
  · have hplace : i'.order[i.place k]? = some (ρ k) := by
      rw [h.order_eq, List.getElem?_map, getElem?_order_place hk, Option.map_some]
    obtain ⟨hlt, hρ⟩ := List.getElem?_eq_some_iff.mp hplace
    rw [← hρ, place_getElem_order hlt]
  · have hle := Nat.le_of_not_lt hk
    rw [h.fixed k hle, place_of_le hle, place_of_le (h.length_eq ▸ hle)]

theorem reorder_eq (h : Permutes ρ i i') : i'.reorder = i.reorder := by
  refine ext (List.ext_getElem? fun m => ?_)
  obtain ⟨k, rfl⟩ := i.place_surjective m
  show i'.reorder.get? _ = i.reorder.get? _
  rw [get?_reorder_place, ← h.place_eq, get?_reorder_place, h.get?_eq]

end Permutes

/-- The permutation that puts end points at their places. -/
noncomputable def placing (i : Interface) : Equiv.Perm Nat :=
  Equiv.ofBijective i.place ⟨i.place_injective, i.place_surjective⟩

/-- Interfaces with the same canonical form have the same end points at other indices. -/
theorem permutes_of_reorder_eq (h : i'.reorder = i.reorder) :
    Permutes (i.placing.trans i'.placing.symm) i i' := by
  have hlength : i'.length = i.length := by rw [← length_reorder, h, length_reorder]
  have hplace : ∀ k, i'.place (i'.placing.symm (i.placing k)) = i.place k := fun k =>
    i'.placing.apply_symm_apply (i.placing k)
  have hget : ∀ k, i'.get? (i'.placing.symm (i.placing k)) = i.get? k := by
    intro k
    rw [← get?_reorder_place, hplace, h, get?_reorder_place]
  refine ⟨fun k hk => ?_, hget, fun k l e hkl hk hl => ?_⟩
  · refine i'.place_injective ((hplace k).trans ?_)
    rw [place_of_le hk, place_of_le (hlength ▸ hk)]
  · -- in the other order, their places would be in the other order as well
    have hlt : i.place k < i.place l := Precedes.place_lt ⟨e, e, hk, hl, Or.inr ⟨rfl, hkl⟩⟩
    rw [← hplace, ← hplace] at hlt
    by_contra hge
    rcases Nat.lt_or_eq_of_le (Nat.le_of_not_lt hge) with hgt | heq
    · exact Nat.lt_asymm hlt (Precedes.place_lt
        ⟨e, e, (hget l).trans hl, (hget k).trans hk, Or.inr ⟨rfl, hgt⟩⟩)
    · exact Nat.lt_irrefl _ (heq ▸ hlt)

end Interface

/-! ## Graphs -/

namespace Graph

variable {g g' : Graph} {ρ : Row → Side → Equiv.Perm Nat} {p : EndPoint} {a : Side} {row : Row}

/-- The end point at its other index. -/
def relabel (ρ : Row → Side → Equiv.Perm Nat) (a : Side) (p : EndPoint) : EndPoint :=
  ⟨p.row, ρ p.row a p.index⟩

/-- `g'` is `g` with other indices for the end points of each side of each row. End points of
equal type are in the same order, and connections join the same end points. -/
structure Relabels (ρ : Row → Side → Equiv.Perm Nat) (g g' : Graph) : Prop where
  kind_eq : g'.kind = g.kind
  row_eq : ∀ row, g'.hasRow row = g.hasRow row
  permutes : ∀ row a, (g.interface row a).Permutes (ρ row a) (g'.interface row a)
  source_eq : ∀ p, g'.sourceOf? (relabel ρ .dst p) = (g.sourceOf? p).map (relabel ρ .src)

theorem ext_of_sourceOf? (hk : g.kind = g'.kind) (hr : ∀ row, g.row? row = g'.row? row)
    (hs : ∀ p, g.sourceOf? p = g'.sourceOf? p) : g = g' :=
  ext_iff.mpr ⟨hk, SortedMap.ext hr, SortedMap.ext hs⟩

/-- Canonical ordering leaves every interface canonical. -/
theorem reorder_isCanonical (g : Graph) (row : Row) (a : Side) :
    (g.reorder.interface row a).isCanonical = true := by
  rw [interface_reorder]
  exact Interface.reorder_isCanonical _

theorem reorder_reorder (g : Graph) : g.reorder.reorder = g.reorder :=
  reorder_of_canonical g.reorder_isCanonical

namespace Relabels

theorem moves (h : Relabels ρ g g') : Moves (relabel ρ .dst) (relabel ρ .src) g g' where
  kind_eq := h.kind_eq
  dst_row _ := rfl
  src_row _ := rfl
  dst_ept p := (h.permutes p.row .dst).get?_eq p.index
  src_ept p := (h.permutes p.row .src).get?_eq p.index
  onto p := ⟨⟨p.row, (ρ p.row .dst).symm p.index⟩,
    EndPoint.ext rfl ((ρ p.row .dst).apply_symm_apply p.index)⟩
  source_eq := h.source_eq

theorem place_eq (h : Relabels ρ g g') (a : Side) (p : EndPoint) :
    g'.place a (relabel ρ a p) = g.place a p :=
  EndPoint.ext rfl ((h.permutes p.row a).place_eq p.index)

theorem row?_reorder_eq (h : Relabels ρ g g') (row : Row) :
    g'.reorder.row? row = g.reorder.row? row := by
  have hrow := h.row_eq row
  have hside : ∀ a, (g'.interface row a).reorder = (g.interface row a).reorder := fun a =>
    (h.permutes row a).reorder_eq
  simp only [interface_eq] at hside
  rw [row?_reorder, row?_reorder]
  unfold hasRow at hrow
  cases hs : g.row? row with
  | none =>
    rw [hs, Option.isSome_none, Option.isSome_eq_false_iff, Option.isNone_iff_eq_none] at hrow
    rw [hrow]
  | some s =>
    rw [hs, Option.isSome_some, Option.isSome_iff_exists] at hrow
    obtain ⟨s', hs'⟩ := hrow
    rw [hs, hs'] at hside
    rw [hs', Option.map_some, Option.map_some]
    exact congrArg some (congrArg₂ Sides.mk (hside .dst) (hside .src))

/-- Other indices make no difference for the canonical form. -/
theorem reorder_eq (h : Relabels ρ g g') (ha : g.Anchored) : g'.reorder = g.reorder := by
  apply ext_of_sourceOf?
  · rw [kind_reorder, kind_reorder, h.kind_eq]
  · exact h.row?_reorder_eq
  · intro p'
    obtain ⟨p, rfl⟩ := g.place_surjective .dst p'
    rw [(moves_reorder ha).source_eq, ← h.place_eq .dst,
      (moves_reorder (h.moves.anchored ha)).source_eq, h.source_eq, Option.map_map]
    exact Option.map_congr fun src _ => h.place_eq .src src

end Relabels

/-- Graphs without dangling connections have the same canonical form exactly if they differ in
the indices of end points only. -/
theorem relabels_iff (ha : g.Anchored) :
    (∃ ρ, Relabels ρ g g') ↔ g'.Anchored ∧ g'.reorder = g.reorder := by
  constructor
  · rintro ⟨ρ, h⟩
    exact ⟨h.moves.anchored ha, h.reorder_eq ha⟩
  · rintro ⟨ha', h⟩
    have hside : ∀ row a, (g'.interface row a).reorder = (g.interface row a).reorder := by
      intro row a
      rw [← interface_reorder, h, interface_reorder]
    refine ⟨fun row a => (g.interface row a).placing.trans (g'.interface row a).placing.symm,
      ?_, fun row => ?_, fun row a => Interface.permutes_of_reorder_eq (hside row a), fun p => ?_⟩
    · rw [← kind_reorder, h, kind_reorder]
    · rw [← hasRow_reorder, h, hasRow_reorder]
    · generalize hρ : (fun row a => (g.interface row a).placing.trans
        (g'.interface row a).placing.symm) = ρ
      have hplace : ∀ a p, g'.place a (relabel ρ a p) = g.place a p := by
        intro a p
        subst hρ
        exact EndPoint.ext rfl ((g'.interface p.row a).placing.apply_symm_apply _)
      apply Option.map_injective (g'.place_injective .src)
      rw [← (moves_reorder ha').source_eq, hplace, h, (moves_reorder ha).source_eq,
        Option.map_map]
      exact Option.map_congr fun src _ => (hplace .src src).symm

end Graph

/-! ## Frozen codes -/

namespace Code

variable {c c' : Code}

/-- The digest depends on the canonical graph and on the digests of the sub-codes. -/
theorem digest_freeze_eq (hg : c.graph.reorder = c'.graph.reorder)
    (hs : ∀ row, (c.sub? row).map Frozen.digest = (c'.sub? row).map Frozen.digest)
    (n m : Nat) : (c.freeze n).digest = (c'.freeze m).digest := by
  have hA : subBytes c.subA = subBytes c'.subA := subBytes_eq (hs .A)
  have hB : subBytes c.subB = subBytes c'.subB := subBytes_eq (hs .B)
  show Blake3.hash c.canonical.preimage = Blake3.hash c'.canonical.preimage
  unfold preimage canonical kind
  rw [hg, hA, hB]

end Code

/-- A frozen code that is thawed and frozen again differs in its serial number only. -/
theorem Frozen.Made.freeze_code {f : Frozen} (h : f.Made) (n : Nat) :
    f.code.freeze n = { f with serial := n } := by
  cases h with
  | freeze c serial hsubs =>
    have hg : (c.freeze serial).code.canonical = c.canonical := by
      show ({ c.canonical with graph := c.graph.reorder.reorder } : Code) = c.canonical
      rw [Graph.reorder_reorder]
      rfl
    unfold Code.freeze at hg ⊢
    rw [hg]

/-- Graphs that differ in the indices of their end points, but not in the order of those of equal
type, and only such graphs have the same canonical form, which is canonical and its own canonical
form. So such codes with equal sub-codes are frozen to equal digests, and freezing a frozen code
again gives the same but for the serial number. -/
theorem reorder_normal_form :
    (∀ g g' : Graph, g.Anchored →
      ((∃ ρ, Graph.Relabels ρ g g') ↔ g'.Anchored ∧ g'.reorder = g.reorder)) ∧
    (∀ g : Graph, g.reorder.reorder = g.reorder ∧
      ∀ row a, (g.reorder.interface row a).isCanonical = true) ∧
    (∀ (c c' : Code) (ρ : Row → Side → Equiv.Perm Nat), c.graph.Anchored →
      Graph.Relabels ρ c.graph c'.graph →
      (∀ row, (c.sub? row).map Frozen.digest = (c'.sub? row).map Frozen.digest) →
        ∀ n m, (c.freeze n).digest = (c'.freeze m).digest) ∧
    ∀ f : Frozen, f.Made → ∀ n, f.code.freeze n = { f with serial := n } := by
  refine ⟨fun g g' ha => Graph.relabels_iff ha,
    fun g => ⟨g.reorder_reorder, g.reorder_isCanonical⟩, fun c c' ρ ha hρ hs n m => ?_,
    fun f hf n => hf.freeze_code n⟩
  exact Code.digest_freeze_eq (hρ.reorder_eq ha).symm hs n m

/-- A text and two integers, the first of which is handed on. -/
def Code.scattered : Code :=
  (codon ⟨[.plain 0 5, .plain 0 3, .plain 0 3], Nat.le_of_ble_eq_true rfl⟩ (.single 3)).wired
    [(⟨.I, 1⟩, ⟨.O, 0⟩)]

/-- The text stands between the integers. -/
def Code.interleaved : Code :=
  (codon ⟨[.plain 0 3, .plain 0 5, .plain 0 3], Nat.le_of_ble_eq_true rfl⟩ (.single 3)).wired
    [(⟨.I, 0⟩, ⟨.O, 0⟩)]

theorem Graph.anchored_of_toList {g : Graph}
    (h : ∀ e ∈ g.wires.toList, g.exists? .dst e.1 = true ∧ g.exists? .src e.2 = true) :
    g.Anchored :=
  fun _ _ hs => h _ (mem_wires.mpr hs)

theorem reorder_normal_form_scattered :
    Code.scattered.graph ≠ Code.interleaved.graph ∧
      (∃ ρ, Graph.Relabels ρ Code.scattered.graph Code.interleaved.graph) ∧
      (Code.scattered.freeze 0).digest = (Code.interleaved.freeze 1).digest ∧
      (Code.scattered.freeze 0).code.freeze 7 = { Code.scattered.freeze 0 with serial := 7 } := by
  have ha : Code.scattered.graph.Anchored := Graph.anchored_of_toList (by decide +kernel)
  have ha' : Code.interleaved.graph.Anchored := Graph.anchored_of_toList (by decide +kernel)
  have hform : Code.interleaved.graph.reorder = Code.scattered.graph.reorder := by decide +kernel
  obtain ⟨hiff, -, hdigest, hmade⟩ := reorder_normal_form
  obtain ⟨ρ, hρ⟩ := (hiff _ _ ha).mpr ⟨ha', hform⟩
  have hsubs : ∀ f ∈ Code.scattered.subs, f.Made := by
    intro f hf
    cases hf
  exact ⟨by decide +kernel, ⟨ρ, hρ⟩, hdigest _ _ ρ ha hρ (fun _ => rfl) 0 1,
    hmade _ (.freeze _ _ hsubs) 7⟩

end GeneGraph
