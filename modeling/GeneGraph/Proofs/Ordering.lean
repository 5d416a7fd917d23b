import GeneGraph.Proofs.Freezing

/-!
# What freezing changes

Freezing gives end points other names (`Graph.moves_reorder`), but a wildcard names an input of
its sub-code by position, and that name stays. In a row of a sub-code this does no harm, as
frozen codes have their inputs in order. But row A of a codon need not have a sub-code, and its
inputs can be in any order: after freezing, its wildcards stand for other inputs than before.

`Graph.settled` is what a source delivers then, `Orderly` says that the code can do with that, and
a valid code is valid when it is frozen exactly in that case (`Code.freeze_valid_iff`).
-/

namespace GeneGraph

namespace Graph

variable {r : Registry} {g g' : Graph} {row : Row} {p dst src : EndPoint}
  {δ σ : EndPoint → EndPoint} {deliver deliver' : EndPoint → Option Ept}

/-! ## What sources deliver after freezing -/

/-- The types that the inputs of a sub-code get, in the canonical order of the inputs. -/
def orderedTypes (g : Graph) (deliver : EndPoint → Option Ept) (row : Row) : List Ept :=
  (g.interface row .dst).sorted.map fun x =>
    ((g.sourceOf? ⟨row, x.2⟩).bind deliver).getD x.1

/-- What a source delivers, with wildcards followed back through so many sub-codes, if they count
the inputs of a sub-code in canonical order. -/
def settledWithin (g : Graph) : Nat → EndPoint → Option Ept
  | 0, src => g.ept? .src src
  | n + 1, src => (g.ept? .src src).map fun e =>
      if e.hasWildcard && src.row.isSub then
        e.resolved (g.orderedTypes (g.settledWithin n) src.row)
      else e

/-- What a source delivers if wildcards count the inputs of a sub-code in canonical order. -/
def settled (g : Graph) (src : EndPoint) : Option Ept := g.settledWithin resolveDepth src

/-- The inputs of a row get the same types in canonical order, but in that order. -/
theorem inputTypes_reorder (ha : g.Anchored) (hd : ∀ p, deliver' (g.place .src p) = deliver p) :
    g.reorder.inputTypes deliver' row = g.orderedTypes deliver row := by
  unfold inputTypes orderedTypes
  rw [interface_reorder]
  show ((g.interface row .dst).sorted.map Prod.fst).zipIdx.map _ = _
  apply List.ext_getElem
  · simp
  · intro k hk hk'
    have hlt : k < (g.interface row .dst).sorted.length := by simpa using hk'
    have horder : k < (g.interface row .dst).order.length := by
      rwa [Interface.order, List.length_map]
    have hplace := Interface.place_getElem_order horder
    simp only [Interface.order, List.getElem_map] at hplace
    have hsource := (moves_reorder ha).source_eq ⟨row, (g.interface row .dst).sorted[k].2⟩
    simp only [place, hplace] at hsource
    simp only [List.getElem_map, List.getElem_zipIdx, Nat.zero_add]
    rw [hsource, Option.bind_map]
    congr 2
    exact funext hd

/-- After canonical ordering, sources deliver what they deliver with their wildcards settled. -/
theorem delivered_reorder (ha : g.Anchored) (p : EndPoint) :
    g.reorder.delivered (g.place .src p) = g.settled p := by
  have hwithin : ∀ n p, g.reorder.deliveredWithin n (g.place .src p) = g.settledWithin n p := by
    intro n
    induction n with
    | zero => exact (moves_reorder ha).src_ept
    | succ n ih =>
      intro p
      rw [deliveredWithin_succ, (moves_reorder ha).src_ept, inputTypes_reorder ha ih]
      rfl
  exact hwithin resolveDepth p

/-- The wildcards of a row stand for the same inputs in canonical order: the inputs are in order,
or there are no wildcards. -/
def Steady (g : Graph) (row : Row) : Prop :=
  (g.interface row .dst).isCanonical = true ∨
    ∀ k e, g.ept? .src ⟨row, k⟩ = some e → e.hasWildcard = false

theorem orderedTypes_of_canonical (h : (g.interface row .dst).isCanonical = true) :
    g.orderedTypes deliver row = g.inputTypes deliver row := by
  rw [orderedTypes, Interface.sorted_of_canonical h]
  rfl

theorem settled_of_steady (h : ∀ row, row.isSub = true → g.Steady row) :
    g.settled = g.delivered := by
  have hwithin : ∀ n, g.settledWithin n = g.deliveredWithin n := by
    intro n
    induction n with
    | zero => exact funext fun p => (g.deliveredWithin_zero p).symm
    | succ n ih =>
      funext p
      rw [deliveredWithin_succ, settledWithin, ih]
      refine Option.map_congr fun e he => ?_
      cases hs : p.row.isSub with
      | false => rw [Bool.and_false, if_neg Bool.false_ne_true, if_neg Bool.false_ne_true]
      | true =>
        rcases h p.row hs with hc | hw
        · rw [orderedTypes_of_canonical hc]
        · rw [hw p.index e he, Bool.false_and, if_neg Bool.false_ne_true,
            if_neg Bool.false_ne_true]
  exact hwithin resolveDepth

end Graph

/-! ## Frozen codes -/

/-- A graph can do with what its sources deliver in canonical order: the consumers take it, and
the fixed instances of every row are given one type each. -/
structure Orderly (r : Registry) (g : Graph) : Prop where
  consumers : ∀ dst src d e, g.sourceOf? dst = some src → g.ept? .dst dst = some d →
    g.settled src = some e → r.isCompatible e d = true
  instances : ∀ row i e e', g.Chooses g.settled row (i, e) → g.Chooses g.settled row (i, e') →
    e = e'

namespace Code

variable {r : Registry} {c : Code} {row : Row}

theorem Sound.orderly (h : c.Sound r) (hd : c.graph.settled = c.graph.delivered) :
    Orderly r c.graph := by
  constructor
  · intro dst src d e hs hdst he
    obtain ⟨d', e', hd', he', -, hc⟩ := h.joins dst src hs
    rw [hd, he', Option.some.injEq] at he
    rw [hd', Option.some.injEq] at hdst
    rw [← he, ← hdst]
    exact hc
  · intro row i e e' he he'
    rw [hd, ← Graph.mem_rowChoices_iff_chooses] at he he'
    exact h.agree row i e e' he he'

/-- Canonical ordering leaves a sound code sound exactly if it can do with what its sources then
deliver. -/
theorem Sound.canonical_iff (h : c.Sound r) (hs : ∀ f ∈ c.subs, f.Made) :
    c.canonical.Sound r ↔ Orderly r c.graph := by
  have hm := Graph.moves_reorder h.anchored
  have hd := Graph.delivered_reorder h.anchored
  constructor
  · intro hc
    constructor
    · intro dst src d e hsrc hdst he
      have hj := hc.joins (c.graph.place .dst dst) (c.graph.place .src src)
        (by show c.graph.reorder.sourceOf? _ = _; rw [hm.source_eq, hsrc, Option.map_some])
      obtain ⟨d', e', hd', he', -, hcompat⟩ := (hm.joins_iff hd).mp hj
      obtain rfl : d = d' := Option.some.inj (hdst.symm.trans hd')
      obtain rfl : e = e' := Option.some.inj (he.symm.trans he')
      exact hcompat
    · intro row i e e' he he'
      exact hc.agree row i e e' ((hm.mem_rowChoices_iff hd).mpr he)
        ((hm.mem_rowChoices_iff hd).mpr he')
  · intro ho
    refine ⟨Graph.rowsViolation?_reorder h.rows, subsViolation?_canonical h.subs hs, ?_, ?_⟩
    · intro dst' src' hsrc
      obtain ⟨dst, rfl⟩ := hm.onto dst'
      change c.graph.reorder.sourceOf? _ = _ at hsrc
      rw [hm.source_eq] at hsrc
      obtain ⟨src, hold, rfl⟩ := Option.map_eq_some_iff.mp hsrc
      obtain ⟨d, e, hdst, he, hl, -⟩ := h.joins dst src hold
      have hsome : (c.graph.settled src).isSome = true := by
        rw [← hd, Graph.isSome_delivered, hm.src_ept, ← Graph.isSome_delivered, he]
        rfl
      obtain ⟨e', he'⟩ := Option.isSome_iff_exists.mp hsome
      exact (hm.joins_iff hd).mpr ⟨d, e', hdst, he', hl, ho.consumers dst src d e' hold hdst he'⟩
    · intro row i e e' he he'
      exact ho.instances row i e e' ((hm.mem_rowChoices_iff hd).mp he)
        ((hm.mem_rowChoices_iff hd).mp he')

/-- A row with a frozen sub-code, or without any, has its inputs in order. -/
theorem Sound.steady (h : c.Sound r) (hs : ∀ f ∈ c.subs, f.Made)
    (hbody : c.kind = .primitive → c.sub? row = none → c.graph.Steady row)
    (hrow : row.isSub = true) : c.graph.Steady row := by
  rcases subsViolation?_eq_none_iff.mp h.subs row hrow with hfit | ⟨hk, hn⟩
  · left
    rw [Graph.interface_eq, hfit]
    cases hf : c.sub? row with
    | none => rfl
    | some f => exact (hs f (mem_subs.mpr ⟨row, hf⟩)).isCanonical .I .src
  · exact hbody hk hn

/-- Freezing renames the end points of a valid code, its sources then deliver what they do with
their wildcards settled, and it stays valid exactly if it can do with that. Nothing changes if the
rows of codons that have no sub-code are steady. -/
theorem freeze_valid_iff (h : c.violation? r = none) (hs : ∀ f ∈ c.subs, f.Made) (serial : Nat) :
    Graph.Moves (c.graph.place .dst) (c.graph.place .src) c.graph (c.freeze serial).graph ∧
    (∀ p, (c.freeze serial).graph.delivered (c.graph.place .src p) = c.graph.settled p) ∧
    ((c.freeze serial).code.violation? r = none ↔ Orderly r c.graph) ∧
    ((c.kind = .primitive → ∀ row, row.isSub = true → c.sub? row = none → c.graph.Steady row) →
      c.graph.settled = c.graph.delivered ∧ (c.freeze serial).code.violation? r = none) := by
  obtain ⟨hsound, hcomplete⟩ := violation?_eq_none_iff.mp h
  have hm := Graph.moves_reorder hsound.anchored
  have hiff : (c.freeze serial).code.violation? r = none ↔ Orderly r c.graph := by
    show c.canonical.violation? r = none ↔ _
    rw [violation?_eq_none_iff, hsound.canonical_iff hs]
    refine and_iff_left (hcomplete.imp (fun hx => ?_) fun hc => hm.complete hc)
    rw [← hx]
    exact congrArg GraphKind.isWiringExempt (Graph.kind_reorder c.graph)
  refine ⟨hm, Graph.delivered_reorder hsound.anchored, hiff, fun hbody => ?_⟩
  have hd : c.graph.settled = c.graph.delivered := Graph.settled_of_steady fun row hrow =>
    hsound.steady hs (fun hk hn => hbody hk row hrow hn) hrow
  exact ⟨hd, hiff.mpr (hsound.orderly hd)⟩

/-- The type of the first input. -/
def firstInput : Ept := .node ⟨0, .wildcard ⟨0, 0⟩⟩ Fin.elim0

/-- A codon with a body that hands on its first input. -/
def bodied (inputs body : Interface) (output : Fin 65536) : Code :=
  ofGraph ((codon inputs (.single output)).graph.setRow .A
    ⟨body, ⟨[firstInput], Nat.le_of_ble_eq_true rfl⟩⟩)

/-- One end point, of the type of the first input. -/
def firstInputOnly : Interface := ⟨[firstInput], Nat.le_of_ble_eq_true rfl⟩

/-- The body has its inputs in order: an integer and a text. -/
def straight : Code :=
  (bodied ⟨[.plain 0 3, .plain 0 5], Nat.le_of_ble_eq_true rfl⟩
    ⟨[.plain 0 3, .plain 0 5], Nat.le_of_ble_eq_true rfl⟩ 3).wired
      [(⟨.I, 0⟩, ⟨.A, 0⟩), (⟨.I, 1⟩, ⟨.A, 1⟩), (⟨.A, 0⟩, ⟨.O, 0⟩)]

theorem freeze_valid_iff_straight :
    straight.violation? sampleRegistry = none ∧ Orderly sampleRegistry straight.graph ∧
      (straight.freeze 0).code.violation? sampleRegistry = none := by
  have hv : straight.violation? sampleRegistry = none := by decide +kernel
  have hf : (straight.freeze 0).code.violation? sampleRegistry = none := by decide +kernel
  have hs : ∀ f ∈ straight.subs, f.Made := by
    intro f hmem
    cases hmem
  exact ⟨hv, (freeze_valid_iff hv hs 0).2.2.1.mp hf, hf⟩

/-- The body has its inputs out of order: a text and an integer. -/
def reversed : Code :=
  (bodied ⟨[.plain 0 3, .plain 0 5], Nat.le_of_ble_eq_true rfl⟩
    ⟨[.plain 0 5, .plain 0 3], Nat.le_of_ble_eq_true rfl⟩ 5).wired
      [(⟨.I, 1⟩, ⟨.A, 0⟩), (⟨.I, 0⟩, ⟨.A, 1⟩), (⟨.A, 0⟩, ⟨.O, 0⟩)]

/-- When its inputs are put in order, the body hands on the integer instead of the text. -/
theorem freeze_reversed :
    reversed.violation? sampleRegistry = none ∧ reversed.subs = [] ∧
      reversed.graph.delivered ⟨.A, 0⟩ = some (.plain 0 5) ∧
      (reversed.freeze 0).graph.delivered (reversed.graph.place .src ⟨.A, 0⟩) =
        some (.plain 0 3) ∧
      (reversed.freeze 0).code.violation? sampleRegistry =
        some (.incompatible ⟨.O, 0⟩ ⟨.A, 0⟩) := by
  refine ⟨?_, rfl, ?_, ?_, ?_⟩ <;> decide +kernel

end Code

end GeneGraph
