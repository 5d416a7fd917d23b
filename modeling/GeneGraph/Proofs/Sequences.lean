import GeneGraph.Proofs.Legality
import GeneGraph.Proofs.PlainTypes
import GeneGraph.Proofs.Splicing

/-!
# Codes in sequence

`Code.sequence` runs one code after another. The first takes the inputs and the second gives the
outputs, each under its own types, and nothing feeds the second. Its outputs may deliver other
types than they declare, since wildcards stand for what the inputs are fed. What they stand for
feeds the declared type (`Registry.isCompatible_of_resolve`), whatever the wildcards are and
wherever they stand, so a sequence can only have conflicts of fixed instances and destinations
without source (`Code.stack_sound`).
-/

namespace GeneGraph

/-! ## Types and what they are resolved to -/

namespace Registry

variable {r : Registry} {d t : Ept} {inputs : List Ept}

/-- A type is fed by whatever it becomes when its wildcards get types. -/
theorem isCompatible_of_resolve (ht : d.resolve inputs = .ok t) : r.isCompatible t d = true := by
  induction d generalizing t with
  | node u args ih =>
    rw [Ept.resolve] at ht
    cases hu : u.origin? with
    | some o =>
      rw [isCompatible, TypeUid.isWildcard, hu]
      rfl
    | none =>
      simp only [hu] at ht
      obtain ⟨ts, hts, ht⟩ := bind_eq_ok.mp ht
      cases ht
      exact (isCompatible_node_iff hu).mpr
        ⟨r.coversIn_self r.defs u, Or.inr ⟨rfl, fun i => ih i (Ept.traverse_eq_ok hts i)⟩⟩

theorem isCompatible_resolved (r : Registry) (inputs : List Ept) (e : Ept) :
    r.isCompatible (e.resolved inputs) e = true := by
  rw [Ept.resolved]
  cases ht : e.resolve inputs with
  | error err => exact r.isCompatible_self e
  | ok t => exact isCompatible_of_resolve ht

end Registry

namespace Graph

variable {g : Graph} {row : Row} {src : EndPoint} {e : Ept} {i : Interface}

/-- What a source delivers feeds the type that it declares. -/
theorem delivered_feeds (reg : Registry) (he : g.ept? .src src = some e) :
    ∃ t, g.delivered src = some t ∧ reg.isCompatible t e = true := by
  rw [delivered, resolveDepth, deliveredWithin_succ, he, Option.map_some]
  refine ⟨_, rfl, ?_⟩
  split
  · exact reg.isCompatible_resolved _ e
  · exact reg.isCompatible_self e

theorem mem_rowPoints {p : EndPoint} : p ∈ rowPoints row i ↔ p.row = row ∧ p.index < i.length := by
  rw [rowPoints, List.mem_map]
  constructor
  · rintro ⟨k, hk, rfl⟩
    exact ⟨rfl, List.mem_range.mp hk⟩
  · rintro ⟨rfl, hk⟩
    exact ⟨p.index, List.mem_range.mpr hk, rfl⟩

end Graph

/-! ## The connections of a sequence -/

/-- The connections of a sequence: inputs to the first code, the second code to outputs. -/
def throughWires (first second : Frozen) : List (EndPoint × EndPoint) :=
  passThrough .I .A first.inputs.length ++ passThrough .B .O second.outputs.length

/-- The code runs `first` and then `second`. -/
structure Code.Sequenced (first second : Frozen) (c : Code) : Prop where
  kind_eq : c.graph.kind = .standard
  row?_eq : ∀ r, c.graph.row? r =
    if r = .B then some second.rowSides else if r = .A then some first.rowSides
    else if r = .O then some (.ofDst second.outputs)
    else if r = .I then some (.ofSrc first.inputs) else none
  sub?_eq : ∀ r, c.sub? r = if r = .B then some second else if r = .A then some first else none
  sourceOf?_iff : ∀ dst src,
    c.graph.sourceOf? dst = some src ↔ (src, dst) ∈ throughWires first second

section

variable {first second : Frozen} {src dst : EndPoint}

theorem mem_throughWires : (src, dst) ∈ throughWires first second ↔
    (∃ k < first.inputs.length, src = ⟨.I, k⟩ ∧ dst = ⟨.A, k⟩) ∨
      ∃ k < second.outputs.length, src = ⟨.B, k⟩ ∧ dst = ⟨.O, k⟩ := by
  rw [throughWires, List.mem_append, mem_passThrough, mem_passThrough]

theorem nodup_throughWires (first second : Frozen) :
    ((throughWires first second).map Prod.snd).Nodup := by
  rw [throughWires, passThrough, passThrough, List.map_append, List.map_map, List.map_map]
  refine List.nodup_append'.mpr ⟨?_, ?_, ?_⟩
  · exact List.nodup_range.map fun _ _ h => congrArg EndPoint.index h
  · exact List.nodup_range.map fun _ _ h => congrArg EndPoint.index h
  · intro p hp hp'
    obtain ⟨k, -, rfl⟩ := List.mem_map.mp hp
    obtain ⟨l, -, he⟩ := List.mem_map.mp hp'
    cases he

/-- Any two codes can be put in sequence. -/
theorem Code.sequence_total (first second : Frozen) :
    ∃ c, Code.sequence first second = .ok c ∧ c.Sequenced first second := by
  let base := ((Code.ofGraph (.standard first.inputs second.outputs)).setSub .A first).setSub .B
    second
  have hrow (r : Row) : base.graph.row? r =
      if r = .B then some second.rowSides else if r = .A then some first.rowSides
      else if r = .O then some (.ofDst second.outputs)
      else if r = .I then some (.ofSrc first.inputs) else none := by
    rw [Code.graph_setSub, Code.graph_setSub, Graph.row?_setRow, Graph.row?_setRow]
    exact congrArg _ (congrArg _ (Graph.row?_standard ..))
  have hbare (p : EndPoint) : base.graph.sourceOf? p = none := by
    rw [Code.graph_setSub, Code.graph_setSub, Graph.sourceOf?_setRow, Graph.sourceOf?_setRow,
      Code.ofGraph, Graph.sourceOf?_standard]
    rfl
  have hexist (w : EndPoint × EndPoint) (hw : w ∈ throughWires first second) :
      base.graph.exists? .src w.1 = true ∧ base.graph.exists? .dst w.2 = true := by
    obtain ⟨src, dst⟩ := w
    rcases mem_throughWires.mp hw with ⟨k, hk, rfl, rfl⟩ | ⟨k, hk, rfl, rfl⟩
    · exact ⟨(Graph.exists?_of_row? (hrow .I)).mpr hk, (Graph.exists?_of_row? (hrow .A)).mpr hk⟩
    · exact ⟨(Graph.exists?_of_row? (hrow .B)).mpr hk, (Graph.exists?_of_row? (hrow .O)).mpr hk⟩
  obtain ⟨g, hg⟩ := Graph.connectAll_total hexist
  have hc := Graph.connectAll_ok hg
  refine ⟨{ base with graph := g }, ?_, hc.kind_eq, fun r => ?_, fun r => ?_, fun dst src => ?_⟩
  · show base.connectAll (throughWires first second) = _
    rw [Code.connectAll, hg]
    rfl
  · exact (hc.row?_eq r).trans (hrow r)
  · rw [Code.sub?_of_graph, Code.sub?_setSub rfl, Code.sub?_setSub rfl, Code.sub?_ofGraph]
  · rw [hc.sourceOf?_eq_some_iff (nodup_throughWires first second), hbare]
    exact or_iff_left fun h => nomatch h.2

end

/-! ## What the checks find -/

namespace Code.Sequenced

variable {first second : Frozen} {c : Code} {reg : Registry} {p dst src : EndPoint} {v : Violation}

section

variable (h : c.Sequenced first second)

include h

theorem interface_I : c.graph.interface .I .src = first.inputs :=
  Graph.interface_of_row? (h.row?_eq .I)

theorem interface_A : c.graph.interface .A .dst = first.inputs :=
  Graph.interface_of_row? (h.row?_eq .A)

theorem interface_B (a : Side) : c.graph.interface .B a = second.rowSides.side a :=
  Graph.interface_of_row? (h.row?_eq .B)

theorem interface_O : c.graph.interface .O .dst = second.outputs :=
  Graph.interface_of_row? (h.row?_eq .O)

theorem rowsViolation?_eq_none : c.graph.rowsViolation? = none := by
  refine Graph.rowsViolation?_eq_none_iff.mpr ⟨fun r a ha => ?_, fun r => ?_⟩
  · rw [Graph.interface_eq, h.row?_eq]
    cases r <;> cases a <;> first | rfl | cases ha
  · have hrow (r : Row) : c.graph.hasRow r = decide (r ∈ [Row.I, .A, .B, .O]) := by
      rw [Graph.hasRow, h.row?_eq]
      cases r <;> rfl
    rw [← Graph.obeys_iff, h.kind_eq]
    cases r <;> simp [GraphKind.presence, Graph.Obeys, hrow]

theorem subsViolation?_eq_none : c.subsViolation? = none := by
  refine subsViolation?_eq_none_iff.mpr fun r hr => Or.inl ?_
  rw [h.row?_eq, h.sub?_eq]
  cases r <;> first | rfl | cases hr

/-- Each connection is between end points of one declared type. -/
theorem joins (reg : Registry) (hs : c.graph.sourceOf? dst = some src) :
    c.graph.Joins reg dst src := by
  have hjoin {e : Ept} (hd : c.graph.ept? .dst dst = some e) (he : c.graph.ept? .src src = some e)
      (hl : GraphKind.isLegal .standard src.row dst.row = true) : c.graph.Joins reg dst src := by
    obtain ⟨t, ht, hc⟩ := Graph.delivered_feeds reg he
    exact ⟨e, t, hd, ht, h.kind_eq ▸ hl, hc⟩
  rcases mem_throughWires.mp ((h.sourceOf?_iff dst src).mp hs) with
    ⟨k, hk, rfl, rfl⟩ | ⟨k, hk, rfl, rfl⟩
  · obtain ⟨e, he⟩ := Option.isSome_iff_exists.mp (Interface.get?_isSome_iff.mpr hk)
    exact hjoin (by rw [Graph.ept?, h.interface_A, he]) (by rw [Graph.ept?, h.interface_I, he]) rfl
  · obtain ⟨e, he⟩ := Option.isSome_iff_exists.mp (Interface.get?_isSome_iff.mpr hk)
    exact hjoin (by rw [Graph.ept?, h.interface_O, he])
      (by rw [Graph.ept?, h.interface_B]; exact he) rfl

/-- The inputs of the second code are what has no source. -/
theorem unconnected_eq : c.graph.unconnected = Graph.rowPoints .B second.inputs := by
  refine eq_of_ascending ((Graph.points_ascending _ _).filter _) (Graph.rowPoints_ascending _ _)
    fun p => ?_
  rw [Graph.mem_unconnected, Graph.mem_rowPoints, Option.eq_none_iff_forall_ne_some]
  obtain ⟨r, k⟩ := p
  constructor
  · rintro ⟨he, hn⟩
    have hlt := of_decide_eq_true he
    rw [Graph.count, Graph.interface_eq, h.row?_eq] at hlt
    cases r with
    | A => exact absurd ((h.sourceOf?_iff _ _).mpr (mem_throughWires.mpr
        (Or.inl ⟨k, hlt, rfl, rfl⟩))) (hn _)
    | B => exact ⟨rfl, hlt⟩
    | O => exact absurd ((h.sourceOf?_iff _ _).mpr (mem_throughWires.mpr
        (Or.inr ⟨k, hlt, rfl, rfl⟩))) (hn _)
    | _ => exact absurd hlt (Nat.not_lt_zero k)
  · rintro ⟨rfl, hk⟩
    refine ⟨(Graph.exists?_of_row? (h.row?_eq .B)).mpr hk, fun src hs => ?_⟩
    rcases mem_throughWires.mp ((h.sourceOf?_iff _ _).mp hs) with ⟨_, _, _, he⟩ | ⟨_, _, _, he⟩
    · cases he
    · cases he

/-- Only the second code's inputs can be missing a source, the first of them first. -/
theorem completenessViolation?_eq : c.graph.completenessViolation? =
    if second.inputs.isEmpty then none else some (.incomplete ⟨.B, 0⟩ none) := by
  have hhead : (Graph.rowPoints .B second.inputs).head? =
      if second.inputs.isEmpty then none else some ⟨.B, 0⟩ := by
    rw [Graph.rowPoints, Interface.length, Interface.isEmpty]
    cases second.inputs.epts with
    | nil => rfl
    | cons e es => rw [List.length_cons, List.range_succ_eq_map]; rfl
  rw [Graph.completenessViolation?, h.unconnected_eq, h.kind_eq, hhead, if_neg (by decide)]
  split <;> rfl

/-- Without fixed instances in the destinations that are fed, none can stand for two types. -/
theorem agree (hplain : ∀ e ∈ first.inputs.epts ++ second.outputs.epts, e.hasInstance = false)
    (row : Row) : (c.graph.rowChoices row).Agree := by
  have hnil (choice : Fin 8 × Ept) : choice ∉ c.graph.rowChoices row := by
    intro hmem
    obtain ⟨k, d, e, hd, he, hchoice⟩ := Graph.mem_rowChoices.mp hmem
    obtain ⟨src, hs, -⟩ := Option.bind_eq_some_iff.mp he
    have hmem : d ∈ first.inputs.epts ++ second.outputs.epts := by
      rw [Graph.ept?] at hd
      rcases mem_throughWires.mp ((h.sourceOf?_iff _ _).mp hs) with ⟨_, _, _, hp⟩ | ⟨_, _, _, hp⟩
      · cases hp
        rw [h.interface_A] at hd
        exact List.mem_append_left _ (List.mem_of_getElem? hd)
      · cases hp
        rw [h.interface_O] at hd
        exact List.mem_append_right _ (List.mem_of_getElem? hd)
    rw [Ept.choices_eq_nil e (hplain d hmem)] at hchoice
    cases hchoice
  exact fun i x y hx => absurd hx (hnil _)

theorem violation?_eq (reg : Registry) : c.violation? reg =
    c.graph.instancesViolation?.or c.graph.completenessViolation? := by
  rw [Code.violation?_eq, h.rowsViolation?_eq_none, h.subsViolation?_eq_none,
    Graph.wiresViolation?_eq_none_iff.mpr fun _ _ => h.joins reg]
  rfl

end

end Code.Sequenced

/-- What a code that runs `first` and then `second` comes to, and what the checks find in it. -/
structure Code.Runs (reg : Registry) (first second : Frozen) (c : Code) : Prop where
  kind_eq : c.kind = .standard
  inputs_eq : c.inputs = first.inputs
  outputs_eq : c.outputs = second.outputs
  mirror_A : c.sub? .A = some first ∧ c.graph.row? .A = some first.rowSides
  mirror_B : c.sub? .B = some second ∧ c.graph.row? .B = some second.rowSides
  /-- The destinations without source are those of row B. -/
  unconnected_eq : c.graph.unconnected = Graph.rowPoints .B second.inputs
  /-- Nothing is found but an instance that stands for two types, or that row B is not fed. -/
  findings : ∀ v, c.violation? reg = some v →
    (∃ row i, v = .instanceConflict row i) ∨ v = .incomplete ⟨.B, 0⟩ none
  verdict : (∀ e ∈ first.inputs.epts ++ second.outputs.epts, e.hasInstance = false) →
    c.violation? reg = if second.inputs.isEmpty then none else some (.incomplete ⟨.B, 0⟩ none)

theorem Code.Sequenced.runs {first second : Frozen} {c : Code} (h : c.Sequenced first second)
    (reg : Registry) : c.Runs reg first second where
  kind_eq := h.kind_eq
  inputs_eq := h.interface_I
  outputs_eq := h.interface_O
  mirror_A := ⟨h.sub?_eq .A, h.row?_eq .A⟩
  mirror_B := ⟨h.sub?_eq .B, h.row?_eq .B⟩
  unconnected_eq := h.unconnected_eq
  findings v hv := by
    rw [h.violation?_eq, Option.or_eq_some_iff] at hv
    rcases hv with hi | ⟨-, hc⟩
    · obtain ⟨⟨row, s⟩, -, hi⟩ := List.exists_of_findSome?_eq_some hi
      obtain ⟨i, -, rfl⟩ := Option.map_eq_some_iff.mp hi
      exact Or.inl ⟨row, i, rfl⟩
    · rw [h.completenessViolation?_eq] at hc
      split at hc
      · cases hc
      · exact Or.inr (Option.some.inj hc).symm
  verdict hplain := by
    rw [h.violation?_eq, Graph.instancesViolation?_eq_none_iff.mpr (h.agree hplain), Option.none_or,
      h.completenessViolation?_eq]

/-- Two codes that are more than an interface can be stacked either way, whatever their types. -/
theorem Code.stack_sound (reg : Registry) (target insert : Frozen) (ht : target.kind ≠ .empty)
    (hi : insert.kind ≠ .empty) :
    (∃ c, Code.stack target insert = .ok c ∧ c.Runs reg insert target) ∧
      ∃ c, Code.inverseStack target insert = .ok c ∧ c.Runs reg target insert := by
  have hcheck (op : InsertOp) : checkSequence op target insert = .ok () := by
    rw [checkSequence, if_neg ht, if_neg hi]
  obtain ⟨c, hc, hs⟩ := Code.sequence_total insert target
  obtain ⟨c', hc', hs'⟩ := Code.sequence_total target insert
  constructor
  · exact ⟨c, by rw [Code.stack, hcheck]; exact hc, hs.runs reg⟩
  · exact ⟨c', by rw [Code.inverseStack, hcheck]; exact hc', hs'.runs reg⟩

/-- A codon that puts its input into a list. -/
def Frozen.listing : Frozen :=
  .codon (.single 3)
    ⟨[.node ⟨1, .plain 0 7⟩ fun _ => .node ⟨0, .wildcard ⟨0, 0⟩⟩ Fin.elim0],
      Nat.le_of_ble_eq_true rfl⟩

/-- Of two such codons in sequence, the second has no input to put into a list. -/
theorem Code.stack_sound_listing :
    ∃ c, Code.stack .listing .listing = .ok c ∧ c.Runs sampleRegistry .listing .listing ∧
      c.violation? sampleRegistry = some (.incomplete ⟨.B, 0⟩ none) := by
  obtain ⟨⟨c, hc, hruns⟩, -⟩ :=
    stack_sound sampleRegistry .listing .listing (by decide) (by decide)
  exact ⟨c, hc, hruns, hruns.verdict (by decide)⟩

end GeneGraph
