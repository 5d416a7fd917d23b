import GeneGraph.Proofs.Joining
import GeneGraph.Proofs.Ordering

/-!
# When a wrapped code can be repaired

Wrapping gives a standard code the interface of another and cuts the connections of the old one,
so only the connections from sub-code A to sub-code B are left. Nothing feeds sub-code A any more,
and its wildcards stand for its inputs as they are declared (`Graph.standalone`), where they may
have stood for more special types before.

`Graph.Wrappable` says that sub-code B can do with that. `wrap_repairable_iff`: wrapping always
gives a code, and the checks find nothing but destinations without source in it exactly if the
inserted code is wrappable; otherwise they find a clash of types, which is nothing to repair.
-/

namespace GeneGraph

namespace Graph

variable {g : Graph} {i o : Interface} {r : Row} {a : Side} {p src : EndPoint} {reg : Registry}

/-- What a source of row A delivers when nothing feeds its sub-code. -/
def standalone (g : Graph) (src : EndPoint) : Option Ept :=
  if src.row = .A then
    (g.ept? .src src).map fun e =>
      if e.hasWildcard then e.resolved (g.interface .A .dst).epts else e
  else none

/-- Sub-code B can do with what sub-code A delivers when nothing feeds it. -/
structure Wrappable (reg : Registry) (g : Graph) : Prop where
  takes : ∀ k src d e, g.sourceOf? ⟨.B, k⟩ = some src → g.ept? .dst ⟨.B, k⟩ = some d →
    g.standalone src = some e → reg.isCompatible e d = true
  agree : ∀ inst e e', g.Chooses g.standalone .B (inst, e) → g.Chooses g.standalone .B (inst, e') →
    e = e'

/-- The graph with other inputs and outputs, and without the connections of the old ones. -/
def rewrapped (g : Graph) (inputs outputs : Interface) : Graph :=
  (g.setRow .I (.ofSrc inputs)).setRow .O (.ofDst outputs)

/-! ## The rewrapped graph -/

theorem row?_rewrapped (hi : r ≠ .I) (ho : r ≠ .O) : (g.rewrapped i o).row? r = g.row? r := by
  rw [rewrapped, row?_setRow, if_neg ho, row?_setRow, if_neg hi]

theorem interface_rewrapped (hi : r ≠ .I) (ho : r ≠ .O) :
    (g.rewrapped i o).interface r a = g.interface r a :=
  interface_of_row?_eq (row?_rewrapped hi ho)

theorem ept?_rewrapped (h : p.row.isSub = true) : (g.rewrapped i o).ept? a p = g.ept? a p :=
  ept?_of_interface_eq (interface_rewrapped (fun hi => by rw [hi] at h; cases h)
    fun ho => by rw [ho] at h; cases h)

theorem row_of_standalone {e : Ept} (h : g.standalone src = some e) : src.row = .A := by
  by_contra hne
  rw [standalone, if_neg hne] at h
  cases h

theorem isEmpty_rewrapped (ha : r.hasSide a = false)
    (h : (g.interface r a).isEmpty = true) : ((g.rewrapped i o).interface r a).isEmpty = true := by
  by_cases ho : r = .O
  · rw [rewrapped, interface_setRow, if_pos ho]
    subst ho
    cases a
    · rfl
    · cases ha
  · by_cases hi : r = .I
    · rw [rewrapped, interface_setRow, if_neg ho, interface_setRow, if_pos hi]
      subst hi
      cases a
      · cases ha
      · rfl
    · rwa [interface_rewrapped hi ho]

theorem rowViolation?_rewrapped (hk : g.kind = .standard) (h : g.rowViolation? r = none) :
    (g.rewrapped i o).rowViolation? r = none := by
  have hk' : (g.rewrapped i o).kind = .standard := hk
  have hout : (g.rewrapped i o).hasRow .O = true := by rw [rewrapped, hasRow_setRow]; rfl
  have hrow (hi : r ≠ .I) (ho : r ≠ .O) : (g.rewrapped i o).hasRow r = g.hasRow r :=
    congrArg Option.isSome (row?_rewrapped hi ho)
  rw [rowViolation?, hk] at h
  rw [rowViolation?, hk']
  cases r with
  | I => simp [GraphKind.presence, hout]
  | O => simp [GraphKind.presence, hout]
  | _ =>
    rw [hrow (by decide) (by decide)]
    exact h

theorem rowsViolation?_rewrapped (hk : g.kind = .standard) (h : g.rowsViolation? = none) :
    (g.rewrapped i o).rowsViolation? = none := by
  obtain ⟨hsides, hpresence⟩ := rowsViolation?_eq_none_iff.mp h
  exact rowsViolation?_eq_none_iff.mpr ⟨fun r a ha => isEmpty_rewrapped ha (hsides r a ha),
    fun r => rowViolation?_rewrapped hk (hpresence r)⟩

/-- In a standard graph, only connections from A to B survive. -/
theorem sourceOf?_rewrapped (hk : g.kind = .standard) (hl : g.Legal) :
    (g.rewrapped i o).sourceOf? p = some src ↔
      g.sourceOf? p = some src ∧ p.row = .B ∧ src.row = .A := by
  rw [rewrapped, sourceOf?_setRow, sourceOf?_setRow, Option.filter_filter,
    Option.filter_eq_some_iff]
  refine and_congr_right fun hs => ?_
  have hlegal := hl p src hs
  rw [hk] at hlegal
  revert hlegal
  cases p.row <;> cases src.row <;> decide

theorem legal_rewrapped (hk : g.kind = .standard) (hl : g.Legal) : (g.rewrapped i o).Legal :=
  fun p src hs => hl p src ((sourceOf?_rewrapped hk hl).mp hs).1

/-- What is connected from A to B delivers as if its sub-code stood alone. -/
theorem delivered_rewrapped (hk : g.kind = .standard) (hl : g.Legal) (h : src.row = .A) :
    (g.rewrapped i o).delivered src = g.standalone src := by
  obtain ⟨row, k⟩ := src
  obtain rfl : row = .A := h
  have hinputs : (g.rewrapped i o).inputTypes (g.rewrapped i o).delivered .A =
      (g.interface .A .dst).epts := by
    have hnone (l : Nat) : (g.rewrapped i o).sourceOf? ⟨.A, l⟩ = none :=
      Option.eq_none_iff_forall_ne_some.mpr fun s hs =>
        nomatch ((sourceOf?_rewrapped hk hl).mp hs).2.1
    simp only [inputTypes, hnone, Option.bind_none, Option.getD_none]
    rw [List.zipIdx_map_fst, interface_rewrapped (by decide) (by decide)]
  rw [(legal_rewrapped hk hl).delivered_eq, ept?_rewrapped rfl, hinputs, standalone, if_pos rfl]
  simp only [Row.isSub, Bool.and_true]

theorem anchored_rewrapped (hk : g.kind = .standard) (hl : g.Legal) (ha : g.Anchored) :
    (g.rewrapped i o).Anchored := by
  intro p src hs
  obtain ⟨hs, hp, hsrc⟩ := (sourceOf?_rewrapped hk hl).mp hs
  rw [exists?_iff, exists?_iff, ept?_rewrapped (hp ▸ rfl), ept?_rewrapped (hsrc ▸ rfl),
    ← exists?_iff, ← exists?_iff]
  exact ha p src hs

/-- Without wildcards, sub-code A delivers the same whatever it is fed. -/
theorem delivered_of_standalone {e : Ept}
    (hplain : ∀ k e, g.ept? .src ⟨.A, k⟩ = some e → e.hasWildcard = false)
    (he : g.standalone src = some e) : g.delivered src = some e := by
  obtain ⟨row, k⟩ := src
  obtain rfl : row = .A := row_of_standalone he
  rw [standalone, if_pos rfl] at he
  obtain ⟨e', he', rfl⟩ := Option.map_eq_some_iff.mp he
  rw [hplain k e' he', if_neg Bool.false_ne_true]
  rw [delivered_of_plain fun e he => by rw [hplain k e he]; rfl]
  exact he'

theorem chooses_standalone_iff (hk : g.kind = .standard) (hl : g.Legal) {c : Fin 8 × Ept} :
    c ∈ (g.rewrapped i o).rowChoices r ↔ r = .B ∧ g.Chooses g.standalone .B c := by
  rw [mem_rowChoices_iff_chooses]
  constructor
  · rintro ⟨k, src, d, e, hd, hs, he, hc⟩
    obtain ⟨hs, rfl, hsrc⟩ := (sourceOf?_rewrapped hk hl).mp hs
    rw [ept?_rewrapped rfl] at hd
    rw [delivered_rewrapped hk hl hsrc] at he
    exact ⟨rfl, k, src, d, e, hd, hs, he, hc⟩
  · rintro ⟨rfl, k, src, d, e, hd, hs, he, hc⟩
    have hsrc := row_of_standalone he
    exact ⟨k, src, d, e, (ept?_rewrapped rfl).trans hd,
      (sourceOf?_rewrapped hk hl).mpr ⟨hs, rfl, hsrc⟩,
      (delivered_rewrapped hk hl hsrc).trans he, hc⟩

end Graph

namespace Code

variable {reg : Registry} {c : Code} {i o : Interface}

/-- The code with other inputs and outputs. -/
def rewrapped (c : Code) (inputs outputs : Interface) : Code :=
  { c with graph := c.graph.rewrapped inputs outputs }

theorem wrap_eq {target insert : Frozen} (ht : target.kind = .empty)
    (hi : insert.kind = .standard) :
    Code.wrap target insert = .ok (insert.code.rewrapped target.inputs target.outputs) := by
  rw [wrap, if_neg (not_not_intro ht), if_neg (not_not_intro hi)]
  rfl

theorem subsViolation?_rewrapped (h : c.subsViolation? = none) :
    (c.rewrapped i o).subsViolation? = none := by
  rw [subsViolation?_eq_none_iff] at h ⊢
  intro row hrow
  have hi : row ≠ .I := fun h => by rw [h] at hrow; cases hrow
  have ho : row ≠ .O := fun h => by rw [h] at hrow; cases hrow
  have heq : (c.rewrapped i o).graph.row? row = c.graph.row? row := Graph.row?_rewrapped hi ho
  rw [SubFits, heq]
  exact h row hrow

/-- The rewrapped code is sound exactly if sub-code B can do with what sub-code A then delivers. -/
theorem Sound.rewrapped_iff (h : c.Sound reg) (hk : c.graph.kind = .standard) :
    (c.rewrapped i o).Sound reg ↔ c.graph.Wrappable reg := by
  have hl := h.legal
  constructor
  · intro hw
    refine ⟨fun k src d e hs hd he => ?_, fun inst e e' he he' => ?_⟩
    · have hsrc := Graph.row_of_standalone he
      obtain ⟨d', e', hd', he', -, hc⟩ :=
        hw.joins ⟨.B, k⟩ src ((Graph.sourceOf?_rewrapped hk hl).mpr ⟨hs, rfl, hsrc⟩)
      cases ((Graph.ept?_rewrapped rfl).trans hd).symm.trans hd'
      cases ((Graph.delivered_rewrapped hk hl hsrc).trans he).symm.trans he'
      exact hc
    · exact hw.agree .B inst e e' ((Graph.chooses_standalone_iff hk hl).mpr ⟨rfl, he⟩)
        ((Graph.chooses_standalone_iff hk hl).mpr ⟨rfl, he'⟩)
  · intro hw
    refine ⟨Graph.rowsViolation?_rewrapped hk h.rows, subsViolation?_rewrapped h.subs, ?_, ?_⟩
    · rintro ⟨row, k⟩ src hs
      obtain ⟨hs, hrow, hsrc⟩ := (Graph.sourceOf?_rewrapped hk hl).mp hs
      obtain rfl : row = .B := hrow
      obtain ⟨d, -, hd, -, hlegal, -⟩ := h.joins _ _ hs
      have hdelivered := Graph.delivered_rewrapped (i := i) (o := o) hk hl hsrc
      have hsome : (c.graph.standalone src).isSome = true := by
        rw [← hdelivered, Graph.isSome_delivered, Graph.ept?_rewrapped (hsrc ▸ rfl),
          ← Graph.exists?_iff]
        exact (h.anchored _ _ hs).2
      obtain ⟨e, he⟩ := Option.isSome_iff_exists.mp hsome
      exact ⟨d, e, (Graph.ept?_rewrapped rfl).trans hd, hdelivered.trans he, hlegal,
        hw.takes k src d e hs hd he⟩
    · intro row inst e e' he he'
      exact hw.agree inst e e' ((Graph.chooses_standalone_iff hk hl).mp he).2
        ((Graph.chooses_standalone_iff hk hl).mp he').2

/-- If sub-code A has no wildcards among its outputs, nothing changes for sub-code B. -/
theorem Sound.wrappable (h : c.Sound reg)
    (hplain : ∀ k e, c.graph.ept? .src ⟨.A, k⟩ = some e → e.hasWildcard = false) :
    c.graph.Wrappable reg := by
  have hchosen {x : Fin 8 × Ept} (hx : c.graph.Chooses c.graph.standalone .B x) :
      x ∈ c.graph.rowChoices .B := by
    obtain ⟨k, src, d, e, hd, hs, he, hx⟩ := hx
    exact Graph.mem_rowChoices_iff_chooses.mpr
      ⟨k, src, d, e, hd, hs, Graph.delivered_of_standalone hplain he, hx⟩
  refine ⟨fun k src d e hs hd he => ?_, fun inst e e' he he' => ?_⟩
  · obtain ⟨d', e', hd', he', -, hc⟩ := h.joins _ _ hs
    cases hd.symm.trans hd'
    cases (Graph.delivered_of_standalone hplain he).symm.trans he'
    exact hc
  · exact h.agree .B inst e e' (hchosen he) (hchosen he')

/-- Sound codes are those with nothing but destinations without source to repair. -/
theorem sound_iff_incomplete :
    c.Sound reg ↔ ∀ v, c.violation? reg = some v → ∃ p row, v = .incomplete p row := by
  constructor
  · intro h v hv
    obtain ⟨p, rfl, -⟩ := h.incomplete hv
    exact ⟨p, _, rfl⟩
  · refine fun h => sound_of_violation? fun v hv => ?_
    obtain ⟨p, row, rfl⟩ := h v hv
    rfl

end Code

/-- Wrapping a valid code succeeds, and leaves nothing but destinations without source to repair
exactly if the code is wrappable; otherwise types clash in it. It is, if sub-code A has no
wildcards among its outputs. -/
theorem wrap_repairable_iff {reg : Registry} {target insert : Frozen}
    (ht : target.kind = .empty) (hi : insert.kind = .standard)
    (hv : insert.code.violation? reg = none) :
    ∃ c, Code.wrap target insert = .ok c ∧
      ((∀ v, c.violation? reg = some v → ∃ p row, v = .incomplete p row) ↔
        insert.graph.Wrappable reg) ∧
      (¬ insert.graph.Wrappable reg → ∃ v, c.violation? reg = some v ∧ v.IsTypeClash) ∧
      ((∀ k e, insert.graph.ept? .src ⟨.A, k⟩ = some e → e.hasWildcard = false) →
        insert.graph.Wrappable reg) := by
  have hs : insert.code.Sound reg := (Code.violation?_eq_none_iff.mp hv).1
  have hiff : (insert.code.rewrapped target.inputs target.outputs).Sound reg ↔
      insert.graph.Wrappable reg := hs.rewrapped_iff hi
  refine ⟨_, Code.wrap_eq ht hi, Code.sound_iff_incomplete.symm.trans hiff, fun hn => ?_,
    hs.wrappable⟩
  refine (Code.sound_or_clash (Graph.rowsViolation?_rewrapped hi hs.rows)
    (Code.subsViolation?_rewrapped hs.subs) (Graph.anchored_rewrapped hi hs.legal hs.anchored)
      (Graph.legal_rewrapped hi hs.legal)).resolve_left ?_
  exact fun hsound => hn (hiff.mp hsound)

/-- An interface of a text, without a body. -/
def Frozen.textual : Frozen := (Code.placeholder (.single 5) .empty).freeze 0

theorem wrap_repairable_iff_chain :
    ∃ c, Code.wrap .textual .chain = .ok c ∧
      ∀ v, c.violation? .empty = some v → ∃ p row, v = .incomplete p row := by
  have hv : Frozen.chain.code.violation? .empty = none := by decide +kernel
  have hsrc : Frozen.chain.graph.interface .A .src = .single 3 := by decide +kernel
  have ht : Frozen.textual.kind = .empty := rfl
  obtain ⟨c, hc, hiff, -, hplain⟩ := wrap_repairable_iff ht rfl hv
  refine ⟨c, hc, hiff.mpr (hplain fun k e he => ?_)⟩
  rw [Graph.ept?, hsrc] at he
  obtain rfl := List.mem_singleton.mp (List.mem_of_getElem? he)
  decide +kernel

/-- A code whose first codon hands on what it is fed to a codon that takes texts only. -/
def Frozen.tailored : Frozen :=
  ((Code.pair (.single 5) .empty (.codon (.single 1) Code.firstInputOnly)
    (.codon (.single 5) .empty)).wired [(⟨.I, 0⟩, ⟨.A, 0⟩), (⟨.A, 0⟩, ⟨.B, 0⟩)]).freeze 0

/-- In the wrap, where it is fed nothing, the first codon hands on an object. -/
theorem wrap_tailored :
    Frozen.textual.kind = .empty ∧ Frozen.tailored.kind = .standard ∧
    Frozen.tailored.code.violation? sampleRegistry = none ∧
    ∃ c, Code.wrap .textual .tailored = .ok c ∧
      c.violation? sampleRegistry = some (.incompatible ⟨.B, 0⟩ ⟨.A, 0⟩) := by
  have hok : (Code.wrap .textual .tailored).toOption.map (fun c => c.violation? sampleRegistry) =
      some (some (.incompatible ⟨.B, 0⟩ ⟨.A, 0⟩)) := by decide +kernel
  obtain ⟨c, hc, hviolation⟩ := toOption_map_eq_some.mp hok
  exact ⟨rfl, rfl, by decide +kernel, c, hc, hviolation⟩

end GeneGraph
