import GeneGraph.Proofs.Restructure

/-!
# What a splice connects

The look-ups of the vacated target and of the fetal graph are put in terms of the target and of
the feeders. Freezing and grafting then move the outputs of the fetal code, in both graphs to the
same places, and nothing else.
-/

namespace GeneGraph

namespace Graph

variable {g g' : Graph} {ws : List (EndPoint × EndPoint)} {p dst src : EndPoint} {row : Row}

/-- The source of a destination after connections to different destinations. -/
theorem Connected.sourceOf?_eq_some_iff (h : g.Connected ws g') (hws : (ws.map Prod.snd).Nodup) :
    g'.sourceOf? dst = some src ↔
      (src, dst) ∈ ws ∨ (dst ∉ ws.map Prod.snd ∧ g.sourceOf? dst = some src) := by
  by_cases hd : dst ∈ ws.map Prod.snd
  · obtain ⟨⟨src', dst'⟩, hw, rfl⟩ := List.mem_map.mp hd
    rw [h.fed src' dst' hws hw, Option.some.injEq]
    constructor
    · rintro rfl
      exact Or.inl hw
    · rintro (hw' | ⟨hn, -⟩)
      · exact congrArg Prod.fst (List.inj_on_of_nodup_map hws hw hw' rfl)
      · exact absurd hd hn
  · rw [h.kept dst hd]
    constructor
    · exact fun hs => Or.inr ⟨hd, hs⟩
    · rintro (hw | ⟨-, hs⟩)
      · exact absurd (List.mem_map.mpr ⟨_, hw, rfl⟩) hd
      · exact hs

theorem Connected.row?_eq (h : g.Connected ws g') (r : Row) : g'.row? r = g.row? r := by
  rw [row?, row?, h.rows_eq]

theorem Connected.exists?_eq (h : g.Connected ws g') (a : Side) (p : EndPoint) :
    g'.exists? a p = g.exists? a p := by
  rw [exists?, exists?, count, count, interface_of_row?_eq (h.row?_eq _)]

/-- Connections between different destinations leave a graph anchored. -/
theorem Connected.anchored (h : g.Connected ws g') (hws : (ws.map Prod.snd).Nodup)
    (ha : g.Anchored) : g'.Anchored := by
  intro dst src hs
  rw [h.exists?_eq, h.exists?_eq]
  rcases (h.sourceOf?_eq_some_iff hws).mp hs with hw | ⟨-, hs⟩
  · exact (h.exist _ hw).symm
  · exact ha dst src hs

theorem exists?_setRow {s : Sides} {a : Side} (h : p.row ≠ row) :
    (g.setRow row s).exists? a p = g.exists? a p := by
  rw [exists?, exists?, count, count, interface_setRow, if_neg h]

theorem anchored_setRow (ha : g.Anchored) (row : Row) (s : Sides) : (g.setRow row s).Anchored := by
  intro dst src hs
  rw [sourceOf?_setRow, Option.filter_eq_some_iff] at hs
  obtain ⟨hs, hrow⟩ := hs
  obtain ⟨hd, hr⟩ := Bool.and_eq_true_iff.mp hrow
  rw [exists?_setRow (of_decide_eq_true hd), exists?_setRow (of_decide_eq_true hr)]
  exact ha dst src hs

/-- The row feeds none of its own destinations. -/
def Loopless (g : Graph) (row : Row) : Prop :=
  ∀ dst src, g.sourceOf? dst = some src → src.row = row → dst.row ≠ row

theorem anchored_of_no_wires (h : ∀ p, g.sourceOf? p = none) : g.Anchored := fun dst src hs => by
  rw [h] at hs
  cases hs

theorem row?_standard (inputs outputs : Interface) (r : Row) :
    (standard inputs outputs).row? r =
      if r = .O then some (.ofDst outputs) else if r = .I then some (.ofSrc inputs) else none := by
  rw [standard, row?_setRow, row?_setRow]
  rfl

theorem sourceOf?_standard (inputs outputs : Interface) (p : EndPoint) :
    (standard inputs outputs).sourceOf? p = none := by
  rw [standard, sourceOf?_setRow, sourceOf?_setRow]
  rfl

end Graph

theorem mem_passThrough {a b : Row} {n : Nat} {src dst : EndPoint} :
    (src, dst) ∈ passThrough a b n ↔ ∃ k < n, src = ⟨a, k⟩ ∧ dst = ⟨b, k⟩ := by
  rw [passThrough, List.mem_map]
  simp only [List.mem_range, Prod.mk.injEq, eq_comm]

/-! ## The vacated target -/

namespace Splice

variable {target : Code} {insert : Frozen} {above : Above} (x : Splice target insert above)
  {p dst src : EndPoint} {r : Row}

theorem row?_code : x.code.graph.row? r =
    if r = above.replacedRow then some ⟨x.inputs, x.outputs⟩ else target.graph.row? r := by
  obtain ⟨g, hg, hc⟩ := x.vacated
  rw [hc, Code.graph_attach]
  exact ((Graph.connectAll_ok hg).row?_eq r).trans (Graph.row?_setRow ..)

theorem kind_code : x.code.graph.kind = target.graph.kind := by
  obtain ⟨g, hg, hc⟩ := x.vacated
  rw [hc, Code.graph_attach]
  exact (Graph.connectAll_ok hg).kind_eq

theorem sub?_code : x.code.sub? r = if r = above.replacedRow then none else target.sub? r := by
  obtain ⟨g, hg, hc⟩ := x.vacated
  rw [hc, Code.sub?_attach Above.isSub_replacedRow, Code.sub?_of_graph]

theorem mem_rewired : (src, dst) ∈ x.rewired ↔
    (target.graph.sourceOf? dst = some src ∧ src.row = above.replacedRow) ∨
      (dst.row = above.replacedRow ∧ x.feeders[dst.index]?.map Feeder.point = some src) := by
  rw [rewired, List.mem_append, List.mem_map, List.mem_map]
  refine or_congr ⟨?_, ?_⟩ ⟨?_, ?_⟩
  · rintro ⟨⟨d, s⟩, hw, he⟩
    cases he
    obtain ⟨hw, hrow⟩ := List.mem_filter.mp hw
    exact ⟨Graph.mem_wires.mp hw, of_decide_eq_true hrow⟩
  · rintro ⟨hs, hrow⟩
    exact ⟨(dst, src), List.mem_filter.mpr ⟨Graph.mem_wires.mpr hs, decide_eq_true hrow⟩, rfl⟩
  · rintro ⟨⟨f, k⟩, hf, he⟩
    cases he
    exact ⟨rfl, by rw [List.mem_zipIdx_iff_getElem?.mp hf]; rfl⟩
  · rintro ⟨hrow, hf⟩
    obtain ⟨f, hget, rfl⟩ := Option.map_eq_some_iff.mp hf
    exact ⟨(f, dst.index), List.mem_zipIdx_iff_getElem?.mpr hget,
      Prod.ext rfl (EndPoint.ext hrow.symm rfl)⟩

theorem nodup_rewired (hloop : target.graph.Loopless above.replacedRow) :
    (x.rewired.map Prod.snd).Nodup := by
  rw [rewired, List.map_append, List.map_map, List.map_map]
  refine List.nodup_append'.mpr ⟨?_, ?_, ?_⟩
  · exact (SortedMap.nodup_keys target.graph.wires).sublist (List.filter_sublist.map Prod.fst)
  · have hnd : (x.feeders.zipIdx.map Prod.snd).Nodup := by
      rw [List.zipIdx_map_snd]
      exact List.nodup_range'
    rw [List.Nodup, List.pairwise_map] at hnd ⊢
    exact hnd.imp fun hne he => hne (congrArg EndPoint.index he)
  · intro p hp hp'
    obtain ⟨⟨d, s⟩, hw, rfl⟩ := List.mem_map.mp hp
    obtain ⟨⟨f, k⟩, -, he⟩ := List.mem_map.mp hp'
    obtain ⟨hw, hrow⟩ := List.mem_filter.mp hw
    exact hloop d s (Graph.mem_wires.mp hw) (of_decide_eq_true hrow) (congrArg EndPoint.row he).symm

/-- The vacated row is fed by the feeders, and everything else has the source it had. -/
theorem sourceOf?_code (hloop : target.graph.Loopless above.replacedRow) :
    x.code.graph.sourceOf? p =
      if p.row = above.replacedRow then x.feeders[p.index]?.map Feeder.point
      else target.graph.sourceOf? p := by
  obtain ⟨g, hg, hc⟩ := x.vacated
  rw [hc, Code.graph_attach]
  refine Option.ext fun src => ?_
  show g.sourceOf? p = some src ↔ _
  rw [(Graph.connectAll_ok hg).sourceOf?_eq_some_iff (x.nodup_rewired hloop), x.mem_rewired,
    Graph.sourceOf?_setRow, Option.filter_eq_some_iff]
  by_cases hp : p.row = above.replacedRow
  · rw [if_pos hp]
    constructor
    · rintro ((⟨hs, hrow⟩ | ⟨-, hf⟩) | ⟨-, -, hrow⟩)
      · exact absurd hp (hloop p src hs hrow)
      · exact hf
      · exact absurd hp (of_decide_eq_true (Bool.and_eq_true_iff.mp hrow).1)
    · exact fun hf => Or.inl (Or.inr ⟨hp, hf⟩)
  · rw [if_neg hp]
    constructor
    · rintro ((⟨hs, -⟩ | ⟨hrow, -⟩) | ⟨-, hs, -⟩)
      · exact hs
      · exact absurd hrow hp
      · exact hs
    · intro hs
      by_cases hrow : src.row = above.replacedRow
      · exact Or.inl (Or.inl ⟨hs, hrow⟩)
      · refine Or.inr ⟨fun hmem => ?_, hs, Bool.and_eq_true_iff.mpr
          ⟨decide_eq_true hp, decide_eq_true hrow⟩⟩
        obtain ⟨⟨src', p'⟩, hw, rfl⟩ := List.mem_map.mp hmem
        rcases x.mem_rewired.mp hw with ⟨hs', hrow'⟩ | ⟨hp', -⟩
        · rw [hs, Option.some.injEq] at hs'
          exact hrow (hs' ▸ hrow')
        · exact hp hp'

theorem anchored_code (ha : target.graph.Anchored)
    (hloop : target.graph.Loopless above.replacedRow) : x.code.graph.Anchored := by
  obtain ⟨g, hg, hc⟩ := x.vacated
  rw [hc, Code.graph_attach]
  exact (Graph.connectAll_ok hg).anchored (x.nodup_rewired hloop) (Graph.anchored_setRow ha _ _)

theorem legal_code (hl : target.graph.Legal) (hloop : target.graph.Loopless above.replacedRow) :
    x.code.graph.Legal := by
  rintro ⟨row, k⟩ q h
  rw [x.kind_code]
  rw [x.sourceOf?_code hloop] at h
  split at h
  · rename_i hrow
    obtain ⟨l, hsrc⟩ := x.exists_feeder.mp ⟨k, h⟩
    rw [show row = above.replacedRow from hrow]
    exact hl ⟨_, l⟩ q hsrc
  · exact hl _ q h

/-! ## The fetal graph -/

theorem wires_eq_filterMap : x.wires = (List.range x.displaced.inputs.length).filterMap fun k =>
    (target.graph.sourceOf? ⟨above.replacedRow, k⟩).bind fun src =>
      (x.feeders.findIdx? fun f => f.point = src).map fun j =>
        ((⟨.I, j⟩, ⟨above.displacedRow, k⟩) : EndPoint × EndPoint) := by
  obtain ⟨ws, hws, h⟩ := bind_eq_ok.mp x.wires_eq
  rw [← Except.ok.inj h, mapM_ok (fun k o hk => ?_) hws, List.filterMap_map]
  · rfl
  · cases hs : target.graph.sourceOf? ⟨above.replacedRow, k⟩ with
    | none =>
      rw [hs] at hk
      cases hk
      rfl
    | some src =>
      rw [hs] at hk
      obtain ⟨j, hj, hk⟩ := bind_eq_ok.mp hk
      cases hk
      rw [feederIndex] at hj
      split at hj
      · rename_i hf
        cases hj
        simp only [hf, Option.map_some]
      · cases hj

/-- The displaced code is fed from the input that stands for its old source. -/
theorem mem_wires : (src, dst) ∈ x.wires ↔ ∃ k j s, k < x.displaced.inputs.length ∧
    target.graph.sourceOf? ⟨above.replacedRow, k⟩ = some s ∧
      x.feeders[j]?.map Feeder.point = some s ∧ src = ⟨.I, j⟩ ∧ dst = ⟨above.displacedRow, k⟩ := by
  rw [wires_eq_filterMap, List.mem_filterMap]
  constructor
  · rintro ⟨k, hk, h⟩
    obtain ⟨s, hs, h⟩ := Option.bind_eq_some_iff.mp h
    obtain ⟨j, hj, h⟩ := Option.map_eq_some_iff.mp h
    cases h
    exact ⟨k, j, s, List.mem_range.mp hk, hs, x.findIdx?_feeder.mp hj, rfl, rfl⟩
  · rintro ⟨k, j, s, hk, hs, hj, rfl, rfl⟩
    refine ⟨k, List.mem_range.mpr hk, ?_⟩
    rw [hs, Option.bind_some, x.findIdx?_feeder.mpr hj]
    rfl

/-- The outputs of the fetal code are those of the displaced and of the inserted code. -/
theorem mem_exposed : (src, dst) ∈ x.exposed ↔
    (∃ k < x.displaced.outputs.length, src = ⟨above.displacedRow, k⟩ ∧ dst = ⟨.O, k⟩) ∨
      ∃ k < insert.outputs.length, src = ⟨above.insertedRow, k⟩ ∧
        dst = ⟨.O, x.displaced.outputs.length + k⟩ := by
  rw [exposed, List.mem_append, mem_passThrough, List.mem_map]
  simp only [List.mem_range, Prod.mk.injEq, eq_comm]

theorem nodup_fetal : ((x.wires ++ x.exposed).map Prod.snd).Nodup := by
  rw [List.map_append]
  refine List.nodup_append'.mpr ⟨?_, ?_, ?_⟩
  · rw [List.Nodup, List.pairwise_map, wires_eq_filterMap]
    refine List.Pairwise.filterMap _ (fun k k' hne w hw w' hw' => ?_) List.nodup_range
    obtain ⟨s, -, hw⟩ := Option.bind_eq_some_iff.mp hw
    obtain ⟨j, -, rfl⟩ := Option.map_eq_some_iff.mp hw
    obtain ⟨s', -, hw'⟩ := Option.bind_eq_some_iff.mp hw'
    obtain ⟨j', -, rfl⟩ := Option.map_eq_some_iff.mp hw'
    exact fun he => hne (congrArg EndPoint.index he)
  · have hall : x.exposed.map Prod.snd =
        (List.range (x.displaced.outputs.length + insert.outputs.length)).map (EndPoint.mk .O) := by
      rw [exposed, passThrough, List.map_append, List.map_map, List.map_map, List.range_add,
        List.map_append, List.map_map]
      rfl
    rw [hall]
    exact List.nodup_range.map fun _ _ h => congrArg EndPoint.index h
  · intro p hp hp'
    obtain ⟨⟨src, d⟩, hw, rfl⟩ := List.mem_map.mp hp
    obtain ⟨⟨src', d'⟩, hw', he⟩ := List.mem_map.mp hp'
    obtain ⟨k, j, s, -, -, -, -, rfl⟩ := x.mem_wires.mp hw
    obtain rfl : d' = ⟨above.displacedRow, k⟩ := he
    rcases x.mem_exposed.mp hw' with ⟨l, -, -, hd⟩ | ⟨l, -, -, hd⟩ <;>
      exact above.displacedRow_ne_O (congrArg EndPoint.row hd)

theorem row?_scaffold : x.scaffold.row? r =
    if r = above.displacedRow then some x.displaced.rowSides
    else if r = above.insertedRow then some insert.rowSides
    else if r = .O then some (.ofDst x.outputs)
    else if r = .I then some (.ofSrc x.inputs) else none := by
  rw [scaffold, Graph.row?_setRow, Graph.row?_setRow, Graph.row?_standard]

theorem row?_fetal : x.fetal.graph.row? r =
    if r = above.displacedRow then some x.displaced.rowSides
    else if r = above.insertedRow then some insert.rowSides
    else if r = .O then some (.ofDst x.outputs)
    else if r = .I then some (.ofSrc x.inputs) else none := by
  obtain ⟨g, hg, hgraph, -⟩ := x.connected
  rw [hgraph, (Graph.connectAll_ok hg).row?_eq, x.row?_scaffold]

theorem sourceOf?_scaffold : x.scaffold.sourceOf? p = none := by
  rw [scaffold, Graph.sourceOf?_setRow, Graph.sourceOf?_setRow, Graph.sourceOf?_standard]
  rfl

/-- The connections of the fetal graph. -/
theorem sourceOf?_fetal_eq_some_iff :
    x.fetal.graph.sourceOf? dst = some src ↔ (src, dst) ∈ x.wires ∨ (src, dst) ∈ x.exposed := by
  obtain ⟨g, hg, hgraph, -⟩ := x.connected
  rw [hgraph, (Graph.connectAll_ok hg).sourceOf?_eq_some_iff x.nodup_fetal, List.mem_append,
    x.sourceOf?_scaffold]
  exact or_iff_left fun h => nomatch h.2

theorem anchored_fetal : x.fetal.graph.Anchored := by
  obtain ⟨g, hg, hgraph, -⟩ := x.connected
  rw [hgraph]
  exact (Graph.connectAll_ok hg).anchored x.nodup_fetal
    (Graph.anchored_of_no_wires fun _ => x.sourceOf?_scaffold)

theorem legal_fetal : x.fetal.graph.Legal := by
  intro p q h
  rw [x.kind_fetal]
  rcases x.sourceOf?_fetal_eq_some_iff.mp h with hw | hw
  · obtain ⟨k, j, _, -, -, -, rfl, rfl⟩ := x.mem_wires.mp hw
    cases above <;> rfl
  · rcases x.mem_exposed.mp hw with ⟨k, -, rfl, rfl⟩ | ⟨k, -, rfl, rfl⟩ <;> cases above <;> rfl

end Splice

end GeneGraph
