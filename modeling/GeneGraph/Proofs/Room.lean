import GeneGraph.Proofs.Grafting
import GeneGraph.Proofs.Legality

/-!
# When a splice succeeds

Into a sound standard code any code with a body can be spliced above any row, if the fetal code
can have the interface that it needs (`Code.HasRoom`): the outputs of the displaced and of the
inserted code together, and the types of all feeders. Whatever else a splice looks up or connects
is there (`Code.restructure_ok_iff`).
-/

namespace GeneGraph

namespace Interface

variable {i : Interface} {l : List Ept}

theorem foldlM_push_total (h : i.elements + elementsOf l ≤ maxElements) :
    ∃ i', l.foldlM push i = .ok i' := by
  induction l generalizing i with
  | nil => exact ⟨i, rfl⟩
  | cons e l ih =>
    rw [elementsOf, ← Nat.add_assoc] at h
    obtain ⟨i₁, hi⟩ := push_total (Nat.le_trans (Nat.le_add_right _ _) h)
    have hsize : i₁.elements = i.elements + e.length := by
      rw [elements, push_ok hi, elementsOf_append]
      rfl
    obtain ⟨i', hi'⟩ := ih (hsize ▸ h)
    refine ⟨i', ?_⟩
    rw [List.foldlM_cons, hi]
    exact hi'

theorem ofList_total (h : elementsOf l ≤ maxElements) : ∃ i, ofList l = .ok i :=
  foldlM_push_total (by rwa [show empty.elements = 0 from rfl, Nat.zero_add])

end Interface

/-! ## Feeders -/

namespace Graph

variable {g : Graph} {row : Row} {fs : List Feeder} {src : EndPoint}

/-- The sources of connections that do not dangle can be collected. -/
theorem feeders_total (ha : g.Anchored) (row : Row) : ∃ fs, g.feeders row = .ok fs := by
  have hadd (fs : List Feeder) (w : EndPoint × EndPoint) (hw : w ∈ g.wiresInto row) :
      ∃ fs', Feeder.add g fs w.1 w.2 = .ok fs' := by
    have hsome : (g.delivered w.2).isSome := by
      rw [isSome_delivered, ← exists?_iff]
      exact (ha w.1 w.2 (mem_wires.mp (List.mem_filter.mp hw).1)).2
    obtain ⟨e, he⟩ := Option.isSome_iff_exists.mp hsome
    rw [Feeder.add, he]
    split
    · exact ⟨fs, rfl⟩
    · exact ⟨_, rfl⟩
  obtain ⟨fs, hfs, -⟩ : ∃ fs, (g.wiresInto row).foldlM
      (fun fs (e : EndPoint × EndPoint) => Feeder.add g fs e.1 e.2) [] = .ok fs ∧ True :=
    foldlM_eq_ok (fun _ _ => True) trivial fun pre w post fs hl _ => by
      have hw : w ∈ g.wiresInto row := hl ▸ List.mem_append_right pre List.mem_cons_self
      obtain ⟨fs', hfs'⟩ := hadd fs w hw
      exact ⟨fs', hfs', trivial⟩
  exact ⟨_, bind_eq_ok.mpr ⟨fs, hfs, rfl⟩⟩

theorem feederIndex_total (h : src ∈ fs.map Feeder.point) :
    ∃ j < fs.length, feederIndex fs src = .ok j := by
  obtain ⟨f, hf, hp⟩ := List.mem_map.mp h
  rw [feederIndex]
  cases hj : fs.findIdx? fun f => f.point = src with
  | none => exact absurd hp (of_decide_eq_false (List.findIdx?_eq_none_iff.mp hj f hf))
  | some j => exact ⟨j, (List.findIdx?_eq_some_iff_getElem.mp hj).1, rfl⟩

/-- Every source of a row is among its feeders, so the fetal code has an input for it. -/
theorem fetalInputs_total (hfs : g.feeders row = .ok fs) (displacedRow : Row) (count : Nat) :
    ∃ ws, fetalInputs g fs row displacedRow count = .ok ws ∧
      ∀ w ∈ ws, ∃ j < fs.length, ∃ k < count, w = (⟨.I, j⟩, ⟨displacedRow, k⟩) := by
  have hmem := (feeders_ok hfs).1.mem_iff
  unfold fetalInputs
  refine bind_mapM_total (P := fun o => ∀ w, o = some w →
    ∃ j < fs.length, ∃ k < count, w = ((⟨.I, j⟩, ⟨displacedRow, k⟩) : EndPoint × EndPoint))
    (fun k hk => ?_) fun ws hall => ⟨_, rfl, fun w hw => ?_⟩
  · cases hs : g.sourceOf? ⟨row, k⟩ with
    | none => exact ⟨none, rfl, fun w hw => absurd hw (Option.some_ne_none w).symm⟩
    | some src =>
      obtain ⟨j, hj, hindex⟩ := feederIndex_total ((hmem src).mpr ⟨k, hs⟩)
      refine ⟨some (⟨.I, j⟩, ⟨displacedRow, k⟩), ?_, fun w hw => ?_⟩
      · simp only [hindex]
        rfl
      · cases hw
        exact ⟨j, hj, k, List.mem_range.mp hk, rfl⟩
  · obtain ⟨o, ho, hw⟩ := List.mem_filterMap.mp hw
    exact hall o ho w hw

end Graph

/-! ## Both graphs -/

section

variable {target : Code} {displaced insert : Frozen} {above : Above} {inputs outputs : Interface}
  {fs : List Feeder} {wires : List (EndPoint × EndPoint)} {reg : Registry}

/-- The fetal code can be wired from its inputs and to its outputs. -/
theorem fetalCode_total (above : Above)
    (hin : ∀ w ∈ wires, ∃ j < inputs.length, ∃ k < displaced.inputs.length,
      w = (⟨.I, j⟩, ⟨above.displacedRow, k⟩))
    (hout : outputs.length = displaced.outputs.length + insert.outputs.length) :
    ∃ c, fetalCode above displaced insert inputs outputs wires = .ok c := by
  let g := ((Graph.standard inputs outputs).setRow above.insertedRow insert.rowSides).setRow
    above.displacedRow displaced.rowSides
  have hdisplaced : g.row? above.displacedRow = some displaced.rowSides := by
    rw [Graph.row?_setRow, if_pos rfl]
  have hinserted : g.row? above.insertedRow = some insert.rowSides := by
    rw [Graph.row?_setRow, if_neg Above.insertedRow_ne_displacedRow, Graph.row?_setRow, if_pos rfl]
  have hO : g.row? .O = some (.ofDst outputs) := by
    cases above <;> rfl
  have hI : g.row? .I = some (.ofSrc inputs) := by
    cases above <;> rfl
  have hexist (w : EndPoint × EndPoint) (hw : w ∈ wires ++ passThrough above.displacedRow .O
      displaced.outputs.length ++ (List.range insert.outputs.length).map fun k =>
        ((⟨above.insertedRow, k⟩, ⟨.O, displaced.outputs.length + k⟩) : EndPoint × EndPoint)) :
      g.exists? .src w.1 = true ∧ g.exists? .dst w.2 = true := by
    rcases List.mem_append.mp hw with hw | hw
    · rcases List.mem_append.mp hw with hw | hw
      · obtain ⟨j, hj, k, hk, rfl⟩ := hin w hw
        exact ⟨(Graph.exists?_of_row? hI).mpr hj, (Graph.exists?_of_row? hdisplaced).mpr hk⟩
      · obtain ⟨k, hk, hsrc, hdst⟩ := mem_passThrough.mp hw
        rw [hsrc, hdst, Graph.exists?_of_row? hdisplaced, Graph.exists?_of_row? hO]
        exact ⟨hk, Nat.lt_of_lt_of_le hk (hout ▸ Nat.le_add_right _ _)⟩
    · obtain ⟨k, hk, rfl⟩ := List.mem_map.mp hw
      have hk := List.mem_range.mp hk
      rw [Graph.exists?_of_row? hinserted, Graph.exists?_of_row? hO]
      exact ⟨hk, show displaced.outputs.length + k < outputs.length by omega⟩
  obtain ⟨g', hg'⟩ := Graph.connectAll_total hexist
  unfold fetalCode Code.connectAll
  simp only [Code.graph_setSub]
  exact ⟨_, bind_eq_ok.mpr ⟨g', hg', rfl⟩⟩

/-- The vacated row can be wired to what fed it and to what it fed. -/
theorem vacate_total (hs : target.Sound reg) (hk : target.kind = .standard)
    (hd : target.sub? above.replacedRow = some displaced)
    (hfs : target.graph.feeders above.replacedRow = .ok fs) (hin : inputs.length = fs.length)
    (hout : displaced.outputs.length ≤ outputs.length) :
    ∃ c, vacate target above.replacedRow fs inputs outputs = .ok c := by
  have hrow : (target.graph.setRow above.replacedRow ⟨inputs, outputs⟩).row? above.replacedRow =
      some ⟨inputs, outputs⟩ := by
    rw [Graph.row?_setRow, if_pos rfl]
  have hold : target.graph.row? above.replacedRow = some displaced.rowSides := by
    rw [hs.row?_eq (by rw [hk]; decide) Above.isSub_replacedRow, hd]
    rfl
  have hkept {p : EndPoint} {a : Side} (hp : p.row ≠ above.replacedRow) :=
    Graph.exists?_setRow (g := target.graph) (s := ⟨inputs, outputs⟩) (a := a) hp
  have hloop := hs.loopless above.replacedRow
  have hexist (w : EndPoint × EndPoint)
      (hw : w ∈ ((target.graph.wiresOutOf above.replacedRow).map fun e => (e.2, e.1)) ++
        fs.zipIdx.map fun e => (e.1.point, (⟨above.replacedRow, e.2⟩ : EndPoint))) :
      (target.graph.setRow above.replacedRow ⟨inputs, outputs⟩).exists? .src w.1 = true ∧
        (target.graph.setRow above.replacedRow ⟨inputs, outputs⟩).exists? .dst w.2 = true := by
    rcases List.mem_append.mp hw with hw | hw
    · -- an old consumer keeps an output of the displaced code
      obtain ⟨⟨dst, ⟨r, k⟩⟩, hmem, rfl⟩ := List.mem_map.mp hw
      obtain ⟨hw, hr⟩ := List.mem_filter.mp hmem
      have hsrc := Graph.mem_wires.mp hw
      obtain rfl : r = above.replacedRow := of_decide_eq_true hr
      obtain ⟨hdst, hlt⟩ := hs.anchored _ _ hsrc
      rw [Graph.exists?_of_row? hold] at hlt
      rw [Graph.exists?_of_row? hrow, hkept (hloop _ _ hsrc rfl)]
      exact ⟨Nat.lt_of_lt_of_le hlt hout, hdst⟩
    · -- a feeder is in another row
      obtain ⟨⟨f, k⟩, hf, rfl⟩ := List.mem_map.mp hw
      have hf := List.mem_zipIdx_iff_getElem?.mp hf
      obtain ⟨l, hl⟩ := ((Graph.feeders_ok hfs).1.mem_iff f.point).mp
        (List.mem_map_of_mem (List.mem_of_getElem? hf))
      have hne : f.point.row ≠ above.replacedRow := fun hr => hloop _ _ hl hr rfl
      rw [Graph.exists?_of_row? hrow, hkept hne]
      exact ⟨(hs.anchored _ _ hl).2, hin ▸ (List.getElem?_eq_some_iff.mp hf).1⟩
  obtain ⟨g, hg⟩ := Graph.connectAll_total hexist
  unfold vacate
  exact ⟨_, bind_eq_ok.mpr ⟨g, hg, rfl⟩⟩

end

/-! ## Splices -/

namespace Code

variable {target : Code} {insert : Frozen} {above : Above} {reg : Registry} {row : Row}

/-- The fetal code of a splice can have the outputs of both codes, and an input for each feeder. -/
def HasRoom (target : Code) (insert : Frozen) (above : Above) : Prop :=
  ∀ displaced fs, target.sub? above.replacedRow = some displaced →
    target.graph.feeders above.replacedRow = .ok fs →
    displaced.outputs.elements + insert.outputs.elements ≤ maxElements ∧
      elementsOf (fs.map Feeder.ept) ≤ maxElements

theorem hasRoom_of_splice (x : Splice target insert above) :
    target.HasRoom insert above := by
  intro displaced fs hd hfs
  cases x.displaced_eq.symm.trans hd
  cases x.feeders_eq.symm.trans hfs
  constructor
  · have hfits := x.outputs.fits
    rwa [x.epts_outputs, elementsOf_append] at hfits
  · have hfits := x.inputs.fits
    rwa [Interface.ofList_ok x.inputs_eq] at hfits

/-- A sound standard code has a sub-code to displace. -/
theorem exists_displaced (hs : target.Sound reg) (hk : target.kind = .standard) (above : Above) :
    ∃ displaced, target.sub? above.replacedRow = some displaced := by
  have hrule : target.graph.kind.presence above.replacedRow = .required := by
    rw [show target.graph.kind = .standard from hk]
    cases above <;> rfl
  have hrow := Graph.obeys_iff.mpr
    ((Graph.rowsViolation?_eq_none_iff.mp hs.rows).2 above.replacedRow)
  rw [hrule] at hrow
  have hsome : (target.graph.row? above.replacedRow).isSome = true := hrow
  rw [hs.row?_eq (by rw [hk]; decide) Above.isSub_replacedRow, Option.isSome_map] at hsome
  exact Option.isSome_iff_exists.mp hsome

theorem restructure_total (hs : target.Sound reg) (hk : target.kind = .standard)
    (hb : insert.kind ≠ .empty) (h : target.HasRoom insert above) :
    ∃ i, target.restructure insert above = .ok i := by
  obtain ⟨displaced, hd⟩ := exists_displaced hs hk above
  obtain ⟨fs, hfs⟩ := Graph.feeders_total hs.anchored above.replacedRow
  obtain ⟨hroom, hroom'⟩ := h displaced fs hd hfs
  obtain ⟨outputs, ho⟩ := Interface.foldlM_push_total hroom
  obtain ⟨inputs, hi⟩ := Interface.ofList_total hroom'
  have houtputs : outputs.length = displaced.outputs.length + insert.outputs.length := by
    rw [Interface.length, Interface.foldlM_push_ok ho, List.length_append]
    rfl
  have hinputs : inputs.length = fs.length := by
    rw [Interface.length, Interface.ofList_ok hi, List.length_map]
  obtain ⟨wires, hw, hwires⟩ :=
    Graph.fetalInputs_total hfs above.displacedRow displaced.inputs.length
  obtain ⟨fetal, hf⟩ := fetalCode_total above (hinputs ▸ hwires) houtputs
  obtain ⟨code, hc⟩ := vacate_total hs hk hd hfs hinputs (houtputs ▸ Nat.le_add_right _ _)
  refine ⟨⟨code, some ⟨above.replacedRow, fetal⟩⟩, ?_⟩
  unfold restructure
  simp only [if_neg (not_not.mpr hk), if_neg hb, hd]
  exact bind_eq_ok.mpr ⟨fs, hfs, bind_eq_ok.mpr ⟨outputs, ho, bind_eq_ok.mpr ⟨inputs, hi,
    bind_eq_ok.mpr ⟨wires, hw, bind_eq_ok.mpr ⟨fetal, hf, bind_eq_ok.mpr ⟨code, hc, rfl⟩⟩⟩⟩⟩⟩

/-- A splice into a sound code fails only if the inserted code has no body or the interfaces of
the fetal code have no room. -/
theorem restructure_ok_iff (hs : target.Sound reg) (hk : target.kind = .standard) :
    (∃ i, target.restructure insert above = .ok i) ↔
      insert.kind ≠ .empty ∧ target.HasRoom insert above := by
  constructor
  · rintro ⟨i, hi⟩
    obtain ⟨x, -⟩ := restructure_ok hi
    exact ⟨x.body, hasRoom_of_splice x⟩
  · exact fun ⟨hb, hroom⟩ => restructure_total hs hk hb hroom

end Code

end GeneGraph
