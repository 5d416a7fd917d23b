import GeneGraph.Proofs.Splicing

/-!
# Grafting a spliced code

Freezing the fetal code moves its outputs to their places, and grafting moves the sources of the
vacated row to the same places. All else is canonical already, so the assembled code has the
connections of the vacated target and the fetal code those of the fetal graph, with the outputs
renamed alike: `Splice.keepsWires`.
-/

namespace GeneGraph

/-- Inserting the types that are there already changes nothing. -/
theorem insertMissing_self (row : Row) (l : List Ept) (g : Graph) :
    insertMissing row l l g = (.ok [], g) := by
  induction l generalizing g with
  | nil => rfl
  | cons e l ih => rw [insertMissing, if_pos List.mem_cons_self, List.erase_cons_head, ih]

namespace Splice

variable {target : Code} {insert : Frozen} {above : Above} (x : Splice target insert above)
  {p dst src : EndPoint} {r : Row} {n : Nat}

/-! ## The frozen fetal code -/

theorem interface_fetal_I : x.fetal.graph.interface .I .src = x.inputs := by
  rw [Graph.interface_of_row? (s := .ofSrc x.inputs)]
  · rfl
  · rw [row?_fetal]
    cases above <;> rfl

theorem interface_fetal_O : x.fetal.graph.interface .O .dst = x.outputs := by
  rw [Graph.interface_of_row? (s := .ofDst x.outputs)]
  · rfl
  · rw [row?_fetal]
    cases above <;> rfl

theorem inputs_freeze (n : Nat) : (x.fetal.freeze n).inputs = x.inputs := by
  show x.fetal.graph.reorder.interface .I .src = _
  rw [Graph.interface_reorder, x.interface_fetal_I,
    Interface.reorder_of_canonical x.inputs_canonical]

theorem outputs_freeze (n : Nat) : (x.fetal.freeze n).outputs = x.outputs.reorder := by
  show x.fetal.graph.reorder.interface .O .dst = _
  rw [Graph.interface_reorder, x.interface_fetal_O]

theorem rowSides_freeze (n : Nat) : (x.fetal.freeze n).rowSides = ⟨x.inputs, x.outputs.reorder⟩ :=
  congrArg₂ Sides.mk (x.inputs_freeze n) (x.outputs_freeze n)

/-- Only the outputs of the fetal code can be out of order. -/
theorem fetal_canonical (hd : x.displaced.Made) (hi : insert.Made) (row : Row) (a : Side)
    (h : ¬ (row = .O ∧ a = .dst)) : (x.fetal.graph.interface row a).isCanonical = true := by
  rw [Graph.interface_eq, x.row?_fetal]
  split
  · cases a with
    | src => exact hd.isCanonical .O .dst
    | dst => exact hd.isCanonical .I .src
  · split
    · cases a with
      | src => exact hi.isCanonical .O .dst
      | dst => exact hi.isCanonical .I .src
    · split
      · cases a with
        | src => rfl
        | dst => exact absurd ⟨‹_›, rfl⟩ h
      · split
        · cases a with
          | src => exact x.inputs_canonical
          | dst => rfl
        · cases a <;> rfl

/-- Apart from the outputs, destinations of the frozen fetal code keep their sources. -/
theorem sourceOf?_freeze (hd : x.displaced.Made) (hi : insert.Made) (h : p.row ≠ .O) :
    (x.fetal.freeze n).graph.sourceOf? p = x.fetal.graph.sourceOf? p := by
  have hm := (Graph.moves_reorder x.anchored_fetal).source_eq p
  have hsrc : x.fetal.graph.place .src = id := funext fun q =>
    Graph.place_of_canonical (x.fetal_canonical hd hi q.row .src fun hO => nomatch hO.2)
  rw [Graph.place_of_canonical (x.fetal_canonical hd hi p.row .dst fun hO => h hO.1), hsrc,
    Option.map_id] at hm
  exact hm

/-- An output of the frozen fetal code has its source at its place. -/
theorem sourceOf?_freeze_output (hd : x.displaced.Made) (hi : insert.Made) (k : Nat) :
    (x.fetal.freeze n).graph.sourceOf? ⟨.O, x.outputs.place k⟩ =
      x.fetal.graph.sourceOf? ⟨.O, k⟩ := by
  have hm := (Graph.moves_reorder x.anchored_fetal).source_eq ⟨.O, k⟩
  have hsrc : x.fetal.graph.place .src = id := funext fun q =>
    Graph.place_of_canonical (x.fetal_canonical hd hi q.row .src fun hO => nomatch hO.2)
  rw [hsrc, Option.map_id, Graph.place, x.interface_fetal_O] at hm
  exact hm

/-! ## The assembled code -/

/-- The vacated target with the frozen fetal code put into its row. -/
def grafted (n : Nat) : Code :=
  ({ x.code with graph := (x.code.graph.reorderSide above.replacedRow .src).2 } : Code).attach
    above.replacedRow (some (x.fetal.freeze n))

/-- Grafting the fetal code as it was spliced does not fail. -/
theorem graft_eq (n : Nat) :
    x.code.graft above.replacedRow (x.fetal.freeze n) = (.ok (), x.grafted n) := by
  have hrow : x.code.graph.row? above.replacedRow = some ⟨x.inputs, x.outputs⟩ := by
    rw [x.row?_code, if_pos rfl]
  have hins : insertMissing above.replacedRow
      (x.code.graph.interface above.replacedRow .dst).epts (x.fetal.freeze n).inputs.epts
      x.code.graph = (.ok [], x.code.graph) := by
    rw [x.inputs_freeze, Graph.interface_of_row? hrow]
    exact insertMissing_self _ _ _
  have hfit : (x.code.graph.reorderSide above.replacedRow .src).2.row? above.replacedRow =
      some (x.fetal.freeze n).rowSides := by
    rw [Graph.row?_reorderSide, if_pos rfl, hrow, x.rowSides_freeze]
    rfl
  unfold Code.graft
  rw [hins]
  simp only [hfit, List.isEmpty_nil, decide_true, Bool.and_true, if_true]
  rfl

/-- A splice can always be assembled. -/
theorem assemble_eq (n : Nat) :
    x.insertion.assemble n = .ok ((x.grafted n).freeze (n + 1)) := by
  have hcode : x.insertion.code = x.code := rfl
  have hfetal : x.insertion.fetal = some ⟨above.replacedRow, x.fetal⟩ := rfl
  simp only [Insertion.assemble, hcode, hfetal, x.graft_eq]

theorem sub?_grafted : (x.grafted n).sub? r =
    if r = above.replacedRow then some (x.fetal.freeze n) else target.sub? r := by
  rw [grafted, Code.sub?_attach Above.isSub_replacedRow]
  split
  · rfl
  · rw [Code.sub?_of_graph, x.sub?_code, if_neg ‹_›]

theorem row?_grafted : (x.grafted n).graph.row? r =
    if r = above.replacedRow then some ⟨x.inputs, x.outputs.reorder⟩
    else target.graph.row? r := by
  rw [grafted, Code.graph_attach, Graph.row?_reorderSide, x.row?_code]
  split <;> rfl

/-- Freezing finds all interfaces in order. -/
theorem graph_freeze (hc : ∀ row a, (target.graph.interface row a).isCanonical = true) (m : Nat) :
    ((x.grafted n).freeze m).graph = (x.grafted n).graph := by
  refine Graph.reorder_of_canonical fun row a => ?_
  rw [Graph.interface_eq, x.row?_grafted]
  split
  · cases a with
    | src => exact Interface.reorder_isCanonical _
    | dst => exact x.inputs_canonical
  · rw [← Graph.interface_eq]
    exact hc row a

/-- Where a source of the target is found in the assembled code. -/
def moved (p : EndPoint) : EndPoint :=
  if p.row = above.replacedRow then ⟨p.row, x.outputs.place p.index⟩ else p

theorem sourceOf?_grafted (ha : target.graph.Anchored)
    (hloop : target.graph.Loopless above.replacedRow) :
    (x.grafted n).graph.sourceOf? p =
      if p.row = above.replacedRow then x.feeders[p.index]?.map Feeder.point
      else (target.graph.sourceOf? p).map x.moved := by
  have hrow : x.code.graph.row? above.replacedRow = some ⟨x.inputs, x.outputs⟩ := by
    rw [x.row?_code, if_pos rfl]
  have hmoved : x.code.graph.placeAt above.replacedRow .src .src = x.moved := funext fun q => by
    unfold Graph.placeAt moved Graph.place
    by_cases hq : q.row = above.replacedRow
    · rw [if_pos ⟨hq, rfl⟩, if_pos hq, hq, Graph.interface_of_row? hrow]
      rfl
    · rw [if_neg fun h => hq h.1, if_neg hq]
  rw [grafted, Code.graph_attach,
    Graph.sourceOf?_reorderSide_src ((x.anchored_code ha hloop).anchoredAt _) hrow,
    x.sourceOf?_code hloop, hmoved]
  split
  · -- the feeders are in other rows
    cases hf : x.feeders[p.index]? with
    | none => rfl
    | some f =>
      obtain ⟨k, hk⟩ := x.exists_feeder.mp ⟨p.index, by rw [hf]; rfl⟩
      have hne : f.point.row ≠ above.replacedRow := fun hr => hloop _ _ hk hr rfl
      exact congrArg some (if_neg hne)
  · rfl

end Splice

/-! ## What the program keeps -/

theorem GraphKind.not_isLegal_self (k : GraphKind) (row : Row) : k.isLegal row row = false := by
  cases k <;> cases row <;> rfl

/-- No row of a sound code feeds itself. -/
theorem Code.Sound.loopless {reg : Registry} {c : Code} (h : c.Sound reg) (row : Row) :
    c.graph.Loopless row := by
  intro dst src hs hsrc hdst
  have hl := h.legal dst src hs
  rw [hsrc, hdst, GraphKind.not_isLegal_self] at hl
  cases hl

/-- The wiring of a target `t`, whose sub-code `d` was displaced by a fetal code, is kept in the
fetal graph `fg` and the resultant `g`. -/
structure KeepsWires (above : Above) (t : Graph) (d insert : Frozen) (fg g : Graph) : Prop where
  /-- An input of the displaced code gets its source through an input of the fetal code. -/
  inputs : ∀ k src, t.sourceOf? ⟨above.replacedRow, k⟩ = some src → ∃ j,
    fg.sourceOf? ⟨above.displacedRow, k⟩ = some ⟨.I, j⟩ ∧
      g.sourceOf? ⟨above.replacedRow, j⟩ = some src
  open_inputs : ∀ k, t.sourceOf? ⟨above.replacedRow, k⟩ = none →
    fg.sourceOf? ⟨above.displacedRow, k⟩ = none
  /-- A consumer of the displaced code gets the same output through an output of the fetal code. -/
  consumers : ∀ p k, t.sourceOf? p = some ⟨above.replacedRow, k⟩ → ∃ k',
    g.sourceOf? p = some ⟨above.replacedRow, k'⟩ ∧
      fg.sourceOf? ⟨.O, k'⟩ = some ⟨above.displacedRow, k⟩
  others : ∀ p src, t.sourceOf? p = some src → p.row ≠ above.replacedRow →
    src.row ≠ above.replacedRow → g.sourceOf? p = some src
  /-- Each input of the fetal code has a source, and different inputs different sources. -/
  fed : ∀ j, fg.exists? .src ⟨.I, j⟩ = true → (g.sourceOf? ⟨above.replacedRow, j⟩).isSome
  distinct : ∀ j j' src, g.sourceOf? ⟨above.replacedRow, j⟩ = some src →
    g.sourceOf? ⟨above.replacedRow, j'⟩ = some src → j = j'
  /-- The outputs of the inserted code are there, and nothing uses them. -/
  inserted : ∀ k < insert.outputs.length, ∃ k',
    fg.sourceOf? ⟨.O, k'⟩ = some ⟨above.insertedRow, k⟩ ∧ ⟨above.replacedRow, k'⟩ ∈ g.unused
  /-- The fetal code lacks the sources of the inserted code and those that lacked before. -/
  unconnected : ∀ p, p ∈ fg.unconnected ↔
    (p.row = above.insertedRow ∧ p.index < insert.inputs.length) ∨
      (p.row = above.displacedRow ∧ p.index < d.inputs.length ∧
        t.sourceOf? ⟨above.replacedRow, p.index⟩ = none)

namespace Splice

variable {target : Code} {insert : Frozen} {above : Above} (x : Splice target insert above)
  {p dst src : EndPoint} {r : Row} {reg : Registry} {n : Nat}

theorem row?_displaced (hs : target.Sound reg) :
    target.graph.row? above.replacedRow = some x.displaced.rowSides := by
  rw [hs.row?_eq _ Above.isSub_replacedRow, x.displaced_eq]
  · rfl
  · rw [x.kind_eq]
    decide

/-- What feeds the displaced code feeds one of its inputs. -/
theorem lt_of_sourceOf? (hs : target.Sound reg) {k : Nat}
    (h : target.graph.sourceOf? ⟨above.replacedRow, k⟩ = some src) :
    k < x.displaced.inputs.length := by
  have hk := (hs.anchored _ _ h).1
  rw [Graph.exists?, Graph.count, Graph.interface_of_row? (x.row?_displaced hs)] at hk
  exact of_decide_eq_true hk

theorem lt_of_consumer (hs : target.Sound reg) {k : Nat}
    (h : target.graph.sourceOf? p = some ⟨above.replacedRow, k⟩) :
    k < x.displaced.outputs.length := by
  have hk := (hs.anchored _ _ h).2
  rw [Graph.exists?, Graph.count, Graph.interface_of_row? (x.row?_displaced hs)] at hk
  exact of_decide_eq_true hk

/-- The input of the fetal code that stands for a source. -/
theorem sourceOf?_fetal_displaced (hs : target.Sound reg) {k j : Nat}
    (h : target.graph.sourceOf? ⟨above.replacedRow, k⟩ = some src)
    (hj : x.feeders[j]?.map Feeder.point = some src) :
    x.fetal.graph.sourceOf? ⟨above.displacedRow, k⟩ = some ⟨.I, j⟩ :=
  x.sourceOf?_fetal_eq_some_iff.mpr
    (Or.inl (x.mem_wires.mpr ⟨k, j, src, x.lt_of_sourceOf? hs h, h, hj, rfl, rfl⟩))

theorem sourceOf?_fetal_open {k : Nat}
    (h : target.graph.sourceOf? ⟨above.replacedRow, k⟩ = none) :
    x.fetal.graph.sourceOf? ⟨above.displacedRow, k⟩ = none := by
  refine Option.eq_none_iff_forall_ne_some.mpr fun src hsrc => ?_
  rcases x.sourceOf?_fetal_eq_some_iff.mp hsrc with hw | hw
  · obtain ⟨l, j, s, -, hl, -, -, he⟩ := x.mem_wires.mp hw
    cases he
    rw [h] at hl
    cases hl
  · rcases x.mem_exposed.mp hw with ⟨l, -, -, he⟩ | ⟨l, -, -, he⟩ <;>
      exact above.displacedRow_ne_O (congrArg EndPoint.row he)

theorem sourceOf?_fetal_inserted (k : Nat) :
    x.fetal.graph.sourceOf? ⟨above.insertedRow, k⟩ = none := by
  refine Option.eq_none_iff_forall_ne_some.mpr fun src hsrc => ?_
  rcases x.sourceOf?_fetal_eq_some_iff.mp hsrc with hw | hw
  · obtain ⟨l, j, s, -, -, -, -, he⟩ := x.mem_wires.mp hw
    exact Above.insertedRow_ne_displacedRow (congrArg EndPoint.row he)
  · rcases x.mem_exposed.mp hw with ⟨l, -, -, he⟩ | ⟨l, -, -, he⟩ <;>
      exact above.insertedRow_ne_O (congrArg EndPoint.row he)

theorem sourceOf?_fetal_output {k : Nat} (h : k < x.displaced.outputs.length) :
    x.fetal.graph.sourceOf? ⟨.O, k⟩ = some ⟨above.displacedRow, k⟩ :=
  x.sourceOf?_fetal_eq_some_iff.mpr (Or.inr (x.mem_exposed.mpr (Or.inl ⟨k, h, rfl, rfl⟩)))

theorem sourceOf?_fetal_new_output {k : Nat} (h : k < insert.outputs.length) :
    x.fetal.graph.sourceOf? ⟨.O, x.displaced.outputs.length + k⟩ = some ⟨above.insertedRow, k⟩ :=
  x.sourceOf?_fetal_eq_some_iff.mpr (Or.inr (x.mem_exposed.mpr (Or.inr ⟨k, h, rfl, rfl⟩)))

theorem exists?_fetal : x.fetal.graph.exists? .dst p = true ↔
    (p.row = above.displacedRow ∧ p.index < x.displaced.inputs.length) ∨
      (p.row = above.insertedRow ∧ p.index < insert.inputs.length) ∨
        (p.row = .O ∧ p.index < x.outputs.length) := by
  have hne : above.insertedRow ≠ above.displacedRow := Above.insertedRow_ne_displacedRow
  have hd := above.displacedRow_ne_O
  have hi := above.insertedRow_ne_O
  rw [Graph.exists?, Graph.count, Graph.interface_eq, x.row?_fetal, decide_eq_true_iff]
  by_cases hrd : p.row = above.displacedRow
  · rw [if_pos hrd]
    simp only [Option.getD_some, hrd, hne.symm, hd, true_and, false_and, or_self, or_false]
    rfl
  by_cases hri : p.row = above.insertedRow
  · rw [if_neg hrd, if_pos hri]
    simp only [Option.getD_some, hri, hne, hi, true_and, false_and, or_false, false_or]
    rfl
  by_cases hrO : p.row = .O
  · rw [if_neg hrd, if_neg hri, if_pos hrO]
    simp only [Option.getD_some, hrO, hd.symm, hi.symm, true_and, false_and, false_or]
    rfl
  · rw [if_neg hrd, if_neg hri, if_neg hrO]
    simp only [hrd, hri, hrO, false_and, or_self, iff_false, Nat.not_lt]
    split <;> exact Nat.zero_le _

/-- Every output of the fetal graph has a source. -/
theorem output_fed {k : Nat} (h : k < x.outputs.length) :
    (x.fetal.graph.sourceOf? ⟨.O, k⟩).isSome := by
  by_cases hk : k < x.displaced.outputs.length
  · rw [x.sourceOf?_fetal_output hk]
    rfl
  · rw [x.length_outputs] at h
    obtain ⟨l, rfl⟩ := Nat.exists_eq_add_of_le (Nat.le_of_not_lt hk)
    rw [x.sourceOf?_fetal_new_output (by omega)]
    rfl

/-- The destinations of the frozen fetal code that have no source. -/
theorem mem_unconnected_freeze (hd : x.displaced.Made) (hi : insert.Made) :
    p ∈ (x.fetal.freeze n).graph.unconnected ↔
      (p.row = above.insertedRow ∧ p.index < insert.inputs.length) ∨
        (p.row = above.displacedRow ∧ p.index < x.displaced.inputs.length ∧
          target.graph.sourceOf? ⟨above.replacedRow, p.index⟩ = none) := by
  obtain ⟨row, k⟩ := p
  rw [Graph.mem_unconnected]
  show x.fetal.graph.reorder.exists? .dst _ = true ∧ _ ↔ _
  rw [Graph.exists?_reorder, x.exists?_fetal]
  constructor
  · rintro ⟨⟨rfl, hk⟩ | ⟨rfl, hk⟩ | ⟨rfl, hk⟩, hs⟩
    · rw [x.sourceOf?_freeze hd hi above.displacedRow_ne_O] at hs
      refine Or.inr ⟨rfl, hk, ?_⟩
      by_contra hne
      obtain ⟨src, hsrc⟩ := Option.ne_none_iff_exists'.mp hne
      obtain ⟨j, hj⟩ := x.exists_feeder.mpr ⟨k, hsrc⟩
      have hw := x.sourceOf?_fetal_eq_some_iff.mpr
        (Or.inl (x.mem_wires.mpr ⟨k, j, src, hk, hsrc, hj, rfl, rfl⟩))
      rw [hs] at hw
      cases hw
    · exact Or.inl ⟨rfl, hk⟩
    · obtain ⟨l, rfl⟩ := x.outputs.place_surjective k
      rw [x.sourceOf?_freeze_output hd hi] at hs
      have hfed := x.output_fed (Interface.place_lt_iff.mp hk)
      rw [hs] at hfed
      cases hfed
  · rintro (⟨rfl, hk⟩ | ⟨rfl, hk, hs⟩)
    · refine ⟨Or.inr (Or.inl ⟨rfl, hk⟩), ?_⟩
      rw [x.sourceOf?_freeze hd hi above.insertedRow_ne_O]
      exact x.sourceOf?_fetal_inserted k
    · refine ⟨Or.inl ⟨rfl, hk⟩, ?_⟩
      rw [x.sourceOf?_freeze hd hi above.displacedRow_ne_O]
      exact x.sourceOf?_fetal_open hs

theorem moved_of_ne (h : p.row ≠ above.replacedRow) : x.moved p = p := if_neg h

theorem moved_replaced (k : Nat) :
    x.moved ⟨above.replacedRow, k⟩ = ⟨above.replacedRow, x.outputs.place k⟩ := if_pos rfl

theorem moved_row : (x.moved p).row = p.row := by
  unfold moved
  split <;> rfl

/-- Freezing and grafting rename the outputs alike, so all connections are kept. -/
theorem keepsWires (hs : target.Sound reg) (hd : x.displaced.Made) (hi : insert.Made) :
    KeepsWires above target.graph x.displaced insert (x.fetal.freeze n).graph
      (x.grafted n).graph where
  inputs k src h := by
    obtain ⟨j, hj⟩ := x.exists_feeder.mpr ⟨k, h⟩
    refine ⟨j, ?_, ?_⟩
    · rw [x.sourceOf?_freeze hd hi above.displacedRow_ne_O]
      exact x.sourceOf?_fetal_displaced hs h hj
    · rw [x.sourceOf?_grafted hs.anchored (hs.loopless _), if_pos rfl]
      exact hj
  open_inputs k h := by
    rw [x.sourceOf?_freeze hd hi above.displacedRow_ne_O]
    exact x.sourceOf?_fetal_open h
  consumers p k h := by
    refine ⟨x.outputs.place k, ?_, ?_⟩
    · rw [x.sourceOf?_grafted hs.anchored (hs.loopless _), if_neg (hs.loopless _ _ _ h rfl), h,
        Option.map_some, x.moved_replaced]
    · rw [x.sourceOf?_freeze_output hd hi]
      exact x.sourceOf?_fetal_output (x.lt_of_consumer hs h)
  others p src h hp hsrc := by
    rw [x.sourceOf?_grafted hs.anchored (hs.loopless _), if_neg hp, h, Option.map_some,
      x.moved_of_ne hsrc]
  fed j hj := by
    have hj : x.fetal.graph.reorder.exists? .src ⟨.I, j⟩ = true := hj
    rw [Graph.exists?_reorder, Graph.exists?, Graph.count, x.interface_fetal_I,
      x.length_inputs] at hj
    rw [x.sourceOf?_grafted hs.anchored (hs.loopless _), if_pos rfl, Option.isSome_map,
      List.getElem?_eq_getElem (of_decide_eq_true hj)]
    rfl
  distinct j j' src hj hj' := by
    rw [x.sourceOf?_grafted hs.anchored (hs.loopless _), if_pos rfl] at hj hj'
    exact x.feeder_injective hj hj'
  inserted k hk := by
    have hlt : x.displaced.outputs.length + k < x.outputs.length := by
      rw [x.length_outputs]
      omega
    refine ⟨x.outputs.place (x.displaced.outputs.length + k), ?_, ?_⟩
    · rw [x.sourceOf?_freeze_output hd hi]
      exact x.sourceOf?_fetal_new_output hk
    · refine Graph.mem_unused.mpr ⟨?_, fun p hp => ?_⟩
      · rw [Graph.exists?, Graph.count, Graph.interface_eq, x.row?_grafted, if_pos rfl]
        exact decide_eq_true ((Interface.length_reorder _).symm ▸ Interface.place_lt_iff.mpr hlt)
      · rw [x.sourceOf?_grafted hs.anchored (hs.loopless _)] at hp
        split at hp
        · -- no feeder stands in the row
          obtain ⟨l, hl⟩ := x.exists_feeder.mp ⟨p.index, hp⟩
          exact hs.loopless _ _ _ hl rfl rfl
        · -- an old consumer has an output of the displaced code
          obtain ⟨⟨row, l⟩, hsrc, hm⟩ := Option.map_eq_some_iff.mp hp
          obtain rfl : row = above.replacedRow := x.moved_row.symm.trans (congrArg EndPoint.row hm)
          rw [x.moved_replaced] at hm
          have hidx := x.outputs.place_injective (congrArg EndPoint.index hm)
          have := x.lt_of_consumer hs hsrc
          omega
  unconnected _ := x.mem_unconnected_freeze hd hi

end Splice

/-- Restructuring keeps the program: a target that is valid or lacks sources gives an assembled
code and a fetal code in which every connection of the target is found again. -/
theorem restructure_keepsWires {reg : Registry} {above : Above} {t insert g : Frozen}
    {i : Insertion} {serial : Nat} (ht : t.Made) (hi : insert.Made)
    (hv : t.code.violation? reg = none ∨
      ∃ dst row, t.code.violation? reg = some (.incomplete dst row))
    (hr : t.code.restructure insert above = .ok i) (hg : i.assemble serial = .ok g) :
    ∃ d f, t.code.sub? above.replacedRow = some d ∧ g.code.sub? above.replacedRow = some f ∧
      f.code.sub? above.displacedRow = some d ∧ f.code.sub? above.insertedRow = some insert ∧
        KeepsWires above t.graph d insert f.graph g.graph := by
  obtain ⟨x, rfl⟩ := Code.restructure_ok hr
  rw [x.assemble_eq] at hg
  obtain rfl := Except.ok.inj hg
  have hs : t.code.Sound reg := by
    rcases hv with hv | ⟨dst, row, hv⟩
    · exact (Code.violation?_eq_none_iff.mp hv).1
    · exact Code.sound_of_incomplete hv
  have hd : x.displaced.Made := ht.subs_made _ (Code.mem_subs.mpr ⟨_, x.displaced_eq⟩)
  obtain ⟨-, -, -, hsub⟩ := x.connected
  refine ⟨x.displaced, x.fetal.freeze serial, x.displaced_eq, ?_, ?_, ?_, ?_⟩
  · exact (x.sub?_grafted (n := serial)).trans (if_pos rfl)
  · exact (hsub _).trans (if_pos rfl)
  · exact (hsub _).trans ((if_neg Above.insertedRow_ne_displacedRow).trans (if_pos rfl))
  · have hgraph := x.graph_freeze (n := serial) (fun row a => ht.isCanonical row a) (serial + 1)
    rw [hgraph]
    exact x.keepsWires hs hd hi

theorem chain_made : Frozen.chain.Made :=
  .freeze _ _ (pair_subs_made (.single 3) (.single 3) (codon_made (.single 3) (.single 3))
    (codon_made (.single 3) (.single 3)))

/-- What is spliced in above the second codon has the first one for its only feeder. -/
theorem restructure_keepsWires_chain :
    ∃ i g d f, Frozen.chain.code.restructure (.codon .empty (.single 3)) .B = .ok i ∧
      i.assemble 1 = .ok g ∧ Frozen.chain.code.sub? .B = some d ∧ g.code.sub? .B = some f ∧
        KeepsWires .B Frozen.chain.graph d (.codon .empty (.single 3)) f.graph g.graph := by
  have hv : Frozen.chain.code.violation? .empty = none := by decide +kernel
  have hok : ((Frozen.chain.code.restructure (.codon .empty (.single 3)) .B).bind
      fun i => i.assemble 1).toOption.map Frozen.kind = some .standard := by decide +kernel
  obtain ⟨g, h, -⟩ := toOption_map_eq_some.mp hok
  obtain ⟨i, hr, hg⟩ := bind_eq_ok.mp h
  obtain ⟨d, f, hd, hf, -, -, hk⟩ :=
    restructure_keepsWires chain_made (codon_made _ _) (Or.inl hv) hr hg
  exact ⟨i, g, d, f, hr, hg, hd, hf, hk⟩

end GeneGraph
