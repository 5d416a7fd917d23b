import GeneGraph.Proofs.Freezing
import GeneGraph.Proofs.Steps

/-!
# How a splice is wired

A splice makes two graphs: the fetal graph of the displaced and the inserted code, and the target
with a row vacated for it. `Splice` has all that is computed on the way, and the look-ups of
both graphs are put in terms of the feeders, the distinct sources that fed the displaced code in
the order of their types.
-/

namespace GeneGraph

/-! ## Interfaces from lists -/

namespace Interface

variable {i i' : Interface} {l : List Ept}

theorem foldlM_push_ok (h : l.foldlM push i = .ok i') : i'.epts = i.epts ++ l := by
  induction l generalizing i with
  | nil => cases h; exact (List.append_nil _).symm
  | cons e l ih =>
    rw [List.foldlM_cons] at h
    obtain ⟨i₁, he, h⟩ := bind_eq_ok.mp h
    rw [ih h, push_ok he, List.append_assoc, List.singleton_append]

theorem ofList_ok (h : ofList l = .ok i) : i.epts = l := foldlM_push_ok h

end Interface

/-! ## Feeders -/

/-- Each source of `S` is among the feeders once, with the type that it delivers. -/
structure Feeders (g : Graph) (S : EndPoint → Prop) (fs : List Feeder) : Prop where
  nodup : (fs.map Feeder.point).Nodup
  mem_iff : ∀ p, p ∈ fs.map Feeder.point ↔ S p
  delivered : ∀ f ∈ fs, g.delivered f.point = some f.ept

namespace Feeders

variable {g : Graph} {S : EndPoint → Prop} {fs fs' : List Feeder} {dst src : EndPoint}

theorem perm (h : Feeders g S fs) (hp : fs'.Perm fs) : Feeders g S fs' where
  nodup := (hp.map _).nodup_iff.mpr h.nodup
  mem_iff p := (hp.map _).mem_iff.trans (h.mem_iff p)
  delivered f hf := h.delivered f (hp.mem_iff.mp hf)

theorem add (h : Feeders g S fs) (hadd : Feeder.add g fs dst src = .ok fs') :
    Feeders g (fun p => S p ∨ p = src) fs' := by
  rw [Feeder.add] at hadd
  split at hadd
  · rename_i hany
    cases hadd
    obtain ⟨f, hf, hp⟩ := List.any_eq_true.mp hany
    have hsrc : S src := (h.mem_iff src).mp
      (List.mem_map.mpr ⟨f, hf, of_decide_eq_true hp⟩)
    refine ⟨h.nodup, fun p => (h.mem_iff p).trans ⟨Or.inl, ?_⟩, h.delivered⟩
    rintro (hp | rfl)
    · exact hp
    · exact hsrc
  · rename_i hany
    have hnew : src ∉ fs.map Feeder.point := by
      intro hmem
      obtain ⟨f, hf, hp⟩ := List.mem_map.mp hmem
      exact hany (List.any_eq_true.mpr ⟨f, hf, decide_eq_true hp⟩)
    split at hadd
    · cases hadd
    · rename_i e he
      cases hadd
      refine ⟨?_, fun p => ?_, fun f hf => ?_⟩
      · rw [List.map_append]
        exact List.nodup_append'.mpr ⟨h.nodup, List.nodup_singleton _,
          List.disjoint_singleton.mpr hnew⟩
      · rw [List.map_append, List.mem_append, h.mem_iff, List.map_singleton, List.mem_singleton]
      · rcases List.mem_append.mp hf with hf | hf
        · exact h.delivered f hf
        · rw [List.mem_singleton.mp hf]
          exact he

theorem foldlM_add (h : Feeders g S fs) {wires : List (EndPoint × EndPoint)}
    (hadd : wires.foldlM (fun fs e => Feeder.add g fs e.1 e.2) fs = .ok fs') :
    Feeders g (fun p => S p ∨ ∃ e ∈ wires, e.2 = p) fs' := by
  induction wires generalizing S fs with
  | nil =>
    cases hadd
    exact ⟨h.nodup, fun p => (h.mem_iff p).trans (by simp), h.delivered⟩
  | cons e wires ih =>
    rw [List.foldlM_cons] at hadd
    obtain ⟨fs₁, he, hadd⟩ := bind_eq_ok.mp hadd
    have h' := ih (h.add he) hadd
    refine ⟨h'.nodup, fun p => (h'.mem_iff p).trans ?_, h'.delivered⟩
    simp only [or_assoc, List.exists_mem_cons_iff, @eq_comm _ p]

end Feeders

namespace Graph

variable {g : Graph} {row : Row} {fs : List Feeder}

/-- The feeders of a row are the sources of its destinations, in the order of their types. -/
theorem feeders_ok (h : g.feeders row = .ok fs) :
    Feeders g (fun src => ∃ k, g.sourceOf? ⟨row, k⟩ = some src) fs ∧ Ascending Feeder.ept fs := by
  rw [feeders] at h
  obtain ⟨fs₀, h₀, h⟩ := bind_eq_ok.mp h
  cases h
  have hfs : Feeders g (fun _ => False) [] :=
    ⟨List.nodup_nil, fun p => by simp, fun f hf => absurd hf List.not_mem_nil⟩
  have hfs₀ := hfs.foldlM_add h₀
  have hS : ∀ src, (False ∨ ∃ e ∈ g.wiresInto row, e.2 = src) ↔
      ∃ k, g.sourceOf? ⟨row, k⟩ = some src := by
    intro src
    rw [false_or]
    constructor
    · rintro ⟨⟨⟨r, k⟩, s⟩, he, rfl⟩
      obtain ⟨hmem, hr⟩ := List.mem_filter.mp he
      obtain rfl : r = row := of_decide_eq_true hr
      exact ⟨k, mem_wires.mp hmem⟩
    · rintro ⟨k, hk⟩
      exact ⟨(⟨row, k⟩, src), List.mem_filter.mpr ⟨mem_wires.mpr hk, decide_eq_true rfl⟩, rfl⟩
  refine ⟨Feeders.perm ⟨hfs₀.nodup, fun p => (hfs₀.mem_iff p).trans (hS p), hfs₀.delivered⟩
    (stableSort_perm _ _), stableSort_ascending _ _⟩

end Graph

/-! ## Splices -/

/-- All that is computed when a code is spliced into a target. -/
structure Splice (target : Code) (insert : Frozen) (above : Above) where
  displaced : Frozen
  feeders : List Feeder
  outputs : Interface
  inputs : Interface
  /-- The connections from the inputs of the fetal code to the displaced sub-code. -/
  wires : List (EndPoint × EndPoint)
  fetal : Code
  /-- The target with the row vacated. -/
  code : Code
  kind_eq : target.kind = .standard
  body : insert.kind ≠ .empty
  displaced_eq : target.sub? above.replacedRow = some displaced
  feeders_eq : target.graph.feeders above.replacedRow = .ok feeders
  outputs_eq : insert.outputs.epts.foldlM Interface.push displaced.outputs = .ok outputs
  inputs_eq : Interface.ofList (feeders.map Feeder.ept) = .ok inputs
  wires_eq : fetalInputs target.graph feeders above.replacedRow above.displacedRow
    displaced.inputs.length = .ok wires
  fetal_eq : fetalCode above displaced insert inputs outputs wires = .ok fetal
  code_eq : vacate target above.replacedRow feeders inputs outputs = .ok code

/-- What comes out of a splice. -/
def Splice.insertion {target : Code} {insert : Frozen} {above : Above}
    (x : Splice target insert above) : Insertion := ⟨x.code, some ⟨above.replacedRow, x.fetal⟩⟩

/-- A restructuring that succeeds is a splice. -/
theorem Code.restructure_ok {target : Code} {insert : Frozen} {above : Above} {i : Insertion}
    (h : target.restructure insert above = .ok i) :
    ∃ x : Splice target insert above, i = x.insertion := by
  unfold Code.restructure at h
  by_cases hk : target.kind ≠ .standard
  · simp only [if_pos hk] at h
    cases h
  simp only [if_neg hk] at h
  by_cases hb : insert.kind = .empty
  · simp only [if_pos hb] at h
    cases h
  simp only [if_neg hb] at h
  cases hd : target.sub? above.replacedRow with
  | none =>
    rw [hd] at h
    cases h
  | some displaced =>
    rw [hd] at h
    obtain ⟨fs, hfs, h⟩ := bind_eq_ok.mp h
    obtain ⟨outputs, ho, h⟩ := bind_eq_ok.mp h
    obtain ⟨inputs, hi, h⟩ := bind_eq_ok.mp h
    obtain ⟨wires, hw, h⟩ := bind_eq_ok.mp h
    obtain ⟨fetal, hf, h⟩ := bind_eq_ok.mp h
    obtain ⟨code, hc, h⟩ := bind_eq_ok.mp h
    cases h
    exact ⟨⟨displaced, fs, outputs, inputs, wires, fetal, code, not_not.mp hk, hb, hd, hfs, ho, hi,
      hw, hf, hc⟩, rfl⟩

/-! ## Sub-codes -/

namespace Above

variable {above : Above}

theorem isSub_replacedRow : above.replacedRow.isSub = true := by cases above <;> rfl

theorem isSub_displacedRow : above.displacedRow.isSub = true := by cases above <;> rfl

theorem isSub_insertedRow : above.insertedRow.isSub = true := by cases above <;> rfl

theorem displacedRow_ne_O (above : Above) : above.displacedRow ≠ .O := by cases above <;> decide

theorem insertedRow_ne_O (above : Above) : above.insertedRow ≠ .O := by cases above <;> decide

theorem insertedRow_ne_displacedRow : above.insertedRow ≠ above.displacedRow := by
  cases above <;> decide

end Above

namespace Code

variable {c c' : Code} {row r : Row} {f : Option Frozen} {ws : List (EndPoint × EndPoint)}

@[simp] theorem graph_attach : (c.attach row f).graph = c.graph := by cases row <;> rfl

@[simp] theorem sub?_ofGraph (g : Graph) (r : Row) : (ofGraph g).sub? r = none := by
  cases r <;> rfl

theorem sub?_of_graph (g : Graph) (r : Row) : ({ c with graph := g } : Code).sub? r = c.sub? r := by
  cases r <;> rfl

theorem sub?_attach (h : row.isSub = true) :
    (c.attach row f).sub? r = if r = row then f else c.sub? r := by
  cases row with
  | A => cases r <;> rfl
  | B => cases r <;> rfl
  | _ => cases h

theorem sub?_setSub {d : Frozen} (h : row.isSub = true) :
    (c.setSub row d).sub? r = if r = row then some d else c.sub? r := by
  rw [setSub, sub?_attach h, sub?_of_graph]

theorem graph_setSub (c : Code) (row : Row) (d : Frozen) :
    (c.setSub row d).graph = c.graph.setRow row d.rowSides := graph_attach

theorem connectAll_ok (h : c.connectAll ws = .ok c') :
    ∃ g, c.graph.connectAll ws = .ok g ∧ c' = { c with graph := g } := by
  obtain ⟨g, hg, h⟩ := bind_eq_ok.mp h
  cases h
  exact ⟨g, hg, rfl⟩

end Code

namespace Splice

variable {target : Code} {insert : Frozen} {above : Above} (x : Splice target insert above)

/-- The connections that the vacated row gets: its old consumers, and its feeders. -/
def rewired : List (EndPoint × EndPoint) :=
  ((target.graph.wiresOutOf above.replacedRow).map fun e => (e.2, e.1)) ++
    x.feeders.zipIdx.map fun e => (e.1.point, ⟨above.replacedRow, e.2⟩)

theorem vacated : ∃ g, (target.graph.setRow above.replacedRow ⟨x.inputs, x.outputs⟩).connectAll
    x.rewired = .ok g ∧
      x.code = ({ target with graph := g } : Code).attach above.replacedRow none := by
  obtain ⟨g, hg, h⟩ := bind_eq_ok.mp x.code_eq
  exact ⟨g, hg, (Except.ok.inj h).symm⟩

/-- The fetal graph before its connections. -/
def scaffold : Graph :=
  ((Graph.standard x.inputs x.outputs).setRow above.insertedRow insert.rowSides).setRow
    above.displacedRow x.displaced.rowSides

/-- The connections of the fetal graph from the codes to its outputs. -/
def exposed : List (EndPoint × EndPoint) :=
  passThrough above.displacedRow .O x.displaced.outputs.length ++
    (List.range insert.outputs.length).map fun k =>
      ((⟨above.insertedRow, k⟩, ⟨.O, x.displaced.outputs.length + k⟩) : EndPoint × EndPoint)

theorem connected : ∃ g, x.scaffold.connectAll (x.wires ++ x.exposed) = .ok g ∧
    x.fetal.graph = g ∧ ∀ r, x.fetal.sub? r = if r = above.displacedRow then some x.displaced
      else if r = above.insertedRow then some insert else none := by
  have h := x.fetal_eq
  unfold fetalCode at h
  simp only [List.append_assoc] at h
  obtain ⟨g, hg, hc⟩ := Code.connectAll_ok h
  rw [Code.graph_setSub, Code.graph_setSub] at hg
  refine ⟨g, hg, by rw [hc], fun r => ?_⟩
  rw [hc, Code.sub?_of_graph, Code.sub?_setSub Above.isSub_displacedRow,
    Code.sub?_setSub Above.isSub_insertedRow, Code.sub?_ofGraph]

theorem kind_fetal : x.fetal.graph.kind = .standard := by
  obtain ⟨g, hg, hgraph, -⟩ := x.connected
  rw [hgraph]
  exact (Graph.connectAll_ok hg).kind_eq

/-! ## Interfaces of a splice -/

theorem length_inputs : x.inputs.length = x.feeders.length := by
  rw [Interface.length, Interface.ofList_ok x.inputs_eq, List.length_map]

theorem get?_inputs (k : Nat) : x.inputs.get? k = x.feeders[k]?.map Feeder.ept := by
  rw [Interface.get?, Interface.ofList_ok x.inputs_eq, List.getElem?_map]

/-- The inputs of the fetal code are in the order of their types. -/
theorem inputs_canonical : x.inputs.isCanonical = true := by
  rw [Interface.isCanonical_iff, Interface.ofList_ok x.inputs_eq, Ascending, List.pairwise_map]
  exact (Graph.feeders_ok x.feeders_eq).2

theorem epts_outputs : x.outputs.epts = x.displaced.outputs.epts ++ insert.outputs.epts :=
  Interface.foldlM_push_ok x.outputs_eq

theorem length_outputs :
    x.outputs.length = x.displaced.outputs.length + insert.outputs.length := by
  rw [Interface.length, x.epts_outputs, List.length_append]
  rfl

/-- A source is among the feeders exactly if it fed the displaced code. -/
theorem exists_feeder {src : EndPoint} :
    (∃ j : Nat, x.feeders[j]?.map Feeder.point = some src) ↔
      ∃ k, target.graph.sourceOf? ⟨above.replacedRow, k⟩ = some src := by
  rw [← (Graph.feeders_ok x.feeders_eq).1.mem_iff, List.mem_iff_getElem?]
  simp only [List.getElem?_map]

/-- Different feeders are different sources. -/
theorem feeder_injective {j j' : Nat} {src : EndPoint}
    (hj : x.feeders[j]?.map Feeder.point = some src)
    (hj' : x.feeders[j']?.map Feeder.point = some src) : j = j' := by
  have hnd := (Graph.feeders_ok x.feeders_eq).1.nodup
  rw [← List.getElem?_map] at hj hj'
  obtain ⟨hlt, -⟩ := List.getElem?_eq_some_iff.mp hj
  exact (List.getElem?_inj hlt hnd).mp (hj.trans hj'.symm)

/-- The first index of a source among the feeders is its only one. -/
theorem findIdx?_feeder {src : EndPoint} {j : Nat} :
    x.feeders.findIdx? (fun f => f.point = src) = some j ↔
      x.feeders[j]?.map Feeder.point = some src := by
  have hfound : ∀ j, x.feeders.findIdx? (fun f => f.point = src) = some j →
      x.feeders[j]?.map Feeder.point = some src := fun j h => by
    obtain ⟨hlt, hp, -⟩ := List.findIdx?_eq_some_iff_getElem.mp h
    rw [List.getElem?_eq_getElem hlt]
    exact congrArg some (of_decide_eq_true hp)
  refine ⟨hfound j, fun h => ?_⟩
  cases hf : x.feeders.findIdx? (fun f => f.point = src) with
  | none =>
    obtain ⟨f, hget, hp⟩ := Option.map_eq_some_iff.mp h
    have := List.findIdx?_eq_none_iff.mp hf f (List.mem_of_getElem? hget)
    exact absurd hp (of_decide_eq_false this)
  | some j' => rw [x.feeder_injective (hfound j' hf) h]

end Splice

end GeneGraph
