import GeneGraph.Proofs.Grafting

/-!
# When a spliced code is valid

An assembled code has a fetal code where the target had the displaced one. Its connections are
those of the target, but the row has the feeders for its inputs, each once and in the order of
their types, and the wildcards of its outputs stand for these. `Graph.retyped` is what the sources
of the target deliver then, `KeepsTypes` says that the target can do with that, and the assembled
code is valid exactly in that case (`restructure_valid_iff`).
-/

namespace GeneGraph

namespace Graph

variable {g : Graph} {row : Row} {ts : List Ept} {p dst src : EndPoint} {n : Nat}

/-- What a source delivers, with wildcards followed back through so many sub-codes, if the
wildcards of `row` stand for the types `ts`. -/
def retypedWithin (g : Graph) (row : Row) (ts : List Ept) : Nat → EndPoint → Option Ept
  | 0, src => g.ept? .src src
  | n + 1, src => (g.ept? .src src).map fun e =>
      if e.hasWildcard && src.row.isSub then
        e.resolved (if src.row = row then ts else g.inputTypes (g.retypedWithin row ts n) src.row)
      else e

/-- What a source delivers if the wildcards of `row` stand for the types `ts`. -/
def retyped (g : Graph) (row : Row) (ts : List Ept) (src : EndPoint) : Option Ept :=
  g.retypedWithin row ts resolveDepth src

/-- The rules of a standard graph ask for rows only. -/
theorem rowViolation?_standard {g' : Graph} (hk : g'.kind = g.kind) (hs : g.kind = .standard)
    (hr : ∀ r, g'.hasRow r = g.hasRow r) (r : Row) : g'.rowViolation? r = g.rowViolation? r := by
  have hrow : g'.hasRow = g.hasRow := funext hr
  rw [rowViolation?, rowViolation?, hk, hs, hrow]
  cases r <;> rfl

end Graph

/-- A target can do with the types `ts` for the inputs of the code in a row: each type gives its
own fixed instances the same types, the consumers take what they then get, and so do the fixed
instances of the other rows. -/
structure KeepsTypes (reg : Registry) (t : Graph) (row : Row) (ts : List Ept) : Prop where
  inputs : Choices.Agree (ts.flatMap fun e => e.choices e)
  consumers : ∀ dst src d e, t.sourceOf? dst = some src → dst.row ≠ row →
    t.ept? .dst dst = some d → t.retyped row ts src = some e → reg.isCompatible e d = true
  instances : ∀ r, r ≠ row → ∀ i e e', t.Chooses (t.retyped row ts) r (i, e) →
    t.Chooses (t.retyped row ts) r (i, e') → e = e'

namespace Splice

variable {target : Code} {insert : Frozen} {above : Above} (x : Splice target insert above)
  {p dst src : EndPoint} {r : Row} {a : Side} {reg : Registry} {n : Nat}

/-! ## The assembled graph -/

/-- The types of the feeders. -/
def types : List Ept := x.feeders.map Feeder.ept

theorem epts_inputs : x.inputs.epts = x.types := Interface.ofList_ok x.inputs_eq

theorem interface_grafted (h : r ≠ above.replacedRow) :
    (x.grafted n).graph.interface r a = target.graph.interface r a :=
  Graph.interface_of_row?_eq (by rw [x.row?_grafted, if_neg h])

theorem interface_grafted_row : (x.grafted n).graph.interface above.replacedRow a =
    (Sides.mk x.inputs x.outputs.reorder).side a :=
  Graph.interface_of_row? (by rw [x.row?_grafted, if_pos rfl])

theorem kind_grafted : (x.grafted n).graph.kind = target.graph.kind := by
  rw [grafted, Code.graph_attach, ← x.kind_code]
  exact Graph.kind_reorderSide _ _ _

/-- The sources of the target have their types at the places where they are found. -/
theorem ept?_moved (hs : target.Sound reg) (h : target.graph.exists? .src p = true) :
    (x.grafted n).graph.ept? .src (x.moved p) = target.graph.ept? .src p := by
  obtain ⟨row, k⟩ := p
  by_cases hp : row = above.replacedRow
  · subst hp
    have hrow := x.row?_displaced hs
    have hk : k < x.displaced.outputs.epts.length := by
      rw [Graph.exists?, Graph.count, Graph.interface_of_row? hrow] at h
      exact of_decide_eq_true h
    rw [x.moved_replaced, Graph.ept?, Graph.ept?, x.interface_grafted_row,
      Graph.interface_of_row? hrow]
    show x.outputs.reorder.get? (x.outputs.place k) = x.displaced.outputs.get? k
    rw [Interface.get?_reorder_place, Interface.get?, x.epts_outputs, List.getElem?_append_left hk]
    rfl
  · rw [x.moved_of_ne hp]
    exact Graph.ept?_of_interface_eq (x.interface_grafted hp)

theorem sourceOf?_grafted_of_ne (hs : target.Sound reg) (h : p.row ≠ above.replacedRow) :
    (x.grafted n).graph.sourceOf? p = (target.graph.sourceOf? p).map x.moved := by
  rw [x.sourceOf?_grafted hs.anchored (hs.loopless _), if_neg h]

theorem sourceOf?_grafted_row (hs : target.Sound reg) (k : Nat) :
    (x.grafted n).graph.sourceOf? ⟨above.replacedRow, k⟩ = x.feeders[k]?.map Feeder.point := by
  rw [x.sourceOf?_grafted hs.anchored (hs.loopless _), if_pos rfl]

theorem legal_grafted (hs : target.Sound reg) : (x.grafted n).graph.Legal := by
  rintro ⟨row, k⟩ src h
  rw [x.kind_grafted]
  by_cases hrow : row = above.replacedRow
  · subst hrow
    rw [x.sourceOf?_grafted_row hs] at h
    obtain ⟨l, hl⟩ := x.exists_feeder.mp ⟨k, h⟩
    exact hs.legal ⟨_, l⟩ src hl
  · rw [x.sourceOf?_grafted_of_ne hs hrow] at h
    obtain ⟨src, hsrc, rfl⟩ := Option.map_eq_some_iff.mp h
    rw [x.moved_row]
    exact hs.legal _ _ hsrc

/-- Sources that cannot depend on the row deliver what they delivered. -/
theorem carries_grafted (hs : target.Sound reg) :
    Graph.Carries (fun r => Graph.rank r < Graph.rank above.replacedRow) id target.graph
      (x.grafted n).graph where
  row_eq _ := rfl
  ept_eq p hp := by
    have hne : p.row ≠ above.replacedRow := fun h => by rw [h] at hp; exact Nat.lt_irrefl _ hp
    exact Graph.ept?_of_interface_eq (x.interface_grafted hne)
  inputs_eq r hr _ := x.interface_grafted fun h => by rw [h] at hr; exact Nat.lt_irrefl _ hr
  source_eq p hp hsub := by
    have hne : p.row ≠ above.replacedRow := fun h => by rw [h] at hp; exact Nat.lt_irrefl _ hp
    show (x.grafted n).graph.sourceOf? p = _
    rw [x.sourceOf?_grafted_of_ne hs hne]
    refine Option.map_congr fun src hsrc => x.moved_of_ne fun h => ?_
    have hlt := Graph.rank_lt_of_isLegal (hs.legal _ _ hsrc) hsub
    rw [h] at hlt
    exact Nat.lt_asymm hp hlt
  closed p src hp hsub hsrc :=
    Nat.lt_trans (Graph.rank_lt_of_isLegal (hs.legal _ _ hsrc) hsub) hp

/-- Every feeder delivers the type that it stands for. -/
theorem delivered_feeder (hs : target.Sound reg) {k : Nat} {f : Feeder}
    (hf : x.feeders[k]? = some f) : (x.grafted n).graph.delivered f.point = some f.ept := by
  obtain ⟨l, hl⟩ := x.exists_feeder.mp ⟨k, by rw [hf]; rfl⟩
  have hlt := Graph.rank_lt_of_isLegal (hs.legal _ _ hl) Above.isSub_replacedRow
  rw [← (Graph.feeders_ok x.feeders_eq).1.delivered f (List.mem_of_getElem? hf)]
  exact (x.carries_grafted hs).delivered_eq hlt

theorem inputTypes_grafted (hs : target.Sound reg) :
    (x.grafted n).graph.inputTypes (x.grafted n).graph.delivered above.replacedRow = x.types := by
  rw [Graph.inputTypes, x.interface_grafted_row]
  show x.inputs.epts.zipIdx.map _ = _
  rw [x.epts_inputs]
  have hall : ∀ y ∈ x.types.zipIdx,
      ((((x.grafted n).graph.sourceOf? ⟨above.replacedRow, y.2⟩).bind
        (x.grafted n).graph.delivered).getD y.1) = y.1 := by
    rintro ⟨e, k⟩ hy
    have hk := List.mem_zipIdx_iff_getElem?.mp hy
    rw [types, List.getElem?_map] at hk
    obtain ⟨f, hf, rfl⟩ := Option.map_eq_some_iff.mp hk
    rw [x.sourceOf?_grafted_row hs, hf, Option.map_some, Option.bind_some,
      x.delivered_feeder hs hf, Option.getD_some]
  rw [List.map_congr_left hall]
  exact List.zipIdx_map_fst 0 x.types

/-- The sources of the target deliver in the assembled graph what `Graph.retyped` says. -/
theorem retypedWithin_eq (hs : target.Sound reg) (hp : target.graph.exists? .src p = true)
    (hn : Graph.rank p.row ≤ n) {m : Nat} :
    target.graph.retypedWithin above.replacedRow x.types n p =
      (x.grafted m).graph.delivered (x.moved p) := by
  induction n generalizing p with
  | zero =>
    have hsub : p.row.isSub = false :=
      Bool.not_eq_true _ ▸ fun h => absurd hn (Nat.not_le.mpr (Graph.rank_pos h))
    rw [← x.moved_row] at hsub
    exact (x.ept?_moved hs hp).symm.trans (Graph.deliveredWithin_of_not_isSub hsub).symm
  | succ n ih =>
    rw [(x.legal_grafted hs).delivered_eq, x.ept?_moved hs hp, x.moved_row]
    refine Option.map_congr fun e _ => ?_
    cases hsub : p.row.isSub with
    | false => simp only [Bool.and_false, Bool.false_eq_true, if_false]
    | true =>
      have hin : (if p.row = above.replacedRow then x.types
          else target.graph.inputTypes (target.graph.retypedWithin above.replacedRow x.types n)
            p.row) = (x.grafted m).graph.inputTypes (x.grafted m).graph.delivered p.row := by
        by_cases hrow : p.row = above.replacedRow
        · rw [if_pos hrow, hrow, x.inputTypes_grafted hs]
        · rw [if_neg hrow]
          refine (Graph.inputTypes_eq (x.interface_grafted hrow) fun k => ?_).symm
          rw [x.sourceOf?_grafted_of_ne (p := ⟨p.row, k⟩) hs hrow, Option.bind_map]
          refine Option.bind_congr fun src hsrc => ?_
          have hlt : Graph.rank src.row < Graph.rank p.row :=
            Graph.rank_lt_of_isLegal (hs.legal ⟨p.row, k⟩ src hsrc) hsub
          exact (ih (hs.anchored _ _ hsrc).2 (by omega)).symm
      rw [hin]

theorem retyped_eq (hs : target.Sound reg) (hp : target.graph.exists? .src p = true) :
    target.graph.retyped above.replacedRow x.types p =
      (x.grafted n).graph.delivered (x.moved p) :=
  x.retypedWithin_eq hs hp (Nat.le_trans (Graph.rank_le_two _) (by decide))

/-! ## The checks of the assembled code -/

theorem hasRow_grafted (hs : target.Sound reg) (r : Row) :
    (x.grafted n).graph.hasRow r = target.graph.hasRow r := by
  rw [Graph.hasRow, Graph.hasRow, x.row?_grafted]
  split
  · rename_i hr
    rw [hr, x.row?_displaced hs]
    rfl
  · rfl

theorem rowsViolation?_grafted (hs : target.Sound reg) :
    (x.grafted n).graph.rowsViolation? = none := by
  have ht := Graph.rowsViolation?_eq_none_iff.mp hs.rows
  refine Graph.rowsViolation?_eq_none_iff.mpr ⟨fun r a ha => ?_, fun r => ?_⟩
  · have hne : r ≠ above.replacedRow := fun h => by
      rw [h] at ha
      cases above <;> cases a <;> cases ha
    rw [x.interface_grafted hne]
    exact ht.1 r a ha
  · rw [Graph.rowViolation?_standard x.kind_grafted x.kind_eq (x.hasRow_grafted hs)]
    exact ht.2 r

theorem subsViolation?_grafted (hs : target.Sound reg) : (x.grafted n).subsViolation? = none := by
  refine Code.subsViolation?_eq_none_iff.mpr fun r hr => ?_
  unfold Code.SubFits
  rw [x.row?_grafted, x.sub?_grafted]
  by_cases hrow : r = above.replacedRow
  · rw [if_pos hrow, if_pos hrow, Option.map_some, x.rowSides_freeze]
    exact Or.inl rfl
  · rw [if_neg hrow, if_neg hrow]
    refine (Code.subsViolation?_eq_none_iff.mp hs.subs r hr).imp_right fun h => ⟨?_, h.2⟩
    exact x.kind_grafted.trans h.1

/-- The feeders may feed the row as they did, and their types are its types. -/
theorem joins_grafted_row (hs : target.Sound reg) {k : Nat}
    (h : (x.grafted n).graph.sourceOf? ⟨above.replacedRow, k⟩ = some src) :
    (x.grafted n).graph.Joins reg ⟨above.replacedRow, k⟩ src := by
  have hl := x.legal_grafted hs _ _ h
  rw [x.sourceOf?_grafted_row hs] at h
  obtain ⟨f, hf, rfl⟩ := Option.map_eq_some_iff.mp h
  refine ⟨f.ept, f.ept, ?_, x.delivered_feeder hs hf, hl, reg.isCompatible_self f.ept⟩
  rw [Graph.ept?, x.interface_grafted_row]
  show x.inputs.get? k = _
  rw [x.get?_inputs, hf]
  rfl

/-- The other connections hold exactly if the types are still right. -/
theorem joins_grafted_iff (hs : target.Sound reg) (hdst : dst.row ≠ above.replacedRow)
    (h : target.graph.sourceOf? dst = some src) :
    (x.grafted n).graph.Joins reg dst (x.moved src) ↔
      ∀ d e, target.graph.ept? .dst dst = some d →
        target.graph.retyped above.replacedRow x.types src = some e →
          reg.isCompatible e d = true := by
  have hex := (hs.anchored _ _ h).2
  have hd : (x.grafted n).graph.ept? .dst dst = target.graph.ept? .dst dst :=
    Graph.ept?_of_interface_eq (x.interface_grafted hdst)
  rw [x.retyped_eq hs hex]
  constructor
  · rintro ⟨d, e, hd', he, -, hc⟩ d' e' hd'' he'
    rw [hd, hd'', Option.some.injEq] at hd'
    rw [he', Option.some.injEq] at he
    rw [hd', he]
    exact hc
  · intro hc
    obtain ⟨d, -, hd', -, hl, -⟩ := hs.joins dst src h
    have hsome : ((x.grafted n).graph.delivered (x.moved src)).isSome := by
      rw [Graph.isSome_delivered, x.ept?_moved hs hex, ← Graph.exists?_iff]
      exact hex
    obtain ⟨e, he⟩ := Option.isSome_iff_exists.mp hsome
    refine ⟨d, e, hd.trans hd', he, ?_, hc d e hd' he⟩
    rw [x.kind_grafted, x.moved_row]
    exact hl

theorem mem_rowChoices_grafted_row (hs : target.Sound reg) {c : Fin 8 × Ept} :
    c ∈ (x.grafted n).graph.rowChoices above.replacedRow ↔
      c ∈ x.types.flatMap fun e => e.choices e := by
  rw [Graph.mem_rowChoices_iff_chooses, List.mem_flatMap]
  constructor
  · rintro ⟨k, src, d, e, hd, hsrc, he, hc⟩
    rw [x.sourceOf?_grafted_row hs] at hsrc
    obtain ⟨f, hf, rfl⟩ := Option.map_eq_some_iff.mp hsrc
    rw [x.delivered_feeder hs hf, Option.some.injEq] at he
    rw [Graph.ept?, x.interface_grafted_row] at hd
    have hd : x.inputs.get? k = some d := hd
    rw [x.get?_inputs, hf, Option.map_some, Option.some.injEq] at hd
    subst hd he
    exact ⟨f.ept, List.mem_map.mpr ⟨f, List.mem_of_getElem? hf, rfl⟩, hc⟩
  · rintro ⟨e, he, hc⟩
    obtain ⟨f, hf, rfl⟩ := List.mem_map.mp he
    obtain ⟨k, hk⟩ := List.mem_iff_getElem?.mp hf
    refine ⟨k, f.point, f.ept, f.ept, ?_, ?_, x.delivered_feeder hs hk, hc⟩
    · rw [Graph.ept?, x.interface_grafted_row]
      show x.inputs.get? k = _
      rw [x.get?_inputs, hk]
      rfl
    · rw [x.sourceOf?_grafted_row hs, hk]
      rfl

theorem mem_rowChoices_grafted (hs : target.Sound reg) (hr : r ≠ above.replacedRow)
    {c : Fin 8 × Ept} : c ∈ (x.grafted n).graph.rowChoices r ↔
      target.graph.Chooses (target.graph.retyped above.replacedRow x.types) r c := by
  have hd : ∀ k, (x.grafted n).graph.ept? .dst ⟨r, k⟩ = target.graph.ept? .dst ⟨r, k⟩ := fun k =>
    Graph.ept?_of_interface_eq (x.interface_grafted hr)
  rw [Graph.mem_rowChoices_iff_chooses]
  unfold Graph.Chooses
  constructor
  · rintro ⟨k, src, d, e, hdst, hsrc, he, hc⟩
    rw [x.sourceOf?_grafted_of_ne (p := ⟨r, k⟩) hs hr] at hsrc
    obtain ⟨src, hold, rfl⟩ := Option.map_eq_some_iff.mp hsrc
    refine ⟨k, src, d, e, (hd k).symm.trans hdst, hold, ?_, hc⟩
    rw [x.retyped_eq hs (hs.anchored _ _ hold).2]
    exact he
  · rintro ⟨k, src, d, e, hdst, hsrc, he, hc⟩
    refine ⟨k, x.moved src, d, e, (hd k).trans hdst, ?_, ?_, hc⟩
    · rw [x.sourceOf?_grafted_of_ne (p := ⟨r, k⟩) hs hr, hsrc]
      rfl
    · rw [← x.retyped_eq hs (hs.anchored _ _ hsrc).2]
      exact he

theorem complete_grafted (hs : target.Sound reg) (hc : target.graph.Complete) :
    (x.grafted n).graph.Complete := by
  rintro ⟨row, k⟩ hp
  by_cases hrow : row = above.replacedRow
  · subst hrow
    rw [Graph.exists?, Graph.count, x.interface_grafted_row] at hp
    have hk : k < x.inputs.length := of_decide_eq_true hp
    rw [x.sourceOf?_grafted_row hs, Option.isSome_map, isSome_getElem?]
    rwa [x.length_inputs] at hk
  · rw [x.sourceOf?_grafted_of_ne (p := ⟨row, k⟩) hs hrow, Option.isSome_map]
    refine hc _ ?_
    rw [Graph.exists?, Graph.count, x.interface_grafted hrow] at hp
    exact hp

/-- The assembled code is sound exactly if the target can do with the types of the feeders. -/
theorem sound_grafted_iff (hs : target.Sound reg) :
    (x.grafted n).Sound reg ↔ KeepsTypes reg target.graph above.replacedRow x.types := by
  constructor
  · intro h
    refine ⟨(Choices.agree_congr fun c => x.mem_rowChoices_grafted_row hs).mp
      (h.agree above.replacedRow), fun dst src d e hsrc hdst hd he => ?_,
        fun r hr i e e' he he' => ?_⟩
    · refine (x.joins_grafted_iff hs hdst hsrc).mp (h.joins dst (x.moved src) ?_) d e hd he
      rw [x.sourceOf?_grafted_of_ne hs hdst, hsrc]
      rfl
    · exact h.agree r i e e' ((x.mem_rowChoices_grafted hs hr).mpr he)
        ((x.mem_rowChoices_grafted hs hr).mpr he')
  · intro h
    refine ⟨x.rowsViolation?_grafted hs, x.subsViolation?_grafted hs, ?_, fun r => ?_⟩
    · rintro ⟨row, k⟩ src hsrc
      by_cases hrow : row = above.replacedRow
      · subst hrow
        exact x.joins_grafted_row hs hsrc
      · rw [x.sourceOf?_grafted_of_ne (p := ⟨row, k⟩) hs hrow] at hsrc
        obtain ⟨src, hold, rfl⟩ := Option.map_eq_some_iff.mp hsrc
        exact (x.joins_grafted_iff hs hrow hold).mpr fun d e => h.consumers _ _ d e hold hrow
    · by_cases hr : r = above.replacedRow
      · rw [hr]
        exact (Choices.agree_congr fun c => x.mem_rowChoices_grafted_row hs).mpr h.inputs
      · exact fun i e e' he he' => h.instances r hr i e e' ((x.mem_rowChoices_grafted hs hr).mp he)
          ((x.mem_rowChoices_grafted hs hr).mp he')

end Splice

/-- Restructuring a valid target gives a valid code exactly if the target can do with the types of
the sources that fed the displaced code. -/
theorem restructure_valid_iff {reg : Registry} {above : Above} {t insert g : Frozen}
    {i : Insertion} {serial : Nat} (ht : t.Made) (hv : t.code.violation? reg = none)
    (hr : t.code.restructure insert above = .ok i) (hg : i.assemble serial = .ok g) :
    g.code.violation? reg = none ↔ ∃ fs, t.graph.feeders above.replacedRow = .ok fs ∧
      KeepsTypes reg t.graph above.replacedRow (fs.map Feeder.ept) := by
  obtain ⟨x, rfl⟩ := Code.restructure_ok hr
  rw [x.assemble_eq] at hg
  obtain rfl := Except.ok.inj hg
  obtain ⟨hs, hc⟩ := Code.violation?_eq_none_iff.mp hv
  have hx : t.code.kind.isWiringExempt = false := by
    rw [x.kind_eq]
    rfl
  have hcode : ((x.grafted serial).freeze (serial + 1)).code = x.grafted serial := by
    have hgraph := x.graph_freeze (n := serial) (fun row a => ht.isCanonical row a) (serial + 1)
    exact congrArg (fun g => Code.mk g (x.grafted serial).subA (x.grafted serial).subB) hgraph
  rw [hcode, Code.violation?_eq_none_iff, x.sound_grafted_iff hs]
  constructor
  · exact fun h => ⟨x.feeders, x.feeders_eq, h.1⟩
  · rintro ⟨fs, hfs, h⟩
    obtain rfl := Except.ok.inj (x.feeders_eq.symm.trans hfs)
    exact ⟨h, Or.inr (x.complete_grafted hs (hc.resolve_left fun he => by rw [hx] at he; cases he))⟩

theorem restructure_valid_iff_chain :
    ∃ i g fs, Frozen.chain.code.restructure (.codon .empty (.single 3)) .B = .ok i ∧
      i.assemble 1 = .ok g ∧ g.code.violation? .empty = none ∧
        Frozen.chain.graph.feeders .B = .ok fs ∧
          KeepsTypes .empty Frozen.chain.graph .B (fs.map Feeder.ept) := by
  have hv : Frozen.chain.code.violation? .empty = none := by decide +kernel
  have hok : ((Frozen.chain.code.restructure (.codon .empty (.single 3)) .B).bind
      fun i => i.assemble 1).toOption.map (fun g => g.code.violation? .empty) = some none := by
    decide +kernel
  obtain ⟨g, h, hvalid⟩ := toOption_map_eq_some.mp hok
  obtain ⟨i, hr, hg⟩ := bind_eq_ok.mp h
  obtain ⟨fs, hfs, hk⟩ := (restructure_valid_iff chain_made hv hr hg).mp hvalid
  exact ⟨i, g, fs, hr, hg, hvalid, hfs, hk⟩

/-- A code whose second codon hands on its first input, which is a truth value. -/
def crossed : Frozen :=
  ((Code.pair ⟨[.plain 0 5, .plain 0 6], Nat.le_of_ble_eq_true rfl⟩ (.single 6)
    (.codon (.single 5) (.single 5))
    (.codon ⟨[.plain 0 1, .plain 0 5], Nat.le_of_ble_eq_true rfl⟩
      ⟨[.node ⟨0, .wildcard ⟨0, 0⟩⟩ Fin.elim0], Nat.le_of_ble_eq_true rfl⟩)).wired
        [(⟨.I, 0⟩, ⟨.A, 0⟩), (⟨.I, 1⟩, ⟨.B, 0⟩), (⟨.I, 0⟩, ⟨.B, 1⟩), (⟨.B, 0⟩, ⟨.O, 0⟩)]).freeze 0

/-- In the order of its feeders, the second codon has a text for its first input. -/
theorem restructure_crossed :
    crossed.code.violation? sampleRegistry = none ∧
    ∃ i g, crossed.code.restructure (.codon .empty .empty) .B = .ok i ∧ i.assemble 1 = .ok g ∧
      g.code.violation? sampleRegistry = some (.incompatible ⟨.O, 0⟩ ⟨.B, 0⟩) := by
  have hok : ((crossed.code.restructure (.codon .empty .empty) .B).bind
      fun i => i.assemble 1).toOption.map (fun g => g.code.violation? sampleRegistry) =
        some (some (.incompatible ⟨.O, 0⟩ ⟨.B, 0⟩)) := by decide +kernel
  obtain ⟨g, h, hg⟩ := toOption_map_eq_some.mp hok
  obtain ⟨i, hi, ha⟩ := bind_eq_ok.mp h
  exact ⟨by decide +kernel, i, g, hi, ha, hg⟩

end GeneGraph
