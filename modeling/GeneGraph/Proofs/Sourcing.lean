import GeneGraph.Proofs.Conservation
import GeneGraph.Proofs.PlainTypes
import GeneGraph.Proofs.Room

/-!
# Feeding from the gene pool

A code of the gene pool is spliced in for the sake of one destination. If it has an output that
fits, the destination is fed from one of its outputs: in the fetal code, where the displaced code
has the destination, or in the code itself, if the destination is an output. As long as the fetal
code is then stabilized from inside, the connection is still there when it has been grafted
(`Stabilizer.repairOutside_feeds`).
-/

namespace GeneGraph

/-! ## Where an inserted code feeds -/

namespace Above

/-- The code in which an inserted code feeds the destination it was inserted for. -/
def host (above : Above) (code fetal : Code) : Code :=
  match above with
  | .A | .B => fetal
  | .O => code

/-- The destination there. -/
def hostDst (above : Above) (dst : EndPoint) : EndPoint :=
  match above with
  | .A | .B => ⟨.B, dst.index⟩
  | .O => dst

/-- Output `k` of the inserted code there, if the displaced code has `count` outputs. -/
def hostSrc (above : Above) (count k : Nat) : EndPoint :=
  match above with
  | .A | .B => ⟨.A, k⟩
  | .O => ⟨.B, count + k⟩

/-- A connection that was made in a host with the graph `g` is there in the code `c`, into which
the fetal code was grafted as `f`. Freezing and grafting have put end points into canonical order,
but for the outputs of `c`. -/
def Keeps (above : Above) (g : Graph) (dst src : EndPoint) (c : Code) (f : Frozen) : Prop :=
  match above with
  | .A | .B => f.graph.sourceOf? (g.place .dst dst) = some (g.place .src src)
  | .O => c.graph.sourceOf? dst = some (g.place .src src)

theorem eq_replacedRow_of_ofRow? {row : Row} {above : Above} (h : ofRow? row = some above)
    (hO : above ≠ .O) : row = above.replacedRow := by
  cases row <;> cases h <;> first | rfl | exact absurd rfl hO

end Above

/-- The source delivers a type that may feed type `e`. -/
def Graph.Suits (r : Registry) (g : Graph) (src : EndPoint) (e : Ept) : Prop :=
  ∃ t, g.delivered src = some t ∧ r.isCompatible t e = true

theorem Graph.Suits.exists? {r : Registry} {g : Graph} {src : EndPoint} {e : Ept}
    (h : g.Suits r src e) : g.exists? .src src = true := by
  obtain ⟨t, ht, -⟩ := h
  exact exists?_of_delivered ht

namespace Splice

variable {c : Code} {insert : Frozen} {above : Above} (x : Splice c insert above)
  {reg : Registry} {dst src : EndPoint} {e o : Ept} {k n : Nat}

/-- The host has the destination. -/
theorem ept?_host (hs : c.Sound reg) (habove : Above.ofRow? dst.row = some above) :
    (above.host x.code x.fetal).graph.ept? .dst (above.hostDst dst) = c.graph.ept? .dst dst := by
  cases above with
  | O =>
    have hrow : dst.row ≠ Above.O.replacedRow := by
      rw [Above.eq_O_of_ofRow? habove]
      decide
    exact Graph.ept?_of_interface_eq (Graph.interface_of_row?_eq (x.row?_code.trans (if_neg hrow)))
  | A | B =>
    have hold : c.graph.interface dst.row .dst = x.displaced.inputs := by
      rw [Above.eq_replacedRow_of_ofRow? habove nofun]
      exact Graph.interface_of_row? (x.row?_displaced hs)
    have hnew : x.fetal.graph.interface .B .dst = x.displaced.inputs :=
      Graph.interface_of_row? (x.row?_fetal.trans (if_pos rfl))
    exact congrArg (Interface.get? · dst.index) (hnew.trans hold.symm)

/-- The host has the outputs of the inserted code. -/
theorem ept?_hostSrc (k : Nat) : (above.host x.code x.fetal).graph.ept? .src
    (above.hostSrc x.displaced.outputs.length k) = insert.outputs.get? k := by
  cases above with
  | O =>
    have hnew : x.code.graph.interface .B .src = x.outputs :=
      Graph.interface_of_row? (x.row?_code.trans (if_pos rfl))
    show (x.code.graph.interface .B .src).epts[x.displaced.outputs.epts.length + k]? = _
    rw [hnew, x.epts_outputs, List.getElem?_append_right (Nat.le_add_right _ _),
      Nat.add_sub_cancel_left]
    rfl
  | A | B =>
    have hnew : x.fetal.graph.interface .A .src = insert.outputs :=
      Graph.interface_of_row? (x.row?_fetal.trans ((if_neg (by decide)).trans (if_pos rfl)))
    exact congrArg (Interface.get? · k) hnew

/-- Without wildcards, outputs of the inserted code deliver their own types. -/
theorem suits_host (hk : insert.outputs.get? k = some o) (hw : o.hasWildcard = false)
    (ho : reg.isCompatible o e = true) :
    (above.host x.code x.fetal).graph.Suits reg
      (above.hostSrc x.displaced.outputs.length k) e := by
  have hept := (x.ept?_hostSrc k).trans hk
  refine ⟨o, (Graph.delivered_of_plain fun e' he' => ?_).trans hept, ho⟩
  rw [hept, Option.some.injEq] at he'
  rw [← he', hw]
  rfl

theorem legal_host (hs : c.Sound reg) : (above.host x.code x.fetal).graph.Legal := by
  cases above with
  | O => exact x.legal_code hs.legal (hs.loopless _)
  | A | B => exact x.legal_fetal

theorem anchored_host (hs : c.Sound reg) : (above.host x.code x.fetal).graph.Anchored := by
  cases above with
  | O => exact x.anchored_code hs.anchored (hs.loopless _)
  | A | B => exact x.anchored_fetal

/-- One more connection from the inserted code does not change what its outputs deliver. -/
theorem suits_joined (hs : c.Sound reg) (habove : Above.ofRow? dst.row = some above)
    (h : (above.host x.code x.fetal).graph.Suits reg (above.hostSrc n k) e) :
    ((above.host x.code x.fetal).joined (above.hostDst dst) src).graph.Suits reg
      (above.hostSrc n k) e := by
  obtain ⟨t, ht, hc⟩ := h
  refine ⟨t, ?_, hc⟩
  rw [← ht]
  refine Graph.delivered_joined (x.legal_host hs) ?_
  cases above with
  | O =>
    rw [Above.hostDst, Above.eq_O_of_ofRow? habove]
    exact nofun
  | A | B => exact fun _ => show Graph.rank .A < Graph.rank .B by decide

/-- `y` is what a splice has made, with one more connection in the host. -/
structure Joined (dst src : EndPoint) (y : Code × Fetal) : Prop where
  row_eq : y.2.row = above.replacedRow
  host_eq : above.host y.1 y.2.code = (above.host x.code x.fetal).joined dst src
  row?_code : ∀ r, y.1.graph.row? r = x.code.graph.row? r
  row?_fetal : ∀ r, y.2.code.graph.row? r = x.fetal.graph.row? r
  anchored : y.1.graph.Anchored

namespace Joined

variable {x} {y : Code × Fetal} (h : x.Joined dst src y)

include h

theorem linked : (above.host y.1 y.2.code).graph.sourceOf? dst = some src := by
  rw [h.host_eq]
  exact Graph.sourceOf?_joined.trans (if_pos rfl)

theorem row?_replaced : y.1.graph.row? above.replacedRow = some ⟨x.inputs, x.outputs⟩ := by
  rw [h.row?_code, x.row?_code, if_pos rfl]

/-- The fetal code can be grafted after it has been repaired from inside. -/
theorem graft {f : Frozen} (hf : f.inputs.isCanonical = true)
    (hframes : y.2.code.canonical.Frames false f.code) :
    ∃ σ c', y.1.graft y.2.row f = (.ok (), c') ∧
      y.1.Receives above.replacedRow f σ x.outputs.place c' := by
  have hin : y.2.code.canonical.inputs = x.inputs := by
    rw [Code.inputs_canonical, ← Interface.reorder_of_canonical x.inputs_canonical]
    exact congrArg Interface.reorder
      ((Graph.interface_of_row?_eq (h.row?_fetal .I)).trans x.interface_fetal_I)
  have hout : y.2.code.canonical.outputs = x.outputs.reorder := by
    rw [Code.outputs_canonical]
    exact congrArg Interface.reorder
      ((Graph.interface_of_row?_eq (h.row?_fetal .O)).trans x.interface_fetal_O)
  have hsub := hframes.inputs_subperm
  rw [hin] at hsub
  obtain ⟨new, σ, hgrown⟩ := Interface.grown_of_subperm x.inputs_canonical hf hsub
  obtain ⟨c', hc', hreceives⟩ := Code.graft_of_grown Above.isSub_replacedRow h.row?_replaced
    x.inputs_canonical (h.anchored.anchoredAt _) hgrown (hframes.outputs_eq.trans hout)
  rw [h.row_eq]
  exact ⟨σ, c', hc', hreceives⟩

end Joined

/-- Grafting keeps the connection, if the fetal code was only repaired from inside before. -/
theorem keeps {y : Code × Fetal} (h : x.Joined (above.hostDst dst) (above.hostSrc n k) y)
    (habove : Above.ofRow? dst.row = some above) {c' c₁ : Code} {σ : Nat → Nat} {serial : Nat}
    (hc : y.2.code.Conserves c₁) (ha : c₁.graph.Anchored)
    (hr : y.1.Receives above.replacedRow (c₁.freeze serial) σ x.outputs.place c') :
    above.Keeps (above.host y.1 y.2.code).graph (above.hostDst dst) (above.hostSrc n k) c'
      (c₁.freeze serial) := by
  have hlink := h.linked
  cases above with
  | O =>
    have hdst : dst.row ≠ .B := by
      rw [Above.eq_O_of_ofRow? habove]
      decide
    have hB : y.1.graph.interface .B .src = x.outputs := Graph.interface_of_row? h.row?_replaced
    have hplace : EndPoint.onRow .B x.outputs.place ⟨.B, n + k⟩ =
        y.1.graph.place .src ⟨.B, n + k⟩ := by
      rw [EndPoint.onRow_self, Graph.place, hB]
    have hkept := hr.consumers dst hdst
    rw [show y.1.graph.sourceOf? dst = some ⟨.B, n + k⟩ from hlink] at hkept
    exact hkept.trans (congrArg some hplace)
  | A | B =>
    have hA : Row.A ≠ .I := by decide
    have hB : Row.B ≠ .I := by decide
    obtain ⟨-, -, τ, hg⟩ := hc
    have hkept := hg.kept _ _ hlink
    have hmoved := (Graph.moves_reorder ha).source_eq ⟨.B, dst.index⟩
    have hplace (a : Side) (p : EndPoint) (hp : p.row ≠ .I) :
        c₁.graph.place a p = y.2.code.graph.place a p := by
      rw [Graph.place, Graph.place, hg.interface_eq _ _ fun hI => hp hI.1]
    rw [hg.fixed _ hA] at hkept
    rw [show c₁.graph.sourceOf? ⟨.B, dst.index⟩ = some ⟨.A, k⟩ from hkept, Option.map_some,
      hplace _ _ hB, hplace _ _ hA] at hmoved
    exact hmoved

end Splice

namespace Stabilizer

open Repair

variable {s : Stabilizer} {c : Code} {insert : Frozen} {above : Above} {dst : EndPoint} {e : Ept}
  {run : Run} {row : Row} {indices : List Nat}

/-! ## Feeding -/

theorem accepts_iff {src : EndPoint} {known : Choices} (he : e.hasInstance = false) :
    s.accepts c.graph known e e src = true ↔ c.graph.Suits s.registry src e := by
  unfold accepts Graph.Suits
  cases c.graph.delivered src with
  | none => simp
  | some t => simp [Ept.choices_eq_nil t he, Choices.record]

/-- Of the given sources of a row, one that suits feeds the destination, if there is one. -/
theorem feed_ends (hd : c.graph.ept? .dst dst = some e) (he : e.hasInstance = false)
    (h : ∃ k ∈ indices, c.graph.Suits s.registry ⟨row, k⟩ e) :
    (s.feed above c row indices dst e).Ends run fun ans _ => ∃ k ∈ indices,
      c.graph.Suits s.registry ⟨row, k⟩ e ∧ ans = .ok (c.joined dst ⟨row, k⟩) := by
  have hviable (src : EndPoint) :
      src ∈ s.viableAmong c.graph (indices.map fun k => ⟨row, k⟩) dst e ↔
        (∃ k ∈ indices, ⟨row, k⟩ = src) ∧ c.graph.Suits s.registry src e := by
    rw [viableAmong, hd, List.mem_filter, accepts_iff he, List.mem_map]
  unfold feed
  cases hsrc : s.viableAmong c.graph (indices.map fun k => ⟨row, k⟩) dst e with
  | nil =>
    obtain ⟨k, hk, hsuits⟩ := h
    have hmem := (hviable ⟨row, k⟩).mpr ⟨⟨k, hk, rfl⟩, hsuits⟩
    rw [hsrc] at hmem
    cases hmem
  | cons src rest =>
    obtain ⟨⟨k, hk, rfl⟩, hsuits⟩ := (hviable src).mp (hsrc ▸ List.mem_cons_self)
    have hdst : c.graph.exists? .dst dst = true := Graph.exists?_iff.mpr (by rw [hd]; rfl)
    have hconnect : (Repair.connect c ⟨row, k⟩ dst).outcome run = _ :=
      outcome_connect hsuits.exists? hdst
    refine ends_bind_of_ok ((ends_of_outcome hconnect).mpr ⟨_, rfl, ?_⟩)
    exact ⟨k, hk, hsuits, rfl⟩

/-- The inserted code feeds the destination in the host. -/
theorem feedSpliced_ends (run : Run) (x : Splice c insert above) (hs : c.Sound s.registry)
    (habove : Above.ofRow? dst.row = some above) (hd : c.graph.ept? .dst dst = some e)
    (he : e.hasInstance = false)
    (h : ∃ k < insert.outputs.length, (above.host x.code x.fetal).graph.Suits s.registry
      (above.hostSrc x.displaced.outputs.length k) e) :
    (s.feedSpliced above c insert x.insertion ⟨above.replacedRow, x.fetal⟩ dst e).Ends run
      fun ans _ => ∃ y, ans = .ok y ∧ ∃ k < insert.outputs.length,
        x.Joined (above.hostDst dst) (above.hostSrc x.displaced.outputs.length k) y ∧
        (above.host y.1 y.2.code).graph.Suits s.registry
          (above.hostSrc x.displaced.outputs.length k) e := by
  have hept := (x.ept?_host hs habove).trans hd
  have hdst := Graph.exists?_iff.mpr (Option.isSome_iff_exists.mpr ⟨e, hept⟩)
  obtain ⟨k₀, hk₀, hsuits₀⟩ := h
  unfold feedSpliced
  cases above with
  | O =>
    have hcount : ((c.sub? Above.O.replacedRow).map fun d => d.outputs.length).getD 0 =
        x.displaced.outputs.length := by
      rw [x.displaced_eq]
      rfl
    simp only [hcount]
    refine ends_bind_of_ok ((feed_ends hept he ⟨_, List.mem_map_of_mem (List.mem_range.mpr hk₀),
      hsuits₀⟩).mono ?_)
    rintro ans run' ⟨_, hk, hsuits, rfl⟩
    obtain ⟨k, hmem, rfl⟩ := List.mem_map.mp hk
    refine ⟨_, rfl, _, rfl, k, List.mem_range.mp hmem,
      ⟨rfl, rfl, fun _ => rfl, fun _ => rfl, ?_⟩, ?_⟩
    · exact Code.joined_anchored (x.anchored_host hs) hdst hsuits.exists?
    · exact x.suits_joined hs habove hsuits
  | A | B =>
    refine ends_bind_of_ok ((feed_ends hept he ⟨k₀, List.mem_range.mpr hk₀, hsuits₀⟩).mono ?_)
    rintro ans run' ⟨k, hk, hsuits, rfl⟩
    refine ⟨_, rfl, _, rfl, k, List.mem_range.mp hk, ⟨rfl, rfl, fun _ => rfl, fun _ => rfl, ?_⟩, ?_⟩
    · exact x.anchored_code hs.anchored (hs.loopless _)
    · exact x.suits_joined hs habove hsuits

/-! ## Sourcing -/

/-- Takes a code of the gene pool for a destination of type `e`, if there is a candidate. -/
def pick (s : Stabilizer) (e : Ept) : Repair (Option Frozen) := do
  let cs ← s.ask (← s.drawQuery e)
  match ← Repair.draw (·.choose (s.ranked cs)) with
  | none => return none
  | some candidate =>
    Repair.tell (.fetched candidate.digest)
    match s.pool.fetch candidate.digest with
    | .error err => throw (.pool err)
    | .ok insert => return some insert

theorem repairOutside_eq_pick (stabilize : Code → Repair Frozen)
    (habove : Above.ofRow? dst.row = some above) (hk : c.kind = .standard) :
    s.repairOutside stabilize c dst e = s.pick e >>= fun
      | none => return c
      | some insert => s.splice stabilize above c insert dst e := by
  unfold repairOutside pick
  rw [habove]
  simp only [ne_eq, hk, not_true_eq_false, if_false]
  rw [bind_assoc]
  refine bind_congr fun q => ?_
  rw [bind_assoc]
  refine bind_congr fun cs => ?_
  rw [bind_assoc]
  refine bind_congr fun o => ?_
  cases o with
  | none => rfl
  | some candidate =>
    rw [bind_assoc]
    refine bind_congr fun _ => ?_
    cases s.pool.fetch candidate.digest with
    | error err => rfl
    | ok insert => rfl

/-- A splice succeeds if each of its steps does. -/
theorem splice_outcome (stabilize : Code → Repair Frozen) {i : Insertion} {fetal : Fetal}
    {y : Code × Fetal} {f : Frozen} {c' : Code} {run₁ run₂ : Run}
    (hi : c.restructure insert above = .ok i) (hfetal : i.fetal = some fetal)
    (hy : (s.feedSpliced above c insert i fetal dst e).outcome run = (.ok y, run₁))
    (hf : (stabilize y.2.code).outcome run₁ = (.ok f, run₂))
    (hg : y.1.graft y.2.row f = (.ok (), c')) :
    ∃ run₃, (s.splice stabilize above c insert dst e).outcome run = (.ok c', run₃) := by
  have hlift : (liftM (c.restructure insert above) : Repair Insertion).outcome run =
      (.ok i, run) := by
    rw [hi]
    rfl
  have hgraft : ∃ run₃, (Repair.graft y.1 y.2.row f).outcome run₂ = (.ok c', run₃) := by
    unfold Repair.graft
    rw [hg]
    exact ⟨_, rfl⟩
  obtain ⟨run₃, hgraft⟩ := hgraft
  refine ⟨run₃, ?_⟩
  unfold splice
  rw [Procedure.outcome_bind, hlift]
  simp only [hfetal]
  rw [Procedure.outcome_bind, hy]
  dsimp only
  rw [Procedure.outcome_bind, hf]
  exact hgraft

/-- The first violation of a standard code is a destination without source, of a plain type `e`.
For this destination the gene pool hands out `insert`, which has an output that fits. -/
structure Sources (s : Stabilizer) (c : Code) (dst : EndPoint) (above : Above) (e : Ept)
    (insert : Frozen) (run run' : Run) : Prop where
  kind_eq : c.kind = .standard
  incomplete : ∃ row, c.violation? s.registry = some (.incomplete dst row)
  above_eq : Above.ofRow? dst.row = some above
  ept_eq : c.graph.ept? .dst dst = some e
  plain : e.IsPlain
  picked : (s.pick e).outcome run = (.ok (some insert), run')
  fits : ∃ o ∈ insert.outputs.epts, o.hasWildcard = false ∧ s.registry.isCompatible o e = true

/-- The gene pool feeds the destination that it is asked for. The splice succeeds exactly if what
it hands out has a body and there is room for the fetal code. Then one of the new outputs that fit
feeds the destination. And if the fetal code is stabilized without another code from the pool, the
repair succeeds, and the destination is still fed from that output in the code that it gives. -/
theorem repairOutside_feeds (s : Stabilizer) (n : Nat) (c : Code) (dst : EndPoint) (above : Above)
    (e : Ept) (insert : Frozen) (run run₁ : Run)
    (h : s.Sources c dst above e insert run run₁) :
    ((∃ i, c.restructure insert above = .ok i) ↔ insert.kind ≠ .empty ∧ c.HasRoom insert above) ∧
    ∀ i, c.restructure insert above = .ok i → ∃ displaced fetal y k run₂,
      c.sub? above.replacedRow = some displaced ∧ i.fetal = some fetal ∧
      (s.feedSpliced above c insert i fetal dst e).outcome run₁ = (.ok y, run₂) ∧
      k < insert.outputs.length ∧
      (above.host y.1 y.2.code).graph.sourceOf? (above.hostDst dst) =
        some (above.hostSrc displaced.outputs.length k) ∧
      (above.host y.1 y.2.code).graph.Suits s.registry
        (above.hostSrc displaced.outputs.length k) e ∧
      ∀ f run₃, (s.run n false y.2.code).outcome run₂ = (.ok f, run₃) →
        run₂.Extends (fun ev => ev.isFetch = false) run₃ →
        ∃ c' run₄, (s.repairOutside (s.run n false) c dst e).outcome run = (.ok c', run₄) ∧
          c'.sub? above.replacedRow = some f ∧
          above.Keeps (above.host y.1 y.2.code).graph (above.hostDst dst)
            (above.hostSrc displaced.outputs.length k) c' f := by
  obtain ⟨hkind, ⟨row, hv⟩, habove, hd, ⟨-, he⟩, hpick, o, hmem, hw, hcomp⟩ := h
  have hs := Code.sound_of_incomplete hv
  refine ⟨Code.restructure_ok_iff hs hkind, fun i hi => ?_⟩
  obtain ⟨x, rfl⟩ := Code.restructure_ok hi
  obtain ⟨k₀, hk₀⟩ := List.mem_iff_getElem?.mp hmem
  obtain ⟨y, hy, k, hk, hjoined, hsuits⟩ := feedSpliced_ends run₁ x hs habove hd he
    ⟨k₀, (List.getElem?_eq_some_iff.mp hk₀).1, x.suits_host hk₀ hw hcomp⟩
  refine ⟨x.displaced, ⟨above.replacedRow, x.fetal⟩, y, k, _, x.displaced_eq, rfl,
    Prod.ext hy rfl, hk, hjoined.linked, hsuits, fun f run₃ hf hlog => ?_⟩
  obtain ⟨m, hconc⟩ := concludes_of_ok hf
  obtain ⟨c₁, serial, hcons, hvalid, rfl⟩ :=
    hconc.conserves_within (fun _ _ _ hd => inside_attempt hd) rfl hlog f rfl
  have hsound := (Code.violation?_eq_none_iff.mp hvalid).1
  have hcanonical : (c₁.freeze serial).inputs.isCanonical = true := by
    rw [show (c₁.freeze serial).inputs = c₁.inputs.reorder from c₁.inputs_canonical]
    exact Interface.reorder_isCanonical _
  obtain ⟨σ, c', hgraft, hreceives⟩ := hjoined.graft hcanonical (hconc.frames nofun _ rfl)
  obtain ⟨run₄, hsplice⟩ := splice_outcome (s.run n false) hi rfl (Prod.ext hy rfl) hf hgraft
  refine ⟨c', run₄, ?_, hreceives.sub, x.keeps hjoined habove hcons hsound.anchored hreceives⟩
  rw [repairOutside_eq_pick _ habove hkind, Procedure.outcome_bind, hpick]
  exact hsplice

/-- A stabilizer whose pool offers one code for every query. -/
def supplying (f : Frozen) : Stabilizer where
  registry := .empty
  pool :=
    { find := fun _ _ => .ok [⟨f.digest, .primitive, 1, 0⟩]
      fetch := fun _ => .ok f }
  tuning := .default

theorem pick_supplying (f : Frozen) (e : Ept) (run : Run) :
    ((supplying f).pick e).Ends run fun ans _ => ans = .ok (some f) := by
  have hranked : (supplying f).ranked [⟨f.digest, .primitive, 1, 0⟩] =
      [⟨f.digest, .primitive, 1, 0⟩] := by
    simp [ranked, supplying, Tuning.default]
  have hchoose (g : Prng) (x : Candidate) : (g.choose [x]).1 = some x := by
    simp [Prng.choose, Prng.index, Nat.mod_one, show 1 <<< Nat.log2 1 = 1 by decide]
  unfold pick drawQuery ask
  rw [bind_assoc, ends_draw_bind, bind_assoc, ends_draw_bind, pure_bind, bind_assoc, ends_get_bind,
    bind_assoc, ends_modify_bind]
  show Ends (pure _ >>= _) _ _
  rw [pure_bind, hranked, ends_draw_bind, hchoose]
  rfl

/-- A code whose first codon has an input and nothing to feed it. -/
def unfed : Code := .pair .empty .empty (.codon (.single 3) .empty) (.codon .empty .empty)

theorem sources_supplying {c : Code} {insert : Frozen} {row : Option Row}
    (hk : c.kind = .standard) (hv : c.violation? .empty = some (.incomplete ⟨.A, 0⟩ row))
    (hd : c.graph.ept? .dst ⟨.A, 0⟩ = some (.plain 0 3))
    (ho : .plain 0 3 ∈ insert.outputs.epts) (run : Run) :
    (supplying insert).Sources c ⟨.A, 0⟩ .A (.plain 0 3) insert run
      (((supplying insert).pick (.plain 0 3)).outcome run).2 :=
  ⟨hk, ⟨row, hv⟩, rfl, hd, ⟨rfl, rfl⟩, Prod.ext (pick_supplying insert _ run) rfl,
    .plain 0 3, ho, rfl, Registry.isCompatible_self _ _⟩

/-- The first codon is fed from a codon that is spliced in. -/
theorem repairOutside_feeds_unfed :
    let s := supplying (.codon .empty (.single 3))
    ∃ c' f run', (s.repairOutside (s.run 1 false) unfed ⟨.A, 0⟩ (.plain 0 3)).outcome .sample =
      (.ok c', run') ∧ c'.sub? .A = some f ∧ f.graph.sourceOf? ⟨.B, 0⟩ = some ⟨.A, 0⟩ := by
  intro s
  have hv : unfed.violation? .empty = some (.incomplete ⟨.A, 0⟩ (some .I)) := by decide +kernel
  obtain ⟨-, hfeeds⟩ := repairOutside_feeds s 1 unfed ⟨.A, 0⟩ .A (.plain 0 3)
    (.codon .empty (.single 3)) .sample _ (sources_supplying rfl hv rfl List.mem_cons_self .sample)
  -- the fetal code is valid as soon as it is fed, and everything is in its place
  have hok : (unfed.restructure (.codon .empty (.single 3)) .A).toOption.map (fun i =>
      i.fetal.map fun fetal => ((s.feedSpliced .A unfed (.codon .empty (.single 3)) i fetal ⟨.A, 0⟩
        (.plain 0 3)).outcome ((s.pick (.plain 0 3)).outcome .sample).2).1.toOption.map fun y =>
          (y.2.code.violation? .empty, y.2.code.graph.place .dst ⟨.B, 0⟩,
            y.2.code.graph.place .src ⟨.A, 0⟩)) =
      some (some (some (none, ⟨.B, 0⟩, ⟨.A, 0⟩))) := by decide +kernel
  obtain ⟨i, hi, hok⟩ := toOption_map_eq_some.mp hok
  obtain ⟨fetal, hfetal, hok⟩ := Option.map_eq_some_iff.mp hok
  obtain ⟨y, hy, hok⟩ := toOption_map_eq_some.mp hok
  obtain ⟨hvalid, hplace⟩ := Prod.mk.inj hok
  obtain ⟨hdst, hsrc⟩ := Prod.mk.inj hplace
  obtain ⟨_, _, y', k, run₂, -, hfetal', hy', hk, -, -, hstays⟩ := hfeeds i hi
  cases hfetal.symm.trans hfetal'
  rw [hy'] at hy
  cases hy
  obtain rfl : k = 0 := Nat.lt_one_iff.mp hk
  have hrun : (s.run 1 false y.2.code).outcome run₂ =
      (.ok (y.2.code.freeze run₂.serial), { run₂ with serial := run₂.serial + 1 }) := by
    rw [Stabilizer.run, show y.2.code.violation? s.registry = none from hvalid]
    rfl
  obtain ⟨c', run', hc', hsub, hkeeps⟩ := hstays _ _ hrun (.of_log_eq rfl)
  have hkeeps : (y.2.code.freeze run₂.serial).graph.sourceOf? (y.2.code.graph.place .dst ⟨.B, 0⟩) =
      some (y.2.code.graph.place .src ⟨.A, 0⟩) := hkeeps
  rw [hdst, hsrc] at hkeeps
  exact ⟨c', _, run', hc', hsub, hkeeps⟩

/-- A code whose first codon has an input, nothing to feed it and many outputs. -/
def crowded : Code :=
  .pair .empty .empty (.codon (.single 3) ⟨.replicate 129 (.plain 0 3), by decide +kernel⟩)
    (.codon .empty .empty)

/-- A codon with many outputs. -/
def broad : Frozen := .codon .empty ⟨.replicate 128 (.plain 0 3), by decide +kernel⟩

/-- Two codes from the pool that have an output that fits, but feed nothing: one has too many
outputs besides those of the displaced code, and the other is only an interface. -/
theorem sources_refused :
    (∃ run, (supplying broad).Sources crowded ⟨.A, 0⟩ .A (.plain 0 3) broad .sample run) ∧
    crowded.restructure broad .A = .error (.overflow 257) ∧
    (∃ run, (supplying .face).Sources unfed ⟨.A, 0⟩ .A (.plain 0 3) .face .sample run) ∧
    unfed.restructure .face .A =
      .error (.incompatibleKind (.restructure .A) .insert .empty) := by
  have hcrowded : crowded.violation? .empty = some (.incomplete ⟨.A, 0⟩ (some .I)) := by
    decide +kernel
  have hunfed : unfed.violation? .empty = some (.incomplete ⟨.A, 0⟩ (some .I)) := by
    decide +kernel
  have hfull : (match crowded.restructure broad .A with
      | .ok _ => none
      | .error err => some err) = some (.overflow 257) := by decide +kernel
  refine ⟨⟨_, sources_supplying rfl hcrowded rfl List.mem_cons_self .sample⟩, ?_,
    ⟨_, sources_supplying rfl hunfed rfl List.mem_cons_self .sample⟩, rfl⟩
  split at hfull
  · cases hfull
  · rename_i herr
    rw [herr, Option.some.inj hfull]

end Stabilizer

end GeneGraph
