import GeneGraph.Proofs.Budget
import GeneGraph.Proofs.Growth
import GeneGraph.Proofs.Repairs
import GeneGraph.Proofs.Soundness
import Mathlib.Data.List.Perm.Subperm

/-!
# What a stabilization leaves of an interface

Rows I and O are the interface of a code. Repairs connect, add inputs and put codes into rows A
and B, so they keep the outputs and lose no input (`Code.Frames`). The fetal code may get inputs
of its own, but these become destinations of its row and never inputs of the code that waits for
it. So a wrapped code, for which no inputs are added, ends with the interface of its target
(`Stabilizer.stabilize_frames`).
-/

namespace GeneGraph

/-! ## Codes with the same interface -/

theorem Code.inputs_canonical (c : Code) : c.canonical.inputs = c.inputs.reorder :=
  Graph.interface_reorder ..

theorem Code.outputs_canonical (c : Code) : c.canonical.outputs = c.outputs.reorder :=
  Graph.interface_reorder ..

/-- `c'` has the outputs of `c` and, but for their order, its inputs; if `strict`, there are no
other inputs. -/
structure Code.Frames (strict : Bool) (c c' : Code) : Prop where
  outputs_eq : c'.outputs = c.outputs
  inputs_subperm : c.inputs.epts.Subperm c'.inputs.epts
  inputs_eq : strict = true → c'.inputs = c.inputs

namespace Code.Frames

variable {strict : Bool} {c c' c'' : Code} {row : Row} {f : Frozen} {e : Ept} {k : Nat} {g : Graph}

theorem of_eq (hi : c'.inputs = c.inputs) (ho : c'.outputs = c.outputs) : Frames strict c c' :=
  ⟨ho, hi ▸ .refl _, fun _ => hi⟩

theorem refl (c : Code) : Frames strict c c := .of_eq rfl rfl

theorem trans (h : Frames strict c c') (h' : Frames strict c' c'') : Frames strict c c'' :=
  ⟨h'.outputs_eq.trans h.outputs_eq, h.inputs_subperm.trans h'.inputs_subperm,
    fun hs => (h'.inputs_eq hs).trans (h.inputs_eq hs)⟩

/-- Rows I and O say what the inputs and outputs are. -/
theorem of_rows (h : ∀ r, r.isSub = false → c'.graph.row? r = c.graph.row? r) :
    Frames strict c c' :=
  .of_eq (Graph.interface_of_row?_eq (h .I rfl)) (Graph.interface_of_row?_eq (h .O rfl))

theorem connectAll {ws : List (EndPoint × EndPoint)} (h : c.connectAll ws = .ok c') :
    Frames strict c c' := by
  obtain ⟨g, hg, rfl⟩ := Code.connectAll_ok h
  refine .of_rows fun r _ => ?_
  unfold Graph.row?
  rw [(Graph.connectAll_ok hg).rows_eq]

theorem input (h : c.graph.insert .I .src e = (.ok k, g)) :
    Frames false c { c with graph := g } := by
  obtain ⟨i', hi, -, rfl⟩ := Graph.insert_ok h
  have hin : (c.graph.setSide .I .src i').interface .I .src = i' :=
    Graph.interface_setSide.trans (if_pos ⟨rfl, rfl⟩)
  refine ⟨Graph.interface_setSide.trans (if_neg (by decide)), ?_, nofun⟩
  show c.inputs.epts.Subperm ((c.graph.setSide .I .src i').interface .I .src).epts
  rw [hin]
  exact (List.sublist_cons_self e _).subperm.trans (Interface.insert_perm hi).symm.subperm

theorem graft (hrow : row.isSub = true) (h : c.graft row f = (.ok (), c')) :
    Frames strict c c' := by
  refine .of_rows fun r hr => ?_
  have hgraft : (c.graft row f).2.graph.row? r = c.graph.row? r :=
    Code.row?_graft_of_ne fun he => by
      rw [he, hrow] at hr
      cases hr
  rwa [h] at hgraft

theorem of_graft {run run' : Run} (hrow : row.isSub = true)
    (h : (Repair.graft c row f).outcome run = (.ok c', run')) : Frames strict c c' := by
  unfold Repair.graft at h
  split at h
  · cases h
  · rename_i hg
    cases h
    exact graft hrow hg

theorem splice {insert : Frozen} {above : Above} (x : Splice c insert above) :
    Frames strict c x.code := by
  refine .of_rows fun r hr => x.row?_code.trans (if_neg fun he => ?_)
  rw [he, Above.isSub_replacedRow] at hr
  cases hr

theorem canonical (h : Frames strict c c') : Frames strict c.canonical c'.canonical := by
  refine ⟨?_, ?_, fun hs => ?_⟩
  · rw [outputs_canonical, outputs_canonical, h.outputs_eq]
  · rw [inputs_canonical, inputs_canonical]
    exact ((Interface.sorted_perm _).subperm.trans h.inputs_subperm).trans
      (Interface.sorted_perm _).symm.subperm
  · rw [inputs_canonical, inputs_canonical, h.inputs_eq hs]

end Code.Frames

/-- Wrapping gives a code the interface of the target. -/
theorem Code.interface_of_wrap {target insert : Frozen} {c : Code}
    (h : Code.wrap target insert = .ok c) :
    c.inputs = target.inputs ∧ c.outputs = target.outputs := by
  unfold wrap at h
  split at h
  · cases h
  split at h
  · cases h
  cases h
  exact ⟨Graph.interface_setRow.trans ((if_neg (by decide)).trans
    (Graph.interface_setRow.trans (if_pos rfl))), Graph.interface_setRow.trans (if_pos rfl)⟩

/-! ## Attempts -/

/-- The fetal code waits for row A or B. -/
def Insertion.Grafts (i : Insertion) : Prop := ∀ f, i.fetal = some f → f.row.isSub = true

/-- The code has the interface of `c`, and the fetal code waits for row A or B. -/
def Insertion.Frames (strict : Bool) (c : Code) (i : Insertion) : Prop :=
  c.Frames strict i.code ∧ i.Grafts

namespace Stabilizer

open Repair

variable {s : Stabilizer} {wrapped strict : Bool} {c : Code} {i : Insertion} {dst src : EndPoint}
  {e : Ept} {run run' : Run} {ans : Except GraphError Frozen} {k : Nat} {E : Event → Prop}

/-- Feeding a destination is told with the graph that has the connection. -/
theorem yields_feedFrom_joined {kind : SourceKind}
    (h : E (.connected kind (c.graph.joined dst src) dst src)) :
    (feedFrom kind c dst src).Yields E fun c' => c' = c.joined dst src := by
  refine (yields_lift fun _ hc => (Code.connectAll_joined hc).2.2).bind fun c' hc' => ?_
  subst hc'
  exact (yields_tell h).bind fun _ _ => yields_pure rfl

theorem frames_feedFrom (kind : SourceKind) :
    (feedFrom kind c dst src).Yields (fun _ => True) (c.Frames strict) :=
  (yields_feedFrom_joined trivial).mono fun _ h => h ▸ .of_eq rfl rfl

theorem frames_feedNewInput :
    (feedNewInput c dst e).Yields (fun _ => True) (c.Frames false) := by
  unfold feedNewInput
  split
  · exact yields_throw _
  · rename_i heq
    exact (frames_feedFrom _).mono fun _ h => (Code.Frames.input heq).trans h

/-- A wrapped code gets no new input. -/
theorem frames_repairInside :
    (s.repairInside c dst e wrapped).Yields (fun _ => True)
      fun o => ∀ c', o = some c' → c.Frames wrapped c' := by
  refine yields_repairInside (fun _ _ _ => frames_feedFrom _) (fun hw _ => ?_)
    fun _ _ _ => frames_feedFrom _
  rw [hw]
  exact frames_feedNewInput

theorem frames_feed (above : Above) (row : Row) (indices : List Nat) :
    (s.feed above c row indices dst e).Yields (fun _ => True) (c.Frames strict) := by
  unfold feed
  split
  · exact yields_pure (.refl c)
  · exact (yields_lift fun _ h => Code.Frames.connectAll h).bind fun _ h =>
      (yields_tell trivial).bind fun _ _ => yields_pure h

theorem frames_spliceIn (above : Above) (insert : Frozen) :
    (s.spliceIn above c insert dst e).Yields (fun _ => True) (Insertion.Frames strict c) := by
  refine (yields_lift (P := fun i => ∃ x : Splice c insert above, i = x.insertion)
    fun i hx => Code.restructure_ok hx).bind ?_
  rintro i ⟨x, rfl⟩
  refine Yields.bind (P := fun (y : Code × Fetal) => c.Frames strict y.1 ∧ y.2.row.isSub = true) ?_
    fun y hy => yields_pure ⟨hy.1, fun f hf => by cases hf; exact hy.2⟩
  unfold feedSpliced
  cases above with
  | O =>
    exact (frames_feed _ _ _).bind fun _ h => yields_pure ⟨(Code.Frames.splice x).trans h, rfl⟩
  | A | B =>
    exact Yields.bind (P := x.fetal.Frames strict) (frames_feed _ _ _) fun _ _ =>
      yields_pure ⟨.splice x, rfl⟩

/-- An attempt leaves the interface as it is, but a code that is not wrapped may get an input. -/
theorem frames_attempt :
    (s.attempt c dst wrapped).Yields (fun _ => True) (Insertion.Frames wrapped c) := by
  refine yields_attempt (fun _ _ => frames_repairInside.mono fun o ho c' he => ⟨ho c' he, nofun⟩)
    fun _ => ?_
  exact yields_attemptOutside (fun _ => trivial) ⟨.refl c, nofun⟩ fun _ above insert _ =>
    frames_spliceIn above insert

/-! ## Runs -/

theorem Concludes.frames (h : s.Concludes wrapped i run k ans run') (hi : i.Grafts) :
    ∀ f, ans = .ok f → i.code.canonical.Frames wrapped f.code := by
  induction h with
  | valid hv =>
    intro f hf
    cases hf
    exact .refl _
  | broken | exhausted | failed | lost | misfit => exact nofun
  | @repaired wrapped c run dst row i run' k ans run'' hv hu ha hc ih =>
    obtain ⟨hframes, hgrafts⟩ : Insertion.Frames wrapped c i :=
      ((ends_of_outcome ha).mp (frames_attempt run.charge)).2 i rfl
    exact fun f hf => hframes.canonical.trans (ih hgrafts f hf)
  | @grafted wrapped c f run k d run' c' run'' l ans run₃ hf hg hc ihf ihc =>
    have hframes : c.Frames wrapped c' := .of_graft (hi f rfl) hg
    exact fun f hf => hframes.canonical.trans (ihc nofun f hf)

/-- The interface of a stabilized code: its outputs are those of the code that was given, in
canonical order, and it has the inputs of that code and possibly more. A wrapped code has the
interface of its target. -/
theorem stabilize_frames (s : Stabilizer) (run run' : Run) (f : Frozen) :
    (∀ c, (s.stabilize c).outcome run = (.ok f, run') →
      f.outputs = c.outputs.reorder ∧ c.inputs.epts.Subperm f.inputs.epts) ∧
    ∀ target insert, target.Made → (s.insert .wrap target insert).outcome run = (.ok f, run') →
      f.inputs = target.inputs ∧ f.outputs = target.outputs := by
  constructor
  · intro c hrun
    obtain ⟨k, hk⟩ := (ends_of_outcome hrun).mp (stabilize_concludes s c run)
    have h := hk.frames nofun f rfl
    refine ⟨h.outputs_eq.trans c.outputs_canonical, ?_⟩
    have hperm := h.inputs_subperm
    rw [Code.inputs_canonical] at hperm
    exact (Interface.sorted_perm _).symm.subperm.trans hperm
  · intro target insert ht hrun
    obtain ⟨k, hk⟩ := (ends_of_outcome hrun).mp (insert_concludes s .wrap target insert run)
    cases hk with
    | inserted hi hc =>
      obtain ⟨c, hwrap, hi⟩ := bind_eq_ok.mp hi
      cases hi
      have h : c.canonical.Frames true f.code := hc.frames nofun f rfl
      obtain ⟨hin, hout⟩ := Code.interface_of_wrap hwrap
      constructor
      · refine (h.inputs_eq rfl).trans (c.inputs_canonical.trans ?_)
        rw [hin]
        exact Interface.reorder_of_canonical (ht.isCanonical .I .src)
      · refine h.outputs_eq.trans (c.outputs_canonical.trans ?_)
        rw [hout]
        exact Interface.reorder_of_canonical (ht.isCanonical .O .dst)

/-- The sample code is stabilized, and wrapped for an interface of one output, for which the pool
has a codon. -/
theorem stabilize_frames_sample :
    (∃ f run', (Stabilizer.offering.stabilize .sample).outcome .sample = (.ok f, run') ∧
      f.outputs = Code.sample.outputs.reorder ∧ Code.sample.inputs.epts.Subperm f.inputs.epts) ∧
    ∃ f run', (Stabilizer.offering.insert .wrap .face (Code.sample.freeze 0)).outcome .sample =
      (.ok f, run') ∧ f.inputs = Frozen.face.inputs ∧ f.outputs = Frozen.face.outputs := by
  have hface : Frozen.face.Made := .freeze _ _ fun d hd => absurd hd List.not_mem_nil
  have hstab : ((Stabilizer.offering.stabilize .sample).outcome .sample).1.toOption.map
      Frozen.kind = some .standard := by decide +kernel
  have hwrap : ((Stabilizer.offering.insert .wrap .face (Code.sample.freeze 0)).outcome
      .sample).1.toOption.map Frozen.kind = some .standard := by decide +kernel
  obtain ⟨f, hf, -⟩ := toOption_map_eq_some.mp hstab
  obtain ⟨f', hf', -⟩ := toOption_map_eq_some.mp hwrap
  exact ⟨⟨f, _, Prod.ext hf rfl,
      (stabilize_frames .offering .sample _ f).1 .sample (Prod.ext hf rfl)⟩,
    f', _, Prod.ext hf' rfl,
      (stabilize_frames .offering .sample _ f').2 .face _ hface (Prod.ext hf' rfl)⟩

end Stabilizer

end GeneGraph
