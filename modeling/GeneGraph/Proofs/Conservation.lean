import GeneGraph.Proofs.FanOut

/-!
# What repairs from inside leave alone

Where the gene pool has nothing to offer, a stabilization makes connections and adds inputs, and
does nothing else. A new input moves the inputs behind it, and the connections follow, so a graph
is compared with what becomes of it along a renaming of sources (`Graph.Conserves`): every
connection is still there, the new ones are for destinations that had none, and the new inputs
feed such destinations and have their types. A stabilized code is what a code becomes in this way,
put into canonical order (`Stabilizer.stabilize_conserves`).
-/

namespace GeneGraph

/-! ## Graphs -/

namespace Graph

variable {σ σ' : EndPoint → EndPoint} {g g' g'' : Graph} {p q dst src : EndPoint} {e : Ept}
  {k : Nat}

/-- A source of `g` that is none of those renamed by `σ`. -/
def Added (σ : EndPoint → EndPoint) (g : Graph) (q : EndPoint) : Prop :=
  g.exists? .src q = true ∧ ∀ p, σ p ≠ q

/-- `g'` is `g` with more connections and inputs, where `σ` says which sources are the old ones. -/
structure Conserves (σ : EndPoint → EndPoint) (g g' : Graph) : Prop where
  kind_eq : g'.kind = g.kind
  interface_eq : ∀ row a, ¬ (row = .I ∧ a = .src) → g'.interface row a = g.interface row a
  /-- A row that was not there is there for the sake of a new source. -/
  hasRow_iff : ∀ row, g'.hasRow row = true ↔ g.hasRow row = true ∨ ∃ q, g'.Added σ q ∧ q.row = row
  src_row : ∀ p, (σ p).row = p.row
  src_ept : ∀ p, g'.ept? .src (σ p) = g.ept? .src p
  ordered : ∀ p q, p.row = q.row → p.index < q.index → (σ p).index < (σ q).index
  /-- Only inputs get other names. -/
  fixed : ∀ p, p.row ≠ .I → σ p = p
  kept : ∀ p src, g.sourceOf? p = some src → g'.sourceOf? p = some (σ src)
  fresh : ∀ p src, g.sourceOf? p = none → g'.sourceOf? p = some src →
    p ∈ g.unconnected ∧ g.kind.isLegal src.row p.row = true
  /-- A new source is there for the sake of a destination that had none. -/
  added : ∀ q, g'.Added σ q →
    ∃ p ∈ g.unconnected, g'.sourceOf? p = some q ∧ g'.ept? .src q = g.ept? .dst p

/-- A connection is not lost to a destination that had no source. -/
theorem sourceOf?_joined_of_some (hd : g.sourceOf? dst = none) (h : g.sourceOf? p = some q) :
    (g.joined dst src).sourceOf? p = some q := by
  rw [sourceOf?_joined, if_neg]
  · exact h
  · rintro rfl
    rw [hd] at h
    cases h

theorem eq_of_joined (h : g.sourceOf? p = none) (h' : (g.joined dst src).sourceOf? p = some q) :
    p = dst ∧ q = src := by
  rw [sourceOf?_joined] at h'
  split at h'
  · rename_i hp
    cases h'
    exact ⟨hp, rfl⟩
  · rw [h] at h'
    cases h'

namespace Conserves

theorem injective (h : Conserves σ g g') : Function.Injective σ := by
  intro p q hpq
  have hrow : p.row = q.row := by rw [← h.src_row p, hpq, h.src_row]
  refine EndPoint.ext hrow ?_
  rcases Nat.lt_trichotomy p.index q.index with hlt | heq | hgt
  · exact absurd (congrArg EndPoint.index hpq) (Nat.ne_of_lt (h.ordered p q hrow hlt))
  · exact heq
  · exact absurd (congrArg EndPoint.index hpq) (Nat.ne_of_gt (h.ordered q p hrow.symm hgt))

theorem dst_ept (h : Conserves σ g g') (p : EndPoint) : g'.ept? .dst p = g.ept? .dst p :=
  ept?_of_interface_eq (h.interface_eq _ _ fun hp => Side.noConfusion hp.2)

theorem exists?_eq (h : Conserves σ g g') (p : EndPoint) :
    g'.exists? .dst p = g.exists? .dst p := by
  rw [Bool.eq_iff_iff, exists?_iff, exists?_iff, h.dst_ept]

theorem sourceOf?_eq_none (h : Conserves σ g g') (hp : g'.sourceOf? p = none) :
    g.sourceOf? p = none := by
  cases hs : g.sourceOf? p with
  | none => rfl
  | some src => rw [h.kept p src hs] at hp; cases hp

theorem unconnected_subset (h : Conserves σ g g') (hp : p ∈ g'.unconnected) :
    p ∈ g.unconnected := by
  rw [mem_unconnected] at hp ⊢
  exact ⟨(h.exists?_eq p).symm.trans hp.1, h.sourceOf?_eq_none hp.2⟩

/-- If nothing is missing any more, just the destinations that had no source have got one. -/
theorem isSome_sourceOf? (h : Conserves σ g g') (hc : g'.Complete) :
    (g'.sourceOf? p).isSome ↔ (g.sourceOf? p).isSome ∨ p ∈ g.unconnected := by
  constructor
  · intro hp
    obtain ⟨src, hs⟩ := Option.isSome_iff_exists.mp hp
    cases hn : g.sourceOf? p with
    | none => exact Or.inr (h.fresh p src hn hs).1
    | some _ => exact Or.inl rfl
  · rintro (hp | hp)
    · obtain ⟨src, hs⟩ := Option.isSome_iff_exists.mp hp
      rw [h.kept p src hs]
      rfl
    · refine hc p ?_
      rw [h.exists?_eq]
      exact (mem_unconnected.mp hp).1

theorem refl (g : Graph) : Conserves id g g where
  kind_eq := rfl
  interface_eq _ _ _ := rfl
  hasRow_iff _ := ⟨Or.inl, fun h => h.elim id fun ⟨q, hq, _⟩ => absurd rfl (hq.2 q)⟩
  src_row _ := rfl
  src_ept _ := rfl
  ordered _ _ _ h := h
  fixed _ _ := rfl
  kept _ _ h := h
  fresh p src hn hs := by rw [hn] at hs; cases hs
  added q hq := absurd rfl (hq.2 q)

/-- A source that is new after two steps was new in the first or in the second. -/
theorem added_comp (h' : Conserves σ' g' g'') :
    g''.Added (σ' ∘ σ) q ↔ (∃ r, g'.Added σ r ∧ σ' r = q) ∨ g''.Added σ' q := by
  constructor
  · intro hq
    by_cases hr : ∃ r, σ' r = q
    · obtain ⟨r, rfl⟩ := hr
      refine Or.inl ⟨r, ⟨?_, fun p hp => hq.2 p (congrArg σ' hp)⟩, rfl⟩
      have hex := hq.1
      rwa [exists?_iff, h'.src_ept, ← exists?_iff] at hex
    · exact Or.inr ⟨hq.1, fun p hp => hr ⟨p, hp⟩⟩
  · rintro (⟨r, hr, rfl⟩ | hq)
    · refine ⟨?_, fun p hp => hr.2 p (h'.injective hp)⟩
      rw [exists?_iff, h'.src_ept, ← exists?_iff]
      exact hr.1
    · exact ⟨hq.1, fun p => hq.2 (σ p)⟩

theorem trans (h : Conserves σ g g') (h' : Conserves σ' g' g'') : Conserves (σ' ∘ σ) g g'' where
  kind_eq := h'.kind_eq.trans h.kind_eq
  interface_eq row a ha := (h'.interface_eq row a ha).trans (h.interface_eq row a ha)
  hasRow_iff row := by
    rw [h'.hasRow_iff, h.hasRow_iff, or_assoc]
    refine or_congr_right ?_
    simp only [added_comp h', or_and_right, exists_or]
    refine or_congr_left ?_
    constructor
    · rintro ⟨r, hr, rfl⟩
      exact ⟨σ' r, ⟨r, hr, rfl⟩, h'.src_row r⟩
    · rintro ⟨_, ⟨r, hr, rfl⟩, rfl⟩
      exact ⟨r, hr, (h'.src_row r).symm⟩
  src_row p := (h'.src_row _).trans (h.src_row p)
  src_ept p := (h'.src_ept _).trans (h.src_ept p)
  ordered p q hr hlt :=
    h'.ordered _ _ ((h.src_row p).trans (hr.trans (h.src_row q).symm)) (h.ordered p q hr hlt)
  fixed p hp := by rw [Function.comp_apply, h.fixed p hp, h'.fixed p hp]
  kept p src hs := h'.kept p _ (h.kept p src hs)
  fresh p src hn hs := by
    cases hm : g'.sourceOf? p with
    | none =>
      obtain ⟨hp, hl⟩ := h'.fresh p src hm hs
      rw [h.kind_eq] at hl
      exact ⟨h.unconnected_subset hp, hl⟩
    | some r =>
      rw [h'.kept p r hm, Option.some.injEq] at hs
      rw [← hs, h'.src_row]
      exact h.fresh p r hn hm
  added q hq := by
    rcases (added_comp h').mp hq with ⟨r, hr, rfl⟩ | hq
    · obtain ⟨p, hp, hs, he⟩ := h.added r hr
      exact ⟨p, hp, h'.kept p r hs, (h'.src_ept r).trans he⟩
    · obtain ⟨p, hp, hs, he⟩ := h'.added q hq
      exact ⟨p, h.unconnected_subset hp, hs, he.trans (h.dst_ept p)⟩

/-- A destination without source is connected to a source of the graph. -/
theorem joined (hd : dst ∈ g.unconnected) (hl : g.kind.isLegal src.row dst.row = true) :
    Conserves id g (g.joined dst src) := by
  refine { refl g with
    kept := fun p s hs => sourceOf?_joined_of_some (mem_unconnected.mp hd).2 hs
    fresh := fun p s hn hs => ?_
    added := fun q hq => absurd rfl (hq.2 q)
    hasRow_iff := fun _ => ⟨Or.inl, fun h => h.elim id fun ⟨q, hq, _⟩ => absurd rfl (hq.2 q)⟩ }
  obtain ⟨rfl, rfl⟩ := eq_of_joined hn hs
  exact ⟨hd, hl⟩

/-- A destination without source is connected to a new input of its type. -/
theorem input (h : g.insert .I .src e = (.ok k, g')) (hd : dst ∈ g.unconnected)
    (he : g.ept? .dst dst = some e) (hl : g.kind.isLegal .I dst.row = true) :
    Conserves (EndPoint.onRow .I ((g.interface .I .src).shift e)) g (g'.joined dst ⟨.I, k⟩) := by
  have hren := renames_insert_input h
  have hext := insert_input h
  obtain ⟨i', -, hint⟩ := interface_insert h
  obtain ⟨-, -, hk, -⟩ := insert_ok h
  have hsource : ∀ p, g'.sourceOf? p = (g.sourceOf? p).map _ := hren.source_eq
  have hnew : ∀ q, (g'.joined dst ⟨.I, k⟩).Added
      (EndPoint.onRow .I ((g.interface .I .src).shift e)) q ↔ q = ⟨.I, k⟩ := by
    intro q
    rw [Added, EndPoint.forall_onRow_shift_ne, ← hk, and_iff_right_iff_imp]
    rintro rfl
    exact exists?_iff.mpr (Option.isSome_iff_exists.mpr ⟨e, hext.new_ept⟩)
  refine ⟨hren.kind_eq, fun row a ha => (hint row a).trans (if_neg ha), fun row => ?_, hren.src_row,
    hren.src_ept, fun p q hr hlt => ?_, fun p hp => EndPoint.onRow_of_ne hp, fun p s hs => ?_,
    fun p s hn hs => ?_, fun q hq => ?_⟩
  · by_cases hrow : row = .I
    · rw [hrow]
      exact iff_of_true hext.hasRow_I (Or.inr ⟨⟨.I, k⟩, (hnew _).mpr rfl, rfl⟩)
    · rw [show (g'.joined dst ⟨.I, k⟩).hasRow row = g.hasRow row from hext.hasRow_of_ne hrow]
      refine ⟨Or.inl, fun h => h.elim id ?_⟩
      rintro ⟨q, hq, rfl⟩
      rw [(hnew q).mp hq] at hrow
      exact absurd rfl hrow
  · unfold EndPoint.onRow
    rw [hr]
    split
    · exact Interface.shift_lt_shift hlt
    · exact hlt
  · refine sourceOf?_joined_of_some ?_ (by rw [hsource, hs]; rfl)
    rw [hsource, (mem_unconnected.mp hd).2]
    rfl
  · obtain ⟨rfl, rfl⟩ := eq_of_joined (by rw [hsource, hn]; rfl) hs
    exact ⟨hd, hl⟩
  · obtain rfl := (hnew q).mp hq
    exact ⟨dst, hd, sourceOf?_joined.trans (if_pos rfl), hext.new_ept.trans he.symm⟩

end Conserves

end Graph

/-! ## Codes -/

/-- `c'` is `c` with more connections and inputs. -/
structure Code.Conserves (c c' : Code) : Prop where
  subA_eq : c'.subA = c.subA
  subB_eq : c'.subB = c.subB
  graph : ∃ σ, c.graph.Conserves σ c'.graph

theorem Code.Conserves.refl (c : Code) : c.Conserves c := ⟨rfl, rfl, _, .refl c.graph⟩

theorem Code.Conserves.trans {c c' c'' : Code} (h : c.Conserves c') (h' : c'.Conserves c'') :
    c.Conserves c'' := by
  obtain ⟨hA, hB, σ, hg⟩ := h
  obtain ⟨hA', hB', σ', hg'⟩ := h'
  exact ⟨hA'.trans hA, hB'.trans hB, _, hg.trans hg'⟩

namespace Stabilizer

open Repair

variable {s : Stabilizer} {wrapped : Bool} {c : Code} {i : Insertion} {dst src : EndPoint}
  {e : Ept} {run run' : Run} {ans : Except GraphError Frozen} {k : Nat} {kind : SourceKind}

/-! ## Attempts -/

theorem conserves_feedFrom (hd : dst ∈ c.graph.unconnected) (he : c.graph.ept? .dst dst = some e)
    (hsrc : src ∈ s.viable c.graph dst e) :
    (feedFrom kind c dst src).Yields (fun _ => True) c.Conserves :=
  (yields_feedFrom_joined trivial).mono fun _ h =>
    h ▸ ⟨rfl, rfl, _, .joined hd (mem_viable he hsrc).1.legal⟩

theorem conserves_feedNewInput (hd : dst ∈ c.graph.unconnected)
    (he : c.graph.ept? .dst dst = some e) (ha : admitsNewInput c dst e = true) :
    (feedNewInput c dst e).Yields (fun _ => True) c.Conserves := by
  unfold admitsNewInput at ha
  simp only [Bool.and_eq_true] at ha
  unfold feedNewInput
  split
  · exact yields_throw _
  · rename_i hg
    exact (yields_feedFrom_joined trivial).mono fun _ h =>
      h ▸ ⟨rfl, rfl, _, .input hg hd he ha.1.1.1⟩

/-- Without candidates, an attempt leaves no fetal code and makes no connection that is not
needed. -/
theorem conserves_attempt (hp : ¬ s.pool.Supplies) (hd : dst ∈ c.graph.unconnected) :
    (s.attempt c dst wrapped).Yields (fun _ => True)
      fun i => i.fetal = none ∧ c.Conserves i.code := by
  refine yields_attempt (fun e he => ?_) fun e => ?_
  · exact (yields_repairInside (fun _ hsrc _ => conserves_feedFrom hd he hsrc)
      (fun _ ha => conserves_feedNewInput hd he ha)
      fun _ hsrc _ => conserves_feedFrom hd he hsrc).mono fun _ h c' hc => ⟨rfl, h c' hc⟩
  · exact yields_attemptOutside (fun _ => trivial) ⟨rfl, .refl c⟩ fun h => absurd h hp

/-- The same holds of an attempt that fetches nothing, whatever the pool has. -/
theorem inside_attempt (hd : dst ∈ c.graph.unconnected) :
    (s.attempt c dst wrapped).Within (fun ev => ev.isFetch = false)
      fun i => i.fetal = none ∧ c.Conserves i.code := by
  unfold attempt
  split
  · exact (yields_throw _).within
  rename_i e he
  refine (yields_repairInside (fun _ hsrc _ => conserves_feedFrom hd he hsrc)
    (fun _ ha => conserves_feedNewInput hd he ha)
      fun _ hsrc _ => conserves_feedFrom hd he hsrc).bind_within fun o ho => ?_
  cases o with
  | some c' => exact (yields_pure ⟨rfl, ho c' rfl⟩).within
  | none =>
    show (s.attemptOutside c dst e).Within _ _
    unfold attemptOutside
    split
    · exact (yields_exhausted c).within
    rename_i above _
    split
    · exact (yields_exhausted c).within
    refine yields_drawQuery.bind_within fun q _ => (yields_ask q).bind_within fun cs _ =>
      (yields_choose _).bind_within fun o _ => ?_
    cases o with
    | none => exact (yields_pure ⟨rfl, .refl c⟩).within
    | some pick =>
      refine within_tell nofun ?_
      split
      · exact yields_throw _
      · rename_i insert _
        have hsplice : (s.spliceIn above c insert dst e).Yields (fun _ => True)
            (Insertion.Frames true c) := frames_spliceIn above insert
        exact hsplice.mono fun _ _ => trivial

/-! ## Runs -/

theorem Concludes.extends (h : s.Concludes wrapped i run k ans run') :
    run.Extends (fun _ => True) run' :=
  h.tells (fun wrapped c _ _ _ =>
    (frames_attempt : (s.attempt c _ wrapped).Yields (fun _ => True) _).mono fun _ _ => trivial)
      fun _ _ => trivial

/-- If each attempt conserves its code as long as only events of a kind are told, a run that tells
no others and ends with a code ends with what became of the code that it began with. -/
theorem Concludes.conserves_within {E : Event → Prop}
    (hattempt : ∀ wrapped c dst, dst ∈ c.graph.unconnected →
      (s.attempt c dst wrapped).Within E fun i => i.fetal = none ∧ c.Conserves i.code)
    (h : s.Concludes wrapped i run k ans run') (hi : i.fetal = none) (hlog : run.Extends E run') :
    ∀ f, ans = .ok f → ∃ c' n, i.code.Conserves c' ∧ c'.violation? s.registry = none ∧
      f = c'.freeze n := by
  induction h with
  | valid hv =>
    rintro f hf
    cases hf
    exact ⟨_, _, .refl _, hv, rfl⟩
  | broken | exhausted | failed => exact nofun
  | lost | misfit | grafted => cases hi
  | repaired hv _ ha hc ih =>
    intro f hf
    obtain ⟨p, hp, hmem⟩ := (Code.sound_of_incomplete hv).incomplete hv
    cases hp
    obtain ⟨htold, hstep⟩ := (ends_of_outcome ha).mp (hattempt _ _ _ hmem _)
    obtain ⟨hlog, hlog'⟩ := Run.Extends.split htold hc.extends hlog
    obtain ⟨hfetal, hstep⟩ := hstep hlog _ rfl
    obtain ⟨c', n, hrest, hvalid, hcode⟩ := ih hfetal hlog' f hf
    exact ⟨c', n, hstep.trans hrest, hvalid, hcode⟩

/-- Without candidates, nothing can keep a run from conserving its code. -/
theorem Concludes.conserves (hp : ¬ s.pool.Supplies) (h : s.Concludes wrapped i run k ans run')
    (hi : i.fetal = none) : ∀ f, ans = .ok f →
      ∃ c', i.code.Conserves c' ∧ c'.violation? s.registry = none ∧ f.code = c'.canonical := by
  intro f hf
  obtain ⟨c', n, hrest, hvalid, rfl⟩ :=
    h.conserves_within (fun _ _ _ hd => (conserves_attempt hp hd).within) hi h.extends f hf
  exact ⟨c', hrest, hvalid, rfl⟩

/-- Without candidates from the pool, a stabilized code is the code that was given, with the
connections that were missing and with inputs for some of them, in canonical order. -/
theorem stabilize_conserves (s : Stabilizer) (hp : ¬ s.pool.Supplies) (c : Code)
    (hc : c.kind.isWiringExempt = false) (run run' : Run) (f : Frozen)
    (h : (s.stabilize c).outcome run = (.ok f, run')) :
    f.kind = c.kind ∧ f.subA = c.subA ∧ f.subB = c.subB ∧ ∃ σ g, c.graph.Conserves σ g ∧
      (∀ p, (g.sourceOf? p).isSome ↔ (c.graph.sourceOf? p).isSome ∨ p ∈ c.graph.unconnected) ∧
      f.graph = g.reorder ∧ g.Moves (g.place .dst) (g.place .src) f.graph := by
  obtain ⟨k, hk⟩ := (ends_of_outcome h).mp (stabilize_concludes s c run)
  obtain ⟨c', ⟨hA, hB, σ, hg⟩, hv, hf⟩ := hk.conserves hp rfl f rfl
  obtain ⟨hs, hw⟩ := Code.violation?_eq_none_iff.mp hv
  have hcomplete : c'.graph.Complete := hw.resolve_left (by
    rw [show c'.kind = c.kind from hg.kind_eq, hc]
    exact Bool.false_ne_true)
  have hgraph : f.graph = c'.graph.reorder := congrArg Code.graph hf
  have hmoves := Graph.moves_reorder hs.anchored
  rw [← hgraph] at hmoves
  exact ⟨hmoves.kind_eq.trans hg.kind_eq, (congrArg Code.subA hf).trans hA,
    (congrArg Code.subB hf).trans hB, σ, c'.graph, hg, fun _ => hg.isSome_sourceOf? hcomplete,
    hgraph, hmoves⟩

/-- The output of the sample code is fed from a new input, which comes behind the old one. -/
theorem stabilize_conserves_sample :
    ¬ Stabilizer.sample.pool.Supplies ∧ Code.sample.kind.isWiringExempt = false ∧
    ∃ f run' σ g, (Stabilizer.sample.stabilize .sample).outcome .sample = (.ok f, run') ∧
      f.inputs.length = Code.sample.inputs.length + 1 ∧ Code.sample.graph.Conserves σ g ∧
      f.graph = g.reorder := by
  have hp : ¬ Stabilizer.sample.pool.Supplies := by
    rintro ⟨_, _, cs, hcs, -⟩
    cases hcs
  have hk : Code.sample.kind.isWiringExempt = false := by decide +kernel
  have hrun : ((Stabilizer.sample.stabilize .sample).outcome .sample).1.toOption.map
      (fun f => f.inputs.length) = some (Code.sample.inputs.length + 1) := by decide +kernel
  obtain ⟨f, hf, hlen⟩ := toOption_map_eq_some.mp hrun
  obtain ⟨-, -, -, σ, g, hg, -, hgraph, -⟩ :=
    stabilize_conserves .sample hp .sample hk .sample _ f (Prod.ext hf rfl)
  exact ⟨hp, hk, f, _, σ, g, Prod.ext hf rfl, hlen, hg, hgraph⟩

end Stabilizer

end GeneGraph
