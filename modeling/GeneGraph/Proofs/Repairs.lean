import GeneGraph.Proofs.Joining
import GeneGraph.Proofs.Outcomes
import GeneGraph.Samples

/-!
# Repairs without a gene pool

Where the gene pool has nothing to offer, all a stabilization can do is to feed destinations from
inside the code. A step keeps a sound code sound, with two exceptions (`Event.Harmless`): a new
input is added without a look at the fixed instances of its row, and feeding a sub-code can
change what its wildcard outputs deliver to destinations that were fed before. So a stabilization
ends as it should exactly if no step is of that kind (`Stabilizer.stabilize_expected_iff`).
-/

namespace GeneGraph

/-- The pool never has a candidate. -/
def GenePool.Barren (p : GenePool) : Prop :=
  ∀ asked q, p.find asked q = .ok [] ∨ ∃ t, p.find asked q = .error (.timeout t)

/-- A connection that breaks nothing: a new input agrees with the fixed instances of its row, and
the wildcard outputs of a sub-code that is fed still fit where they are used. -/
def Event.Harmless (r : Registry) : Event → Prop
  | .connected kind g dst _ =>
    (kind = .newInput → (g.rowChoices dst.row).Agree) ∧ (dst.row.isSub = true → g.WildFits r)
  | _ => True

/-- A stabilization ends with a code, or it gives up. -/
def AsExpected {α : Type} (ans : Except GraphError α) : Prop :=
  (∃ a, ans = .ok a) ∨ ∃ remaining attempts, ans = .error (.stabilizationFailed remaining attempts)

theorem Prng.choose_nil {α : Type} (g : Prng) : g.choose ([] : List α) = (none, g) := rfl

namespace Stabilizer

open Repair

variable {s : Stabilizer} {c c' : Code} {run run' : Run} {dst src : EndPoint} {e : Ept}
  {kind : SourceKind}

/-! ## Sources -/

/-- What a source has to satisfy to be connected. -/
structure Admits (s : Stabilizer) (g : Graph) (dst src : EndPoint) (d : Ept) : Prop where
  legal : g.kind.isLegal src.row dst.row = true
  takes : ∃ e, g.delivered src = some e ∧ s.registry.isCompatible e d = true

theorem mem_viable (hd : c.graph.ept? .dst dst = some e) (h : src ∈ s.viable c.graph dst e) :
    s.Admits c.graph dst src e ∧ ∀ e', c.graph.delivered src = some e' →
      ((c.graph.knownChoices dst.row dst.index).record (e'.choices e)).1 = none := by
  rw [viable, viableAmong, hd] at h
  obtain ⟨hmem, hacc⟩ := List.mem_filter.mp h
  obtain ⟨row, hrow, hp⟩ := List.mem_flatMap.mp hmem
  obtain ⟨k, -, rfl⟩ := List.mem_map.mp hp
  rw [accepts] at hacc
  split at hacc
  · cases hacc
  · rename_i e' he
    obtain ⟨hc, hk⟩ := Bool.and_eq_true_iff.mp hacc
    refine ⟨⟨decide_eq_true hrow, e', he, hc⟩, fun e'' he'' => ?_⟩
    rw [he, Option.some.injEq] at he''
    subst he''
    exact Option.isNone_iff_eq_none.mp hk

/-! ## Steps -/

/-- The run goes on with the same count of repairs, and nothing is told. -/
def Quiet (run run' : Run) : Prop := run'.used = run.used ∧ run'.log = run.log

theorem Quiet.trans {run'' : Run} (h : Quiet run run') (h' : Quiet run' run'') : Quiet run run'' :=
  ⟨h'.1.trans h.1, h'.2.trans h.2⟩

/-- A destination of the code was fed: the code stays sound exactly if that was harmless, and can
only get a type clash. -/
structure Fed (s : Stabilizer) (run : Run) (c' : Code) (run' : Run) : Prop where
  used_eq : run'.used = run.used
  told : ∃ ev, run'.log = run.log ++ [ev] ∧ (c'.Sound s.registry ↔ ev.Harmless s.registry)
  clash : c'.Sound s.registry ∨ ∃ v, c'.violation? s.registry = some v ∧ v.IsTypeClash

theorem Fed.of_drawn {g : Prng} (h : s.Fed { run with prng := g } c' run') : s.Fed run c' run' :=
  ⟨h.used_eq, h.told, h.clash⟩

/-- The destination was fed, or nothing was done. -/
def Tried (s : Stabilizer) (run run' : Run) : Option Code → Prop
  | none => Quiet run run'
  | some c' => s.Fed run c' run'

theorem Tried.of_drawn {g : Prng} {o : Option Code} (h : s.Tried { run with prng := g } run' o) :
    s.Tried run run' o := by
  cases o with
  | none => exact h
  | some c' => exact Fed.of_drawn h

/-- Connecting end points that exist changes nothing but the code. -/
theorem outcome_connect (hs : c.graph.exists? .src src = true)
    (hd : c.graph.exists? .dst dst = true) :
    (Repair.connect c src dst).outcome run = (.ok (c.joined dst src), run) := by
  show (c.connectAll [(src, dst)], run) = _
  rw [Code.connectAll_eq_joined hs hd]

/-- Connecting an admitted source feeds the destination. -/
theorem feedFrom_ends (hs : c.Sound s.registry) (hd : c.graph.ept? .dst dst = some e)
    (ha : s.Admits c.graph dst src e)
    (hrow : kind ≠ .newInput → ((c.joined dst src).graph.rowChoices dst.row).Agree) :
    (feedFrom kind c dst src).Ends run fun ans run' => ∃ c', ans = .ok c' ∧ s.Fed run c' run' := by
  obtain ⟨e', he, hc⟩ := ha.takes
  have hsrc : c.graph.exists? .src src = true := Graph.exists?_of_delivered he
  have hdst : c.graph.exists? .dst dst = true := Graph.exists?_iff.mpr (by rw [hd]; rfl)
  have hiff := Code.joined_sound_iff hs hd he ha.legal hc
  unfold Ends feedFrom
  rw [Procedure.outcome_bind, outcome_connect hsrc hdst]
  refine ⟨c.joined dst src, rfl, rfl, ⟨_, rfl, hiff.trans ?_⟩,
    Code.sound_or_clash hs.rows hs.subs (Code.joined_anchored hs.anchored hdst hsrc)
      (Code.joined_legal hs.legal ha.legal)⟩
  refine and_congr_left fun _ => ⟨fun h _ => h, fun h => ?_⟩
  by_cases hk : kind = .newInput
  · exact h hk
  · exact hrow hk

/-- Drawing among viable sources feeds the destination, or does nothing. -/
theorem feedDrawn_ends (kind : SourceKind) (hs : c.Sound s.registry)
    (hd : c.graph.ept? .dst dst = some e) {sources : List EndPoint}
    (hsub : ∀ p ∈ sources, p ∈ s.viable c.graph dst e) :
    (feedDrawn kind c dst sources).Ends run fun ans run' => ∃ o, ans = .ok o ∧
      s.Tried run run' o := by
  unfold feedDrawn
  rw [ends_draw_bind]
  cases hx : (run.prng.choose sources).1 with
  | none => exact ⟨none, rfl, rfl, rfl⟩
  | some src =>
    obtain ⟨ha, hknown⟩ := mem_viable hd (hsub src (Prng.choose_mem hx))
    obtain ⟨e', he, -⟩ := ha.takes
    refine ends_bind_of_ok ((feedFrom_ends hs hd ha fun _ => ?_).mono ?_)
    · exact Graph.rowChoices_joined_agree hs.legal (hs.agree _) ha.legal hd he (hknown e' he)
    · rintro ans run' ⟨c', rfl, hfed⟩
      exact ⟨c', rfl, some c', rfl, hfed.of_drawn⟩

/-- A new input feeds the destination. -/
theorem feedNewInput_ends (hs : c.Sound s.registry) (hd : c.graph.ept? .dst dst = some e)
    (h : admitsNewInput c dst e = true) :
    (feedNewInput c dst e).Ends run fun ans run' => ∃ c', ans = .ok c' ∧ s.Fed run c' run' := by
  unfold admitsNewInput at h
  simp only [Bool.and_eq_true, decide_eq_true_eq] at h
  obtain ⟨⟨⟨hl, hI⟩, -⟩, hfit⟩ := h
  obtain ⟨k, g, hg⟩ := Graph.insert_total hfit
  have hext := Graph.insert_input hg
  unfold feedNewInput
  rw [hg]
  refine feedFrom_ends (hs.extended hext hI) (e := e) ?_ ⟨?_, e, ?_, Registry.isCompatible_self _ e⟩
    fun hk => absurd rfl hk
  · rw [← hd]
    exact Graph.ept?_of_interface_eq (hext.dst_eq _)
  · show g.kind.isLegal _ _ = true
    rw [hext.kind_eq]
    exact hl
  · rw [← hext.new_ept]
    exact Graph.deliveredWithin_of_not_isSub rfl

/-- A repair from inside feeds the destination, or does nothing. -/
theorem repairInside_ends (hs : c.Sound s.registry) (hd : c.graph.ept? .dst dst = some e)
    (wrapped : Bool) :
    (s.repairInside c dst e wrapped).Ends run fun ans run' => ∃ o, ans = .ok o ∧
      s.Tried run run' o := by
  unfold repairInside
  rw [ends_draw_bind]
  cases hx : (run.prng.choose (sourceKinds (unusedAmong c.graph (s.viable c.graph dst e))
    (s.reusableAmong c.graph (s.viable c.graph dst e))
      (!wrapped && admitsNewInput c dst e))).1 with
  | none => exact ⟨none, rfl, rfl, rfl⟩
  | some kind =>
    cases kind with
    | unused =>
      refine Ends.mono (feedDrawn_ends .unused hs hd fun p hp =>
        (List.mem_filter.mp hp).1) ?_
      rintro ans run' ⟨o, rfl, ho⟩
      exact ⟨o, rfl, ho.of_drawn⟩
    | reused =>
      refine Ends.mono (feedDrawn_ends .reused hs hd fun p hp =>
        (List.mem_filter.mp hp).1) ?_
      rintro ans run' ⟨o, rfl, ho⟩
      exact ⟨o, rfl, ho.of_drawn⟩
    | newInput =>
      have hadm : admitsNewInput c dst e = true :=
        (Bool.and_eq_true_iff.mp (newInput_of_mem_sourceKinds (Prng.choose_mem hx))).2
      refine ends_bind_of_ok ((feedNewInput_ends hs hd hadm).mono ?_)
      rintro ans run' ⟨c', rfl, hfed⟩
      exact ⟨c', rfl, some c', rfl, hfed.of_drawn⟩

/-- A pool without candidates gives none. -/
theorem ask_ends (hp : s.pool.Barren) (q : Query) :
    (s.ask q).Ends run fun ans run' => ans = .ok [] ∧ Quiet run run' := by
  unfold ask
  rw [ends_get_bind, ends_modify_bind]
  rcases hp run.asked q with h | ⟨t, h⟩
  · rw [h]
    exact ⟨rfl, rfl, rfl⟩
  · rw [h]
    exact ⟨rfl, rfl, rfl⟩

/-- Without candidates, the code stays as it is, or it is given up. -/
theorem repairOutside_ends (hp : s.pool.Barren) (stabilize : Code → Repair Frozen) (c : Code)
    (dst : EndPoint) (e : Ept) :
    (s.repairOutside stabilize c dst e).Ends run fun ans run' => Quiet run run' ∧
      (ans = .ok c ∨ ∃ remaining attempts,
        ans = .error (.stabilizationFailed remaining attempts)) := by
  unfold repairOutside
  split
  · exact ⟨⟨rfl, rfl⟩, Or.inr ⟨_, _, rfl⟩⟩
  split
  · exact ⟨⟨rfl, rfl⟩, Or.inr ⟨_, _, rfl⟩⟩
  unfold drawQuery
  rw [bind_assoc, ends_draw_bind, bind_assoc, ends_draw_bind, pure_bind]
  refine ends_bind_of_ok ((ask_ends hp _).mono ?_)
  rintro ans run' ⟨rfl, hq⟩
  refine ⟨[], rfl, ?_⟩
  rw [ranked_nil, ends_draw_bind, Prng.choose_nil]
  exact ⟨hq, Or.inl rfl⟩

/-- Without candidates, a repair feeds the destination, does nothing or gives up. -/
theorem repair_ends (hp : s.pool.Barren) (hs : c.Sound s.registry)
    (hd : (c.graph.ept? .dst dst).isSome) (stabilize : Code → Repair Frozen) (wrapped : Bool) :
    (s.repair stabilize c dst wrapped).Ends run fun ans run' =>
      (∃ c', ans = .ok c' ∧ s.Fed run c' run') ∨ (Quiet run run' ∧ (ans = .ok c ∨
        ∃ remaining attempts, ans = .error (.stabilizationFailed remaining attempts))) := by
  obtain ⟨e, he⟩ := Option.isSome_iff_exists.mp hd
  unfold repair
  rw [he]
  refine ends_bind_of_ok ((repairInside_ends hs he wrapped).mono ?_)
  rintro ans run' ⟨o, rfl, ho⟩
  refine ⟨o, rfl, ?_⟩
  cases o with
  | some c' => exact Or.inl ⟨c', rfl, ho⟩
  | none =>
    refine (repairOutside_ends hp stabilize c dst e).mono ?_
    rintro ans run'' ⟨hq, hans⟩
    exact Or.inr ⟨Quiet.trans ho hq, hans⟩

/-! ## Runs -/

/-- How the stabilization of a code goes on from `run`: it ends as it should exactly if the code
is sound and all steps are harmless, and else in a type clash. -/
structure Course (s : Stabilizer) (c : Code) (run : Run) (ans : Except GraphError Frozen)
    (run' : Run) : Prop where
  told : ∃ new, run'.log = run.log ++ new ∧
    (AsExpected ans ↔ c.Sound s.registry ∧ ∀ ev ∈ new, ev.Harmless s.registry)
  clash : AsExpected ans ∨ ∃ v, ans = .error (.violation v) ∧ v.IsTypeClash

section Course

variable {ans : Except GraphError Frozen} {run'' : Run}

theorem Course.of_expected (hs : c.Sound s.registry) (hlog : run'.log = run.log)
    (h : AsExpected ans) : s.Course c run ans run' :=
  ⟨⟨[], by rw [hlog, List.append_nil], fun _ => ⟨hs, fun _ h => absurd h List.not_mem_nil⟩,
    fun _ => h⟩, Or.inl h⟩

theorem Course.of_clash {v : Violation} (hs : ¬ c.Sound s.registry) (h : v.IsTypeClash) :
    s.Course c run (.error (.violation v)) run := by
  have hans : ¬ AsExpected (.error (.violation v) : Except GraphError Frozen) := by
    rintro (⟨f, h⟩ | ⟨remaining, attempts, h⟩) <;> cases h
  exact ⟨⟨[], (List.append_nil _).symm, iff_of_false hans fun h => hs h.1⟩, Or.inr ⟨v, rfl, h⟩⟩

/-- What comes after a step that told nothing. -/
theorem Course.of_quiet (hlog : run'.log = run.log) (h : s.Course c run' ans run'') :
    s.Course c run ans run'' := by
  obtain ⟨new, hlog', hans⟩ := h.told
  exact ⟨⟨new, by rw [hlog', hlog], hans⟩, h.clash⟩

/-- What comes after a step that fed a destination. -/
theorem Course.of_fed (hs : c.Sound s.registry)
    (htold : ∃ ev, run'.log = run.log ++ [ev] ∧
      (c'.Sound s.registry ↔ ev.Harmless s.registry))
    (h : s.Course c' run' ans run'') : s.Course c run ans run'' := by
  obtain ⟨ev, hlog, hev⟩ := htold
  obtain ⟨new, hlog', hans⟩ := h.told
  refine ⟨⟨ev :: new, by rw [hlog', hlog, List.append_assoc]; rfl, hans.trans ?_⟩, h.clash⟩
  rw [List.forall_mem_cons, hev]
  exact ⟨fun h => ⟨hs, h⟩, fun h => h.2⟩

end Course

/-- The course of a run that has as many nested calls left as it may still make repairs. -/
theorem run_course (hp : s.pool.Barren) (n : Nat) (wrapped : Bool) (c : Code) (run : Run)
    (hc : c.Sound s.registry ∨ ∃ v, c.violation? s.registry = some v ∧ v.IsTypeClash)
    (hn : s.tuning.attemptLimit.toNat < n + run.used)
    (hu : run.used ≤ s.tuning.attemptLimit.toNat) :
    (s.run n wrapped c).Ends run (s.Course c run) := by
  induction n generalizing c run with
  | zero => omega
  | succ n ih =>
    rw [Stabilizer.run]
    split
    · -- valid
      rename_i hv
      exact Course.of_expected (Code.violation?_eq_none_iff.mp hv).1 rfl (Or.inl ⟨_, rfl⟩)
    · -- incomplete
      rename_i dst _ hv
      have hs := Code.sound_of_incomplete hv
      have hd : (c.graph.ept? .dst dst).isSome := by
        obtain ⟨p, hp, hmem⟩ := hs.incomplete hv
        cases hp
        exact Graph.exists?_iff.mp (Graph.mem_unconnected.mp hmem).1
      rw [ends_get_bind]
      split
      · exact Course.of_expected hs rfl (Or.inr ⟨_, _, rfl⟩)
      rename_i hlt
      rw [ends_modify_bind, ends_bind]
      refine (repair_ends hp hs hd (s.run n false) wrapped).mono ?_
      rintro ans run' (⟨c', rfl, hfed⟩ | ⟨hq, rfl | ⟨remaining, attempts, rfl⟩⟩)
      · refine ⟨fun a h => ?_, fun _ h => nomatch h⟩
        cases h
        have hused : run'.used = run.used + 1 := hfed.used_eq
        refine (ih c' run' hfed.clash (by omega) (by omega)).mono fun ans run'' h => ?_
        exact .of_fed hs hfed.told h
      · refine ⟨fun a h => ?_, fun _ h => nomatch h⟩
        cases h
        have hused : run'.used = run.used + 1 := hq.1
        refine (ih c run' (Or.inl hs) (by omega) (by omega)).mono fun ans run'' h => ?_
        exact .of_quiet hq.2 h
      · refine ⟨fun _ h => (nomatch h), fun err h => ?_⟩
        cases h
        exact .of_expected hs hq.2 (Or.inr ⟨_, _, rfl⟩)
    · -- another violation
      rename_i v hne hv
      have hns : ¬ c.Sound s.registry := fun hs => by
        obtain ⟨p, rfl, -⟩ := hs.incomplete hv
        exact absurd rfl (hne _ _)
      obtain ⟨v', hv', hclash⟩ := hc.resolve_left hns
      rw [hv, Option.some.injEq] at hv'
      subst hv'
      exact Course.of_clash hns hclash

/-- Without candidates, the stabilization of an incomplete code ends as it should exactly if all
its steps are harmless; if not, it ends in a type clash. -/
theorem stabilize_expected_iff (hp : s.pool.Barren) {p : EndPoint} {row : Option Row}
    (hc : c.violation? s.registry = some (.incomplete p row)) :
    (s.stabilize c).Ends run fun ans run' => ∃ new, run'.log = run.log ++ new ∧
      (AsExpected ans ↔ ∀ ev ∈ new, ev.Harmless s.registry) ∧
      (AsExpected ans ∨ ∃ v, ans = .error (.violation v) ∧ v.IsTypeClash) := by
  have hs := Code.sound_of_incomplete hc
  unfold stabilize
  rw [ends_modify_bind]
  refine (run_course hp _ false c _ (Or.inl hs) ?_ (Nat.zero_le _)).mono fun ans run' h => ?_
  · exact Nat.lt_succ_self _
  · obtain ⟨new, hlog, hans⟩ := h.told
    refine ⟨new, hlog, ?_, h.clash⟩
    rw [hans, and_iff_right hs]

theorem timingOut_barren : GenePool.timingOut.Barren := fun _ q => Or.inr ⟨q.timeout, rfl⟩

/-- The output is fed from the input, and that is harmless. -/
theorem stabilize_expected_sample :
    Code.sample.violation? .empty = some (.incomplete ⟨.O, 0⟩ none) ∧
    (Stabilizer.sample.stabilize .sample).Ends .sample fun ans run' => AsExpected ans ∧
      ∀ ev ∈ run'.log, ev.Harmless .empty := by
  have hc : Code.sample.violation? .empty = some (.incomplete ⟨.O, 0⟩ none) := by decide +kernel
  have hok : ((Stabilizer.sample.stabilize .sample).outcome .sample).1.toOption.map Frozen.kind =
      some .standard := by decide +kernel
  have hans : AsExpected ((Stabilizer.sample.stabilize .sample).outcome .sample).1 := by
    obtain ⟨f, hf, -⟩ := toOption_map_eq_some.mp hok
    exact Or.inl ⟨f, hf⟩
  have hends : (Stabilizer.sample.stabilize .sample).Ends .sample _ :=
    stabilize_expected_iff timingOut_barren hc
  obtain ⟨new, hlog, hiff, -⟩ := hends
  refine ⟨hc, hans, fun ev hev => hiff.mp hans ev ?_⟩
  rwa [hlog] at hev

/-- Two outputs for one fixed instance, the first of which is an integer. -/
def clashing : Code :=
  (Code.pair .empty ⟨[.plain 1 9, .plain 1 9], Nat.le_of_ble_eq_true rfl⟩
    (.codon .empty (.single 3)) (.codon .empty .empty)).wired [(⟨.A, 0⟩, ⟨.O, 0⟩)]

/-- The second output gets an input of its own abstract type, which clashes with the integer. -/
theorem stabilize_clashing :
    clashing.violation? sampleRegistry = some (.incomplete ⟨.O, 1⟩ none) ∧
    ¬ AsExpected ((stabilize ⟨sampleRegistry, .timingOut, ⟨1, 1, 3, 16, 2000, 0⟩⟩
      clashing).outcome .sample).1 := by
  refine ⟨by decide +kernel, ?_⟩
  have hans : ((stabilize ⟨sampleRegistry, .timingOut, ⟨1, 1, 3, 16, 2000, 0⟩⟩
      clashing).outcome .sample).1.map Frozen.digest =
    .error (.violation (.instanceConflict .O 1)) := by decide +kernel
  rintro (⟨f, h⟩ | ⟨remaining, attempts, h⟩)
  · rw [h] at hans
    cases hans
  · rw [h] at hans
    cases hans

end Stabilizer

end GeneGraph
