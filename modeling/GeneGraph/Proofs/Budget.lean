import GeneGraph.Proofs.Checks
import GeneGraph.Proofs.Conclusions

/-!
# The budget of a stabilization

Fetal codes are stabilized on the budget of the code that waits for them, and grafting them can
leave more destinations without source than there were. So only the account of repairs bounds a
stabilization. An attempt at a repair asks the gene pool once at most (`Stabilizer.costs_attempt`),
and a derivation of `Stabilizer.Concludes` counts the attempts (`Stabilizer.Concludes.spends`).
With as many nested calls as there are repairs left, `Stabilizer.run` reaches a conclusion
(`Stabilizer.run_concludes`).
-/

namespace GeneGraph

/-! ## Errors of other causes -/

/-- The error is that destinations remain without source. -/
def GraphError.givesUp : GraphError → Bool
  | .stabilizationFailed .. => true
  | _ => false

/-- If there is an error, it is another one than giving up. -/
def NeverGivesUp {α : Type} (x : Except GraphError α) : Prop :=
  ∀ err, x = .error err → err.givesUp = false

section NeverGivesUp

variable {α β σ : Type} {x : Except GraphError α} {f : α → Except GraphError β} {err : GraphError}

theorem neverGivesUp_ok (a : α) : NeverGivesUp (.ok a) := fun _ h => by cases h

theorem neverGivesUp_error (h : err.givesUp = false) :
    NeverGivesUp (.error err : Except GraphError α) := fun _ h' => by cases h'; exact h

theorem NeverGivesUp.of_error (hx : NeverGivesUp x) (h : x = .error err) :
    NeverGivesUp (.error err : Except GraphError β) := neverGivesUp_error (hx err h)

theorem NeverGivesUp.ne (hx : NeverGivesUp x) (remaining attempts : Nat) :
    x ≠ .error (.stabilizationFailed remaining attempts) := fun h => nomatch hx _ h

theorem NeverGivesUp.bind (hx : NeverGivesUp x) (hf : ∀ a, NeverGivesUp (f a)) :
    NeverGivesUp (x >>= f) := by
  cases x with
  | ok a => exact hf a
  | error err => exact hx.of_error rfl

theorem neverGivesUp_foldlM {f : σ → α → Except GraphError σ} (hf : ∀ s a, NeverGivesUp (f s a))
    (l : List α) (s : σ) : NeverGivesUp (l.foldlM f s) := by
  induction l generalizing s with
  | nil => exact neverGivesUp_ok _
  | cons a l ih =>
    rw [List.foldlM_cons]
    exact (hf s a).bind ih

theorem neverGivesUp_mapM (hf : ∀ a, NeverGivesUp (f a)) (l : List α) :
    NeverGivesUp (l.mapM f) := by
  induction l with
  | nil => exact neverGivesUp_ok _
  | cons a l ih =>
    rw [List.mapM_cons]
    exact (hf a).bind fun b => ih.bind fun bs => neverGivesUp_ok _

theorem Interface.neverGivesUp_grow (i : Interface) (e : Ept) (epts : List Ept)
    (h : elementsOf epts = i.elements + e.length) : NeverGivesUp (i.grow e epts h) := by
  unfold grow
  split
  · exact neverGivesUp_ok _
  · exact neverGivesUp_error rfl

theorem Graph.neverGivesUp_insert (g : Graph) (row : Row) (a : Side) (e : Ept) :
    NeverGivesUp (g.insert row a e).1 := by
  have h : NeverGivesUp ((g.interface row a).insert e) := Interface.neverGivesUp_grow _ _ _ _
  unfold insert
  simp only
  split
  · exact h.of_error ‹_›
  · exact neverGivesUp_ok _

theorem Graph.neverGivesUp_connect (g : Graph) (src dst : EndPoint) :
    NeverGivesUp (g.connect src dst).1 := by
  have h (a : Side) (p : EndPoint) : NeverGivesUp (g.checkPoint a p) := by
    unfold checkPoint
    split
    · exact neverGivesUp_ok _
    · exact neverGivesUp_error rfl
  unfold connect
  split
  · exact (h .src src).of_error ‹_›
  · exact (h .dst dst).of_error ‹_›
  · exact neverGivesUp_ok _

theorem Graph.neverGivesUp_connectAll (g : Graph) (ws : List (EndPoint × EndPoint)) :
    NeverGivesUp (g.connectAll ws) := by
  refine neverGivesUp_foldlM (fun g w => ?_) ws g
  have h := g.neverGivesUp_connect w.1 w.2
  split
  · rename_i heq
    exact h.of_error (by rw [heq])
  · exact neverGivesUp_ok _

theorem Code.neverGivesUp_connectAll (c : Code) (ws : List (EndPoint × EndPoint)) :
    NeverGivesUp (c.connectAll ws) :=
  (c.graph.neverGivesUp_connectAll ws).bind fun _ => neverGivesUp_ok _

theorem Graph.neverGivesUp_feeders (g : Graph) (row : Row) : NeverGivesUp (g.feeders row) := by
  refine (neverGivesUp_foldlM (fun fs w => ?_) _ _).bind fun _ => neverGivesUp_ok _
  unfold Feeder.add
  split
  · exact neverGivesUp_ok _
  · split
    · exact neverGivesUp_error rfl
    · exact neverGivesUp_ok _

theorem neverGivesUp_fetalInputs (g : Graph) (fs : List Feeder) (row displacedRow : Row)
    (count : Nat) : NeverGivesUp (fetalInputs g fs row displacedRow count) := by
  refine (neverGivesUp_mapM (fun k => ?_) _).bind fun _ => neverGivesUp_ok _
  split
  · exact neverGivesUp_ok _
  · refine NeverGivesUp.bind ?_ fun _ => neverGivesUp_ok _
    unfold feederIndex
    split
    · exact neverGivesUp_ok _
    · exact neverGivesUp_error rfl

theorem Code.neverGivesUp_restructure (c : Code) (insert : Frozen) (above : Above) :
    NeverGivesUp (c.restructure insert above) := by
  unfold restructure
  by_cases hk : c.kind ≠ .standard
  · simp only [if_pos hk]
    exact neverGivesUp_error rfl
  simp only [if_neg hk]
  by_cases hb : insert.kind = .empty
  · simp only [if_pos hb]
    exact neverGivesUp_error rfl
  simp only [if_neg hb]
  cases c.sub? above.replacedRow with
  | none => exact neverGivesUp_error rfl
  | some displaced =>
    have hpush (i : Interface) (e : Ept) : NeverGivesUp (i.push e) :=
      Interface.neverGivesUp_grow _ _ _ _
    refine (c.graph.neverGivesUp_feeders _).bind fun fs => ?_
    refine (neverGivesUp_foldlM hpush _ _).bind fun outputs => ?_
    refine (neverGivesUp_foldlM hpush _ _).bind fun inputs => ?_
    refine (neverGivesUp_fetalInputs _ _ _ _ _).bind fun wires => ?_
    refine (Code.neverGivesUp_connectAll _ _).bind fun fetal => ?_
    refine NeverGivesUp.bind ?_ fun code => neverGivesUp_ok _
    exact (Graph.neverGivesUp_connectAll _ _).bind fun g => neverGivesUp_ok _

theorem neverGivesUp_insertMissing (row : Row) (left es : List Ept) (g : Graph) :
    NeverGivesUp (insertMissing row left es g).1 := by
  induction es generalizing left g with
  | nil => exact neverGivesUp_ok _
  | cons e es ih =>
    rw [insertMissing]
    split
    · exact ih _ _
    · have h := g.neverGivesUp_insert row .dst e
      split
      · rename_i heq
        exact h.of_error (by rw [heq])
      · exact ih _ _

theorem Code.neverGivesUp_graft (c : Code) (row : Row) (f : Frozen) :
    NeverGivesUp (c.graft row f).1 := by
  have h := neverGivesUp_insertMissing row (c.graph.interface row .dst).epts f.inputs.epts c.graph
  unfold graft
  split
  · rename_i heq
    exact h.of_error (by rw [heq])
  · simp only
    split
    · exact neverGivesUp_ok _
    · exact neverGivesUp_error rfl

theorem neverGivesUp_checkSequence (op : InsertOp) (target insert : Frozen) :
    NeverGivesUp (checkSequence op target insert) := by
  unfold checkSequence
  split
  · exact neverGivesUp_error rfl
  · split
    · exact neverGivesUp_error rfl
    · exact neverGivesUp_ok _

theorem Insertion.neverGivesUp_of (op : InsertOp) (target insert : Frozen) :
    NeverGivesUp (Insertion.of op target insert) := by
  cases op with
  | stack | inverseStack =>
    exact ((neverGivesUp_checkSequence _ _ _).bind fun _ =>
      Code.neverGivesUp_connectAll _ _).bind fun _ => neverGivesUp_ok _
  | wrap =>
    refine NeverGivesUp.bind ?_ fun _ => neverGivesUp_ok _
    unfold Code.wrap
    split
    · exact neverGivesUp_error rfl
    · split
      · exact neverGivesUp_error rfl
      · exact neverGivesUp_ok _
  | restructure above => exact Code.neverGivesUp_restructure _ _ _

end NeverGivesUp

/-! ## Accounts -/

/-- The event is that the code of a digest was asked for. -/
def Event.isFetch : Event → Bool
  | .fetched _ => true
  | _ => false

/-- From `run` to `run'` so many repairs were made, with so many queries and fetches at most. -/
structure Run.Spent (repairs queries fetches : Nat) (run run' : Run) : Prop where
  used_eq : run'.used = run.used + repairs
  asked_append : ∃ new, run'.asked = run.asked ++ new ∧ new.length ≤ queries
  log_append : ∃ new, run'.log = run.log ++ new ∧ new.countP Event.isFetch ≤ fetches

namespace Run.Spent

variable {run run' run'' : Run} {k k' q q' f f' : Nat}

theorem of_eq (hu : run'.used = run.used) (ha : run'.asked = run.asked)
    (hl : run'.log = run.log) : Spent 0 0 0 run run' :=
  ⟨hu, ⟨[], by rw [ha, List.append_nil], Nat.le_refl 0⟩, [], by rw [hl, List.append_nil],
    Nat.le_refl 0⟩

theorem charge (run : Run) : Spent 1 0 0 run run.charge :=
  ⟨rfl, (of_eq rfl rfl rfl : Spent 0 0 0 run run).asked_append,
    (of_eq rfl rfl rfl : Spent 0 0 0 run run).log_append⟩

theorem trans (h : Spent k q f run run') (h' : Spent k' q' f' run' run'') :
    Spent (k + k') (q + q') (f + f') run run'' := by
  obtain ⟨hu, ⟨asked, ha, hq⟩, log, hl, hf⟩ := h
  obtain ⟨hu', ⟨asked', ha', hq'⟩, log', hl', hf'⟩ := h'
  refine ⟨by omega, ⟨asked ++ asked', ?_, ?_⟩, log ++ log', ?_, ?_⟩
  · rw [ha', ha, List.append_assoc]
  · rw [List.length_append]
    omega
  · rw [hl', hl, List.append_assoc]
  · rw [List.countP_append]
    omega

theorem mono (h : Spent k q f run run') (hq : q ≤ q') (hf : f ≤ f') : Spent k q' f' run run' := by
  obtain ⟨hu, ⟨asked, ha, hq'⟩, log, hl, hf'⟩ := h
  exact ⟨hu, ⟨asked, ha, Nat.le_trans hq' hq⟩, log, hl, Nat.le_trans hf' hf⟩

end Run.Spent

namespace Repair

variable {α β : Type} {m : Repair α} {k : α → Repair β} {q q' f f' u : Nat}

/-- A repair that leaves the account of repairs as it is and makes so many queries and fetches at
most. If it gives up, so many destinations are left, and the attempts are those on the account. -/
def Costs (q f u : Nat) (m : Repair α) : Prop :=
  ∀ run, m.Ends run fun ans run' => Run.Spent 0 q f run run' ∧
    ∀ remaining attempts, ans = .error (.stabilizationFailed remaining attempts) →
      remaining = u ∧ attempts = run.used

theorem costs_lift {x : Except GraphError α} (h : NeverGivesUp x) :
    (liftM x : Repair α).Costs 0 0 u := fun _ =>
  ⟨.of_eq rfl rfl rfl, fun r a hx => absurd hx (h.ne r a)⟩

theorem costs_pure (a : α) : (pure a : Repair α).Costs 0 0 u := fun _ =>
  ⟨.of_eq rfl rfl rfl, nofun⟩

theorem costs_throw {err : GraphError} (h : NeverGivesUp (.error err : Except GraphError α)) :
    (throw err : Repair α).Costs 0 0 u := costs_lift h

theorem costs_get : (get : Repair Run).Costs 0 0 u := fun _ => ⟨.of_eq rfl rfl rfl, nofun⟩

theorem costs_draw (f : Prng → α × Prng) : (draw f).Costs 0 0 u := fun _ =>
  ⟨.of_eq rfl rfl rfl, nofun⟩

theorem costs_tell (e : Event) : (tell e).Costs 0 (if e.isFetch then 1 else 0) u := fun run =>
  ⟨⟨rfl, ⟨[], (List.append_nil _).symm, Nat.le_refl 0⟩, [e], rfl, by simp⟩, nofun⟩

theorem Costs.bind (h : m.Costs q f u) (hk : ∀ a, (k a).Costs q' f' u) :
    (m >>= k).Costs (q + q') (f + f') u := fun run => by
  refine ends_bind.mpr ((h run).mono fun ans run' ⟨hs, hg⟩ => ⟨fun a _ => ?_, fun err herr => ?_⟩)
  · refine (hk a run').mono fun ans run'' ⟨hs', hg'⟩ => ⟨hs.trans hs', fun r n hr => ?_⟩
    obtain ⟨hleft, hn⟩ := hg' r n hr
    exact ⟨hleft, hn.trans hs.used_eq⟩
  · refine ⟨hs.mono (Nat.le_add_right _ _) (Nat.le_add_right _ _), fun r n hr => hg r n ?_⟩
    cases hr
    exact herr

theorem Costs.free_bind (h : m.Costs 0 0 u) (hk : ∀ a, (k a).Costs q f u) :
    (m >>= k).Costs q f u := by
  have := h.bind hk
  rwa [Nat.zero_add, Nat.zero_add] at this

theorem Costs.mono (h : m.Costs q f u) (hq : q ≤ q') (hf : f ≤ f') : m.Costs q' f' u :=
  fun run => (h run).mono fun _ _ h => ⟨h.1.mono hq hf, h.2⟩

theorem Costs.of_outcome {ans : Except GraphError α} {run run' : Run} (h : m.Costs q f u)
    (hm : m.outcome run = (ans, run')) : Run.Spent 0 q f run run' ∧
      ∀ remaining attempts, ans = .error (.stabilizationFailed remaining attempts) →
        remaining = u ∧ attempts = run.used := (ends_of_outcome hm).mp (h run)

theorem costs_exhausted (c : Code) :
    (exhausted c : Repair α).Costs 0 0 c.graph.unconnected.length := fun run => by
  refine ⟨.of_eq rfl rfl rfl, fun r n h => ?_⟩
  cases h
  exact ⟨rfl, rfl⟩

/-- Grafting does not look at the budget. -/
theorem neverGivesUp_of_graft {c : Code} {row : Row} {d : Frozen} {run run' : Run}
    {err : GraphError} (h : (graft c row d).outcome run = (.error err, run')) :
    NeverGivesUp (.error err : Except GraphError β) := by
  have hg := c.neverGivesUp_graft row d
  unfold graft at h
  split at h
  · rename_i heq
    cases h
    exact hg.of_error (by rw [heq])
  · cases h

theorem costs_graft (c : Code) (row : Row) (d : Frozen) : (graft c row d).Costs 0 0 u := by
  have h := c.neverGivesUp_graft row d
  unfold graft
  split
  · rename_i heq
    exact costs_throw (h.of_error (by rw [heq]))
  · exact (costs_tell (.grafted row d)).bind fun _ => costs_pure _

end Repair

namespace Stabilizer

open Repair

variable {s : Stabilizer} {wrapped : Bool} {c : Code} {i : Insertion} {dst : EndPoint} {e : Ept}
  {run run' : Run} {ans : Except GraphError Frozen} {k n u : Nat}

/-! ## Attempts -/

theorem costs_feedFrom (kind : SourceKind) (src : EndPoint) :
    (feedFrom kind c dst src).Costs 0 0 u :=
  (costs_lift (c.neverGivesUp_connectAll _)).free_bind fun c' =>
    (costs_tell (.connected kind c'.graph dst src)).bind fun _ => costs_pure _

theorem costs_feedDrawn (kind : SourceKind) (sources : List EndPoint) :
    (feedDrawn kind c dst sources).Costs 0 0 u := by
  refine (costs_draw _).free_bind fun o => ?_
  cases o with
  | none => exact costs_pure _
  | some src => exact (costs_feedFrom kind src).free_bind fun _ => costs_pure _

theorem costs_feedNewInput : (feedNewInput c dst e).Costs 0 0 u := by
  have h := c.graph.neverGivesUp_insert .I .src e
  unfold feedNewInput
  split
  · rename_i heq
    exact costs_throw (h.of_error (by rw [heq]))
  · exact costs_feedFrom _ _

theorem costs_repairInside : (s.repairInside c dst e wrapped).Costs 0 0 u := by
  refine (costs_draw _).free_bind fun o => ?_
  cases o with
  | none => exact costs_pure _
  | some kind =>
    cases kind with
    | newInput => exact costs_feedNewInput.free_bind fun _ => costs_pure _
    | unused | reused => exact costs_feedDrawn _ _

theorem costs_ask (query : Query) : (s.ask query).Costs 1 0 u := by
  refine costs_get.free_bind fun run => ?_
  change Costs (1 + 0) (0 + 0) _ _
  refine Costs.bind (fun run => ?_) fun _ => ?_
  · exact ⟨⟨rfl, ⟨[query], rfl, Nat.le_refl 1⟩, [], (List.append_nil _).symm, Nat.le_refl 0⟩,
      nofun⟩
  · split
    · exact costs_pure _
    · exact costs_pure _
    · exact costs_throw (neverGivesUp_error rfl)

theorem costs_feed (above : Above) (row : Row) (indices : List Nat) :
    (s.feed above c row indices dst e).Costs 0 0 u := by
  unfold feed
  split
  · exact costs_pure _
  · rename_i src _ _
    exact (costs_lift (c.neverGivesUp_connectAll _)).free_bind fun c' =>
      (costs_tell (.fed above c'.graph dst src)).bind fun _ => costs_pure _

theorem costs_spliceIn (above : Above) (insert : Frozen) :
    (s.spliceIn above c insert dst e).Costs 0 0 u := by
  refine (costs_lift (c.neverGivesUp_restructure insert above)).free_bind fun i => ?_
  cases i.fetal with
  | none => exact costs_pure _
  | some f =>
    refine Costs.free_bind ?_ fun _ => costs_pure _
    unfold feedSpliced
    cases above with
    | O => exact (costs_feed _ _ _).free_bind fun _ => costs_pure _
    | A | B => exact (costs_feed _ _ _).free_bind fun _ => costs_pure _

theorem costs_attemptOutside :
    (s.attemptOutside c dst e).Costs 1 1 c.graph.unconnected.length := by
  unfold attemptOutside
  split
  · exact (costs_exhausted c).mono (Nat.zero_le _) (Nat.zero_le _)
  split
  · exact (costs_exhausted c).mono (Nat.zero_le _) (Nat.zero_le _)
  refine Costs.free_bind ?_ fun query => ?_
  · exact (costs_draw _).free_bind fun _ => (costs_draw _).free_bind fun _ => costs_pure _
  change Costs (1 + 0) (0 + 1) _ _
  refine (costs_ask query).bind fun cs => ?_
  refine (costs_draw _).free_bind fun o => ?_
  cases o with
  | none => exact (costs_pure _).mono (Nat.zero_le _) (Nat.zero_le _)
  | some pick =>
    change Costs (0 + 0) (1 + 0) _ _
    refine (costs_tell (.fetched pick.digest)).bind fun _ => ?_
    split
    · exact costs_throw (neverGivesUp_error rfl)
    · exact costs_spliceIn _ _

/-- An attempt asks the gene pool once at most, and fetches one code at most. -/
theorem costs_attempt : (s.attempt c dst wrapped).Costs 1 1 c.graph.unconnected.length := by
  unfold attempt
  split
  · exact (costs_throw (neverGivesUp_error rfl)).mono (Nat.zero_le _) (Nat.zero_le _)
  · refine costs_repairInside.free_bind fun o => ?_
    cases o with
    | none => exact costs_attemptOutside
    | some c' => exact (costs_pure _).mono (Nat.zero_le _) (Nat.zero_le _)

/-! ## Runs -/

/-- A code without a source for one of its destinations has destinations without source. -/
theorem unconnected_pos {row : Option Row}
    (hv : c.violation? s.registry = some (.incomplete dst row)) :
    1 ≤ c.graph.unconnected.length := by
  obtain ⟨p, -, hp⟩ := (Code.sound_of_incomplete hv).incomplete hv
  exact List.length_pos_of_mem hp

/-- A stabilization has so many queries and fetches at most as it makes repairs, and it makes no
more repairs than the limit allows. -/
theorem Concludes.spends (h : s.Concludes wrapped i run k ans run')
    (hu : run.used ≤ s.tuning.attemptLimit.toNat) :
    Run.Spent k k k run run' ∧ run'.used ≤ s.tuning.attemptLimit.toNat ∧
      ∀ remaining attempts, ans = .error (.stabilizationFailed remaining attempts) →
        1 ≤ remaining ∧ attempts ≤ s.tuning.attemptLimit.toNat := by
  induction h with
  | valid hv => exact ⟨.of_eq rfl rfl rfl, hu, nofun⟩
  | broken hv hne => exact ⟨.of_eq rfl rfl rfl, hu, nofun⟩
  | exhausted hv hlim =>
    refine ⟨.of_eq rfl rfl rfl, hu, fun r a h => ?_⟩
    cases h
    exact ⟨unconnected_pos hv, hu⟩
  | failed hv hlim ha =>
    obtain ⟨hs, hg⟩ := costs_attempt.of_outcome ha
    have hs := (Run.Spent.charge _).trans hs
    refine ⟨hs, ?_, fun r a h => ?_⟩
    · rw [hs.used_eq]
      exact hlim
    · obtain ⟨rfl, rfl⟩ := hg r a (by cases h; rfl)
      exact ⟨unconnected_pos hv, hlim⟩
  | repaired hv hlim ha hi ih =>
    have hs := (Run.Spent.charge _).trans (costs_attempt.of_outcome ha).1
    obtain ⟨hs', hans⟩ := ih (by rw [hs.used_eq]; exact hlim)
    exact ⟨hs.trans hs', hans⟩
  | lost hf ih =>
    obtain ⟨hs, hu', hg⟩ := ih hu
    exact ⟨hs, hu', fun r a h => hg r a (by cases h; rfl)⟩
  | misfit hf hg ih =>
    obtain ⟨hs, hu', -⟩ := ih hu
    have hs' := ((costs_graft (u := 0) _ _ _).of_outcome hg).1
    exact ⟨hs.trans hs', by rw [hs'.used_eq]; exact hu', fun r a h =>
      absurd h ((neverGivesUp_of_graft hg).ne r a)⟩
  | grafted hf hg hc ihf ihc =>
    obtain ⟨hs, hu', -⟩ := ihf hu
    have hs' := ((costs_graft (u := 0) _ _ _).of_outcome hg).1
    obtain ⟨hs'', hans⟩ := ihc (by rw [hs'.used_eq]; exact hu')
    exact ⟨(hs.trans hs').trans hs'', hans⟩

/-- So few calls could be nested that a code was given up with repairs left. -/
def CutOff (s : Stabilizer) (n : Nat) (run : Run) (ans : Except GraphError Frozen) : Prop :=
  (run.used ≤ s.tuning.attemptLimit.toNat → n + run.used ≤ s.tuning.attemptLimit.toNat) ∧
    ∃ remaining attempts, ans = .error (.stabilizationFailed remaining attempts)

/-- With as many nested calls as there are repairs left, nothing is cut off. -/
theorem not_cutOff (hn : s.tuning.attemptLimit.toNat < n + run.used)
    (hu : run.used ≤ s.tuning.attemptLimit.toNat) : ¬ s.CutOff n run ans := fun h =>
  Nat.not_le.mpr hn (h.1 hu)

/-- What a run leaves to do for a code that waits for a fetal code comes to a conclusion or is cut
off if that is so for the codes themselves. -/
theorem completes (hrun : ∀ wrapped c run, (s.run n wrapped c).Ends run fun ans run' =>
      (∃ k, s.Concludes wrapped ⟨c, none⟩ run k ans run') ∨ s.CutOff n run ans)
    (i : Insertion) (run : Run) :
    (complete (s.run n false) i >>= s.run n wrapped).Ends run fun ans run' =>
      (∃ k, s.Concludes wrapped i run k ans run') ∨ s.CutOff n run ans := by
  obtain ⟨c, fetal⟩ := i
  cases fetal with
  | none => exact hrun wrapped c run
  | some f =>
    refine ends_bind.mpr (ends_bind.mpr ((hrun false f.code run).mono ?_))
    rintro ans run' (⟨k, hk⟩ | ⟨hcut, remaining, attempts, rfl⟩)
    · refine ⟨fun d hd => ?_, fun err herr => ⟨nofun, fun err' herr' => ?_⟩⟩
      · subst hd
        obtain ⟨ans', run'', hg⟩ : ∃ ans' run'',
            (Repair.graft c f.row d).outcome run' = (ans', run'') := ⟨_, _, rfl⟩
        refine (ends_of_outcome hg).mpr ⟨fun c' hc' => ?_, fun err herr => ?_⟩
        · subst hc'
          refine (hrun wrapped c' run'').mono ?_
          rintro ans run₃ (⟨l, hl⟩ | ⟨hcut, hans⟩)
          · exact Or.inl ⟨k + l, .grafted hk hg hl⟩
          · refine Or.inr ⟨fun hu => ?_, hans⟩
            obtain ⟨hs, hu', -⟩ := hk.spends hu
            have hused := hs.used_eq
            have hused' := ((costs_graft (u := 0) _ _ _).of_outcome hg).1.used_eq
            have := hcut (by omega)
            omega
        · subst herr
          exact Or.inl ⟨k, .misfit hk hg⟩
      · subst herr
        cases herr'
        exact Or.inl ⟨k, .lost hk⟩
    · refine ⟨nofun, fun err herr => ⟨nofun, fun err' herr' => ?_⟩⟩
      cases herr
      cases herr'
      exact Or.inr ⟨hcut, remaining, attempts, rfl⟩

/-- A run comes to a conclusion, or it is cut off. -/
theorem run_concludes_or_cutOff (s : Stabilizer) (n : Nat) : ∀ wrapped c run,
    (s.run n wrapped c).Ends run fun ans run' =>
      (∃ k, s.Concludes wrapped ⟨c, none⟩ run k ans run') ∨ s.CutOff n run ans := by
  induction n with
  | zero => exact fun _ c run => Or.inr ⟨fun hu => by omega, _, _, rfl⟩
  | succ n ih =>
    intro wrapped c run
    unfold Stabilizer.run
    split
    · exact Or.inl ⟨0, .valid ‹_›⟩
    · rename_i dst row hv
      rw [ends_get_bind]
      split
      · exact Or.inl ⟨0, .exhausted hv ‹_›⟩
      · rename_i hlim
        rw [ends_modify_bind, repair_eq, bind_assoc]
        obtain ⟨ans, run', ha⟩ : ∃ ans run',
            (s.attempt c dst wrapped).outcome run.charge = (ans, run') := ⟨_, _, rfl⟩
        refine ends_bind.mpr ((ends_of_outcome ha).mpr ⟨fun i hi => ?_, fun err herr => ?_⟩)
        · subst hi
          have hused := ((Run.Spent.charge run).trans (costs_attempt.of_outcome ha).1).used_eq
          refine (completes ih i run').mono ?_
          rintro ans run'' (⟨k, hk⟩ | ⟨hcut, hans⟩)
          · exact Or.inl ⟨1 + k, .repaired hv (by omega) ha hk⟩
          · refine Or.inr ⟨fun _ => ?_, hans⟩
            have := hcut (by omega)
            omega
        · subst herr
          exact Or.inl ⟨1, .failed hv (by omega) ha⟩
    · rename_i v hne hv
      exact Or.inl ⟨0, .broken hv hne⟩

/-- If no fewer calls may be nested than there are repairs left, a run comes to a conclusion. -/
theorem run_concludes (s : Stabilizer) (n : Nat) (wrapped : Bool) (c : Code) (run : Run)
    (hn : s.tuning.attemptLimit.toNat < n + run.used)
    (hu : run.used ≤ s.tuning.attemptLimit.toNat) :
    (s.run n wrapped c).Ends run fun ans run' =>
      ∃ k, s.Concludes wrapped ⟨c, none⟩ run k ans run' :=
  (run_concludes_or_cutOff s n wrapped c run).mono fun _ _ h => h.resolve_right (not_cutOff hn hu)

/-- However few calls may be nested, a run that ends with a code was not cut off. -/
theorem concludes_of_ok {f : Frozen} (h : (s.run n wrapped c).outcome run = (.ok f, run')) :
    ∃ k, s.Concludes wrapped ⟨c, none⟩ run k (.ok f) run' :=
  ((ends_of_outcome h).mp (run_concludes_or_cutOff s n wrapped c run)).resolve_right nofun

/-! ## Stabilizations and insertions -/

/-- So many repairs, and the queries and fetches from `run` to `run'`, are within a limit. Who
gives up does so within the limit, and leaves something to do. -/
structure WithinBudget (limit : Nat) (run : Run) (repairs : Nat) (ans : Except GraphError Frozen)
    (run' : Run) : Prop where
  repairs_le : repairs ≤ limit
  queries_le : ∃ new, run'.asked = run.asked ++ new ∧ new.length ≤ limit
  fetches_le : ∃ new, run'.log = run.log ++ new ∧ new.countP Event.isFetch ≤ limit
  gaveUp : ∀ remaining attempts, ans = .error (.stabilizationFailed remaining attempts) →
    attempts ≤ limit ∧ 1 ≤ remaining

theorem Concludes.within (h : s.Concludes wrapped i { run with used := 0 } k ans run') :
    WithinBudget s.tuning.attemptLimit.toNat run k ans run' := by
  obtain ⟨⟨hused, ⟨asked, ha, hq⟩, log, hl, hf⟩, hu, hg⟩ := h.spends (Nat.zero_le _)
  have hk : k ≤ s.tuning.attemptLimit.toNat := by
    rw [hused] at hu
    omega
  exact ⟨hk, ⟨asked, ha, Nat.le_trans hq hk⟩, ⟨log, hl, Nat.le_trans hf hk⟩,
    fun r a h => (hg r a h).symm⟩

theorem Inserts.within {op : InsertOp} {target insert : Frozen}
    (h : s.Inserts op target insert { run with used := 0 } k ans run') :
    WithinBudget s.tuning.attemptLimit.toNat run k ans run' := by
  cases h with
  | refused hi =>
    refine ⟨Nat.zero_le _, ⟨[], (List.append_nil _).symm, Nat.zero_le _⟩,
      ⟨[], (List.append_nil _).symm, Nat.zero_le _⟩, fun r a h => ?_⟩
    cases h
    exact absurd hi ((Insertion.neverGivesUp_of op target insert).ne r a)
  | inserted hi hc => exact hc.within

theorem stabilize_concludes (s : Stabilizer) (c : Code) (run : Run) :
    (s.stabilize c).Ends run fun ans run' =>
      ∃ k, s.Concludes false ⟨c, none⟩ { run with used := 0 } k ans run' := by
  unfold stabilize
  rw [ends_modify_bind]
  exact run_concludes s _ false c _ (Nat.lt_succ_self _) (Nat.zero_le _)

theorem insert_concludes (s : Stabilizer) (op : InsertOp) (target insert : Frozen) (run : Run) :
    (s.insert op target insert).Ends run fun ans run' =>
      ∃ k, s.Inserts op target insert { run with used := 0 } k ans run' := by
  rw [insert_eq, ends_modify_bind]
  refine ends_bind.mpr (show _ ∧ _ from ⟨fun i hi => ?_, fun err herr => ⟨0, .refused herr⟩⟩)
  refine (completes (run_concludes_or_cutOff s _) i _).mono fun ans run' h => ?_
  obtain ⟨k, hk⟩ := h.resolve_right (not_cutOff (Nat.lt_succ_self _) (Nat.zero_le _))
  exact ⟨k, .inserted hi hk⟩

/-- Stabilizations and insertions end, by finitely many steps of `Stabilizer.Concludes`, in which
no call is cut off, and in this way only. Their repairs, queries and fetches, those of fetal codes
included, are within the limit of the budget. -/
theorem stabilize_within_budget (s : Stabilizer) (run : Run) :
    (∀ c, (s.stabilize c).Ends run fun ans run' =>
      ∃ k, Only (s.Concludes false ⟨c, none⟩ { run with used := 0 }) k ans run' ∧
        WithinBudget s.tuning.attemptLimit.toNat run k ans run') ∧
    ∀ op target insert, (s.insert op target insert).Ends run fun ans run' =>
      ∃ k, Only (s.Inserts op target insert { run with used := 0 }) k ans run' ∧
        WithinBudget s.tuning.attemptLimit.toNat run k ans run' :=
  ⟨fun c => (stabilize_concludes s c run).mono fun _ _ ⟨k, h⟩ => ⟨k, h.only, h.within⟩,
    fun op target insert =>
      (insert_concludes s op target insert run).mono fun _ _ ⟨k, h⟩ => ⟨k, h.only, h.within⟩⟩

end Stabilizer

end GeneGraph
