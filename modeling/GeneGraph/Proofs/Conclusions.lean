import GeneGraph.Proofs.Outcomes

/-!
# How stabilizations conclude

`Stabilizer.run` takes a bound for the nesting of its calls. `Stabilizer.Concludes` has the rules
of a stabilization without any bound: how a code, or a code that waits for a fetal code, comes to
an answer, and how many repairs are made on the way. A derivation is finite, so a stabilization
that concludes is one that terminates, and it does so in one way only (`Concludes.unique`).

For the rules a repair is taken apart from the stabilization of the fetal code that it may leave
behind: `Stabilizer.attempt` is the repair up to there, and `Stabilizer.complete` what follows.
-/

namespace GeneGraph

/-- The run with one more repair on its account. -/
def Run.charge (run : Run) : Run := { run with used := run.used + 1 }

namespace Stabilizer

open Repair

/-! ## Repairs up to the fetal code -/

/-- Splices a code in for a destination. The fetal code is left as it is. -/
def spliceIn (s : Stabilizer) (above : Above) (c : Code) (insert : Frozen) (dst : EndPoint)
    (e : Ept) : Repair Insertion := do
  let i ← c.restructure insert above
  match i.fetal with
  | none => return ⟨i.code, none⟩
  | some f =>
    let (code, f) ← s.feedSpliced above c insert i f dst e
    return ⟨code, some f⟩

/-- Feeds a destination from the gene pool, up to the fetal code. -/
def attemptOutside (s : Stabilizer) (c : Code) (dst : EndPoint) (e : Ept) : Repair Insertion := do
  match Above.ofRow? dst.row with
  | none => Repair.exhausted c
  | some above =>
    if c.kind ≠ .standard then Repair.exhausted c
    else
      let cs ← s.ask (← s.drawQuery e)
      match ← Repair.draw (·.choose (s.ranked cs)) with
      | none => return ⟨c, none⟩
      | some pick =>
        Repair.tell (.fetched pick.digest)
        match s.pool.fetch pick.digest with
        | .error err => throw (.pool err)
        | .ok insert => s.spliceIn above c insert dst e

/-- Feeds a destination, up to the fetal code. -/
def attempt (s : Stabilizer) (c : Code) (dst : EndPoint) (wrapped : Bool) : Repair Insertion := do
  match c.graph.ept? .dst dst with
  | none => throw (.outOfRange dst.index (c.graph.count dst.row .dst))
  | some e =>
    match ← s.repairInside c dst e wrapped with
    | some c => return ⟨c, none⟩
    | none => s.attemptOutside c dst e

/-- What is left of a repair: the fetal code, if there is one, is stabilized and grafted. -/
def complete (stabilize : Code → Repair Frozen) (i : Insertion) : Repair Code :=
  match i.fetal with
  | none => return i.code
  | some f => do Repair.graft i.code f.row (← stabilize f.code)

/-! ## Rules -/

/-- From `run`, a code, or a code that waits for a fetal code, is stabilized in `k` repairs, those
of fetal codes included, with an answer and another run. -/
inductive Concludes (s : Stabilizer) :
    Bool → Insertion → Run → Nat → Except GraphError Frozen → Run → Prop where
  | valid {wrapped c run} (hv : c.violation? s.registry = none) :
      Concludes s wrapped ⟨c, none⟩ run 0 (.ok (c.freeze run.serial))
        { run with serial := run.serial + 1 }
  | broken {wrapped c run v} (hv : c.violation? s.registry = some v)
      (hne : ∀ dst row, v ≠ .incomplete dst row) :
      Concludes s wrapped ⟨c, none⟩ run 0 (.error (.violation v)) run
  /-- There is a destination to feed, but the budget is used up. -/
  | exhausted {wrapped c run dst row} (hv : c.violation? s.registry = some (.incomplete dst row))
      (hu : s.tuning.attemptLimit.toNat ≤ run.used) :
      Concludes s wrapped ⟨c, none⟩ run 0
        (.error (.stabilizationFailed c.graph.unconnected.length run.used)) run
  /-- The repair of the first destination without source fails. -/
  | failed {wrapped c run dst row err run'}
      (hv : c.violation? s.registry = some (.incomplete dst row))
      (hu : run.used < s.tuning.attemptLimit.toNat)
      (ha : (s.attempt c dst wrapped).outcome run.charge = (.error err, run')) :
      Concludes s wrapped ⟨c, none⟩ run 1 (.error err) run'
  | repaired {wrapped c run dst row i run' k ans run''}
      (hv : c.violation? s.registry = some (.incomplete dst row))
      (hu : run.used < s.tuning.attemptLimit.toNat)
      (ha : (s.attempt c dst wrapped).outcome run.charge = (.ok i, run'))
      (hi : Concludes s wrapped i run' k ans run'') :
      Concludes s wrapped ⟨c, none⟩ run (1 + k) ans run''
  /-- The fetal code has no answer. -/
  | lost {wrapped c f run k err run'}
      (hf : Concludes s false ⟨f.code, none⟩ run k (.error err) run') :
      Concludes s wrapped ⟨c, some f⟩ run k (.error err) run'
  /-- The fetal code does not fit. -/
  | misfit {wrapped c f run k d run' err run''}
      (hf : Concludes s false ⟨f.code, none⟩ run k (.ok d) run')
      (hg : (Repair.graft c f.row d).outcome run' = (.error err, run'')) :
      Concludes s wrapped ⟨c, some f⟩ run k (.error err) run''
  | grafted {wrapped c f run k d run' c' run'' l ans run₃}
      (hf : Concludes s false ⟨f.code, none⟩ run k (.ok d) run')
      (hg : (Repair.graft c f.row d).outcome run' = (.ok c', run''))
      (hc : Concludes s wrapped ⟨c', none⟩ run'' l ans run₃) :
      Concludes s wrapped ⟨c, some f⟩ run (k + l) ans run₃

/-- An insertion with what comes after it. If the codes cannot be inserted, nothing does. -/
inductive Inserts (s : Stabilizer) (op : InsertOp) (target insert : Frozen) :
    Run → Nat → Except GraphError Frozen → Run → Prop where
  | refused {run err} (hi : Insertion.of op target insert = .error err) :
      Inserts s op target insert run 0 (.error err) run
  | inserted {i run k ans run'} (hi : Insertion.of op target insert = .ok i)
      (hc : s.Concludes (op = .wrap) i run k ans run') : Inserts s op target insert run k ans run'

variable {s : Stabilizer} {wrapped : Bool} {c c' : Code} {i : Insertion} {f : Fetal} {d : Frozen}
  {dst : EndPoint} {e : Ept} {run run' run'' : Run} {ans : Except GraphError Frozen}
  {err : GraphError} {k l : Nat}

/-! ## Attempts -/

section Complete

variable {stabilize : Code → Repair Frozen}

theorem splice_eq (above : Above) (insert : Frozen) :
    s.splice stabilize above c insert dst e =
      s.spliceIn above c insert dst e >>= complete stabilize := by
  unfold splice spliceIn
  rw [bind_assoc]
  refine bind_congr fun i => ?_
  cases i.fetal with
  | none => rfl
  | some f =>
    rw [bind_assoc]
    rfl

theorem repairOutside_eq : s.repairOutside stabilize c dst e =
    s.attemptOutside c dst e >>= complete stabilize := by
  unfold repairOutside attemptOutside
  cases Above.ofRow? dst.row with
  | none => rfl
  | some above =>
    simp only
    split
    · rfl
    · rw [bind_assoc]
      refine bind_congr fun q => ?_
      rw [bind_assoc]
      refine bind_congr fun cs => ?_
      rw [bind_assoc]
      refine bind_congr fun o => ?_
      cases o with
      | none => rfl
      | some pick =>
        rw [bind_assoc]
        refine bind_congr fun _ => ?_
        cases s.pool.fetch pick.digest with
        | error err => rfl
        | ok insert => exact splice_eq above insert

/-- A repair is an attempt and what it leaves to do. -/
theorem repair_eq : s.repair stabilize c dst wrapped =
    s.attempt c dst wrapped >>= complete stabilize := by
  unfold repair attempt
  cases c.graph.ept? .dst dst with
  | none => rfl
  | some e =>
    rw [bind_assoc]
    refine bind_congr fun o => ?_
    cases o with
    | none => exact repairOutside_eq
    | some c' => rfl

end Complete

/-! An attempt answers what is done from inside, or outside of the code, that the pool has. -/

section Yields

variable {E : Event → Prop} {P : Insertion → Prop}

theorem yields_attemptOutside (hfetch : ∀ d, E (.fetched d)) (hstay : P ⟨c, none⟩)
    (hsplice : s.pool.Supplies → ∀ above insert, Above.ofRow? dst.row = some above →
      (s.spliceIn above c insert dst e).Yields E P) : (s.attemptOutside c dst e).Yields E P := by
  unfold attemptOutside
  split
  · exact yields_exhausted c
  rename_i above habove
  split
  · exact yields_exhausted c
  refine yields_drawQuery.bind fun q _ => (yields_ask q).bind fun cs hcs =>
    (yields_choose _).bind fun o ho => ?_
  cases o with
  | none => exact yields_pure hstay
  | some pick =>
    refine (yields_tell (hfetch _)).bind fun _ _ => ?_
    split
    · exact yields_throw _
    · refine hsplice (hcs ?_) above _ habove
      rintro rfl
      exact absurd (ranked_nil ▸ ho pick rfl) List.not_mem_nil

theorem yields_attempt
    (hinside : ∀ e, c.graph.ept? .dst dst = some e →
      (s.repairInside c dst e wrapped).Yields E fun o => ∀ c', o = some c' → P ⟨c', none⟩)
    (houtside : ∀ e, (s.attemptOutside c dst e).Yields E P) :
    (s.attempt c dst wrapped).Yields E P := by
  unfold attempt
  split
  · exact yields_throw _
  · rename_i e he
    refine (hinside e he).bind fun o ho => ?_
    cases o with
    | none => exact houtside e
    | some c' => exact yields_pure (ho c' rfl)

end Yields

/-- What follows an insertion: the fetal code, if there is one, and then the code. -/
theorem insert_eq (op : InsertOp) (target insert : Frozen) : s.insert op target insert =
    (do
      modify fun r => { r with used := 0 }
      let i ← Insertion.of op target insert
      complete (s.repairAll false) i >>= s.repairAll (op = .wrap)) := by
  unfold Stabilizer.insert
  refine bind_congr fun _ => bind_congr fun i => ?_
  unfold complete
  cases i.fetal with
  | none => rfl
  | some f => exact (bind_assoc ..).symm

/-! ## Uniqueness -/

/-- The rules leave no choice. -/
theorem Concludes.unique {k' : Nat} {ans' : Except GraphError Frozen}
    (h : s.Concludes wrapped i run k ans run') (h' : s.Concludes wrapped i run k' ans' run'') :
    k = k' ∧ ans = ans' ∧ run' = run'' := by
  induction h generalizing k' ans' run'' with
  | valid hv =>
    cases h' with
    | valid => exact ⟨rfl, rfl, rfl⟩
    | broken hv' | exhausted hv' | failed hv' | repaired hv' => cases hv.symm.trans hv'
  | broken hv hne =>
    cases h' with
    | valid hv' => cases hv.symm.trans hv'
    | broken hv' =>
      cases hv.symm.trans hv'
      exact ⟨rfl, rfl, rfl⟩
    | exhausted hv' | failed hv' | repaired hv' =>
      exact absurd (Option.some.inj (hv.symm.trans hv')) (hne _ _)
  | exhausted hv hu =>
    cases h' with
    | valid hv' => cases hv.symm.trans hv'
    | broken hv' hne => exact absurd (Option.some.inj (hv'.symm.trans hv)) (hne _ _)
    | exhausted => exact ⟨rfl, rfl, rfl⟩
    | failed _ hu' | repaired _ hu' => omega
  | failed hv hu ha =>
    cases h' with
    | valid hv' => cases hv.symm.trans hv'
    | broken hv' hne => exact absurd (Option.some.inj (hv'.symm.trans hv)) (hne _ _)
    | exhausted _ hu' => omega
    | failed hv' _ ha' =>
      cases hv.symm.trans hv'
      cases ha.symm.trans ha'
      exact ⟨rfl, rfl, rfl⟩
    | repaired hv' _ ha' =>
      cases hv.symm.trans hv'
      cases ha.symm.trans ha'
  | repaired hv hu ha hi ih =>
    cases h' with
    | valid hv' => cases hv.symm.trans hv'
    | broken hv' hne => exact absurd (Option.some.inj (hv'.symm.trans hv)) (hne _ _)
    | exhausted _ hu' => omega
    | failed hv' _ ha' =>
      cases hv.symm.trans hv'
      cases ha.symm.trans ha'
    | repaired hv' _ ha' hi' =>
      cases hv.symm.trans hv'
      cases ha.symm.trans ha'
      obtain ⟨rfl, rfl, rfl⟩ := ih hi'
      exact ⟨rfl, rfl, rfl⟩
  | lost hf ih =>
    cases h' with
    | lost hf' => exact ih hf'
    | misfit hf' | grafted hf' => cases (ih hf').2.1
  | misfit hf hg ih =>
    cases h' with
    | lost hf' => cases (ih hf').2.1
    | misfit hf' hg' =>
      obtain ⟨rfl, hd, rfl⟩ := ih hf'
      cases hd
      cases hg.symm.trans hg'
      exact ⟨rfl, rfl, rfl⟩
    | grafted hf' hg' =>
      obtain ⟨rfl, hd, rfl⟩ := ih hf'
      cases hd
      cases hg.symm.trans hg'
  | grafted hf hg hc ihf ihc =>
    cases h' with
    | lost hf' => cases (ihf hf').2.1
    | misfit hf' hg' =>
      obtain ⟨rfl, hd, rfl⟩ := ihf hf'
      cases hd
      cases hg.symm.trans hg'
    | grafted hf' hg' hc' =>
      obtain ⟨rfl, hd, rfl⟩ := ihf hf'
      cases hd
      cases hg.symm.trans hg'
      obtain ⟨rfl, rfl, rfl⟩ := ihc hc'
      exact ⟨rfl, rfl, rfl⟩

theorem Inserts.unique {op : InsertOp} {target insert : Frozen} {k' : Nat}
    {ans' : Except GraphError Frozen} (h : s.Inserts op target insert run k ans run')
    (h' : s.Inserts op target insert run k' ans' run'') : k = k' ∧ ans = ans' ∧ run' = run'' := by
  cases h with
  | refused hi =>
    cases h' with
    | refused hi' =>
      cases hi.symm.trans hi'
      exact ⟨rfl, rfl, rfl⟩
    | inserted hi' => cases hi.symm.trans hi'
  | inserted hi hc =>
    cases h' with
    | refused hi' => cases hi.symm.trans hi'
    | inserted hi' hc' =>
      cases hi.symm.trans hi'
      exact hc.unique hc'

/-- By the given rules this is the conclusion, and there is no other. -/
structure Only (rules : Nat → Except GraphError Frozen → Run → Prop) (k : Nat)
    (ans : Except GraphError Frozen) (run' : Run) : Prop where
  concludes : rules k ans run'
  unique : ∀ k' ans' run'', rules k' ans' run'' → k = k' ∧ ans = ans' ∧ run' = run''

theorem Concludes.only (h : s.Concludes wrapped i run k ans run') :
    Only (s.Concludes wrapped i run) k ans run' := ⟨h, fun _ _ _ => h.unique⟩

theorem Inserts.only {op : InsertOp} {target insert : Frozen}
    (h : s.Inserts op target insert run k ans run') :
    Only (s.Inserts op target insert run) k ans run' := ⟨h, fun _ _ _ => h.unique⟩

end Stabilizer

end GeneGraph
