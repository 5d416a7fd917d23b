import GeneGraph.Proofs.Outcomes
import GeneGraph.Proofs.Restructure
import GeneGraph.Samples

/-!
# Stabilized codes are valid

A stabilization freezes a code when the checks find nothing, and hands out the frozen code. So
what has to be known on the way is little (`Code.OfMade`): the kind stays, and all sub-codes were
made by freezing. Freezing then keeps validity (`Code.freeze_valid`). Fetal codes are stabilized
by the same program, so they are valid when they are grafted.
-/

namespace GeneGraph

/-- Nothing is wrong with a frozen code, and what that means. -/
structure Frozen.Stable (r : Registry) (f : Frozen) : Prop where
  valid : f.code.violation? r = none
  one_source : ∀ p, f.graph.exists? .dst p = true → ∃! src, (p, src) ∈ f.graph.wires.toList
  legal : ∀ dst src, (dst, src) ∈ f.graph.wires.toList → f.graph.Joins r dst src
  mirror : ∀ row, row.isSub = true → f.graph.row? row = (f.code.sub? row).map Frozen.rowSides

theorem Frozen.stable_of_valid {r : Registry} {f : Frozen} (h : f.code.violation? r = none)
    (hk : f.kind.isWiringExempt = false) : f.Stable r := by
  obtain ⟨hsound, hcomplete⟩ := Code.violation?_eq_none_iff.mp h
  have hprim : f.kind ≠ .primitive := fun he => by
    rw [he] at hk
    cases hk
  refine ⟨h, fun p hp => ?_, fun dst src hw => hsound.joins dst src (Graph.mem_wires.mp hw),
    fun row hrow => hsound.row?_eq hprim hrow⟩
  have hc : f.graph.Complete := hcomplete.resolve_left fun hx => by
    rw [show f.code.kind.isWiringExempt = f.kind.isWiringExempt from rfl, hk] at hx
    cases hx
  obtain ⟨src, hs⟩ := Option.isSome_iff_exists.mp (hc p hp)
  refine ⟨src, Graph.mem_wires.mpr hs, fun src' hs' => ?_⟩
  have := Graph.mem_wires.mp hs'
  rw [hs] at this
  exact (Option.some.inj this).symm

/-! ## Codes of frozen codes -/

/-- A code of a kind, all of whose sub-codes were made by freezing. -/
structure Code.OfMade (k : GraphKind) (c : Code) : Prop where
  kind_eq : c.kind = k
  subs_made : ∀ row f, c.sub? row = some f → f.Made

namespace Code.OfMade

variable {k : GraphKind} {c c' : Code} {row : Row} {f : Frozen} {g : Graph}

theorem of_graph (h : c.OfMade k) (hg : g.kind = c.graph.kind) :
    ({ c with graph := g } : Code).OfMade k :=
  ⟨hg.trans h.kind_eq, fun row f hf => h.subs_made row f (by rwa [sub?_of_graph] at hf)⟩

theorem connectAll {ws : List (EndPoint × EndPoint)} (h : c.OfMade k)
    (hc : c.connectAll ws = .ok c') : c'.OfMade k := by
  obtain ⟨g, hg, rfl⟩ := connectAll_ok hc
  exact h.of_graph (Graph.connectAll_ok hg).kind_eq

theorem attach (h : c.OfMade k) (hf : f.Made) : (c.attach row (some f)).OfMade k := by
  refine ⟨(congrArg Graph.kind graph_attach).trans h.kind_eq, fun r d hd => ?_⟩
  have hor : d = f ∨ c.sub? r = some d := by
    cases row <;> cases r <;> first
      | exact Or.inr hd
      | exact Or.inl (Option.some.inj hd).symm
  rcases hor with rfl | hd
  · exact hf
  · exact h.subs_made r d hd

/-- What is frozen was made by freezing. -/
theorem made (h : c.OfMade k) (serial : Nat) : (c.freeze serial).Made := by
  refine .freeze c serial fun f hf => ?_
  obtain ⟨row, hrow⟩ := mem_subs.mp hf
  exact h.subs_made row f hrow

theorem of_made (h : f.Made) : f.code.OfMade f.kind :=
  ⟨rfl, fun row d hd => h.subs_made d (mem_subs.mpr ⟨row, hd⟩)⟩

end Code.OfMade

namespace Graph

theorem kind_insert (g : Graph) (row : Row) (a : Side) (e : Ept) :
    (g.insert row a e).2.kind = g.kind := by
  rw [insert]
  split <;> rfl

theorem kind_insertMissing (row : Row) (left es : List Ept) (g : Graph) :
    (insertMissing row left es g).2.kind = g.kind := by
  induction es generalizing left g with
  | nil => rfl
  | cons e es ih =>
    rw [insertMissing]
    split
    · exact ih _ _
    · have hk := g.kind_insert row .dst e
      split
      · rename_i heq
        rwa [heq] at hk
      · rename_i heq
        rw [heq] at hk
        exact (ih _ _).trans hk

end Graph

namespace Code

variable {k : GraphKind} {c c' : Code} {row : Row} {f : Frozen}

/-- Grafting keeps the kind and adds the code that is grafted. -/
theorem OfMade.graft (h : c.OfMade k) (hf : f.Made) (hg : c.graft row f = (.ok (), c')) :
    c'.OfMade k := by
  rw [Code.graft] at hg
  split at hg
  · cases hg
  · rename_i left g hins
    have hk : (g.reorderSide row .src).2.kind = c.graph.kind := by
      rw [Graph.kind_reorderSide]
      have := Graph.kind_insertMissing row (c.graph.interface row .dst).epts f.inputs.epts c.graph
      rwa [hins] at this
    simp only at hg
    split at hg
    · cases hg
      exact (h.of_graph hk).attach hf
    · cases hg

end Code

namespace Splice

variable {target : Code} {insert : Frozen} {above : Above} {k : GraphKind}

theorem code_ofMade (x : Splice target insert above) (h : target.OfMade k) : x.code.OfMade k := by
  obtain ⟨g, hg, hc⟩ := x.vacated
  have hk : g.kind = target.graph.kind := (Graph.connectAll_ok hg).kind_eq
  rw [hc]
  refine ⟨(congrArg Graph.kind Code.graph_attach).trans (hk.trans h.kind_eq), fun r d hd => ?_⟩
  rw [Code.sub?_attach Above.isSub_replacedRow] at hd
  split at hd
  · cases hd
  · exact h.subs_made r d (by rwa [Code.sub?_of_graph] at hd)

theorem fetal_ofMade (x : Splice target insert above) (h : target.OfMade k) (hi : insert.Made) :
    x.fetal.OfMade .standard := by
  obtain ⟨-, -, -, hsub⟩ := x.connected
  refine ⟨x.kind_fetal, fun r d hd => ?_⟩
  rw [hsub] at hd
  split at hd
  · exact h.subs_made _ d (hd ▸ x.displaced_eq)
  · split at hd
    · exact Option.some.inj hd ▸ hi
    · cases hd

end Splice

theorem Code.sequence_ofMade {first second : Frozen} {c : Code} (hf : first.Made)
    (hs : second.Made) (hc : Code.sequence first second = .ok c) : c.OfMade .standard := by
  refine Code.OfMade.connectAll ⟨?_, fun r d hd => ?_⟩ hc
  · rfl
  · rw [Code.sub?_setSub rfl, Code.sub?_setSub rfl, Code.sub?_ofGraph] at hd
    split at hd
    · exact Option.some.inj hd ▸ hs
    · split at hd
      · exact Option.some.inj hd ▸ hf
      · cases hd

/-- What an insertion leaves behind has frozen sub-codes again. -/
theorem Insertion.of_ofMade {op : InsertOp} {target insert : Frozen} {i : Insertion}
    (ht : target.Made) (hi : insert.Made) (h : Insertion.of op target insert = .ok i) :
    (∃ k, i.code.OfMade k) ∧ ∀ f, i.fetal = some f → f.code.OfMade .standard := by
  cases op with
  | stack =>
    obtain ⟨c, hc, h⟩ := bind_eq_ok.mp h
    obtain ⟨-, -, hc⟩ := bind_eq_ok.mp hc
    cases h
    exact ⟨⟨_, Code.sequence_ofMade hi ht hc⟩, fun _ hf => nomatch hf⟩
  | inverseStack =>
    obtain ⟨c, hc, h⟩ := bind_eq_ok.mp h
    obtain ⟨-, -, hc⟩ := bind_eq_ok.mp hc
    cases h
    exact ⟨⟨_, Code.sequence_ofMade ht hi hc⟩, fun _ hf => nomatch hf⟩
  | wrap =>
    obtain ⟨c, hc, h⟩ := bind_eq_ok.mp h
    cases h
    unfold Code.wrap at hc
    split at hc
    · cases hc
    · split at hc
      · cases hc
      · cases hc
        exact ⟨⟨_, (Code.OfMade.of_made hi).of_graph rfl⟩, fun _ hf => nomatch hf⟩
  | restructure above =>
    obtain ⟨x, rfl⟩ := Code.restructure_ok h
    have hc := Code.OfMade.of_made ht
    refine ⟨⟨_, x.code_ofMade hc⟩, fun f hf => ?_⟩
    cases hf
    exact x.fetal_ofMade hc hi

/-! ## Runs -/

/-- A code that is grafted is stable. -/
def Event.Sound (r : Registry) : Event → Prop
  | .grafted _ f => f.Stable r
  | _ => True

namespace Stabilizer

open Repair

variable {s : Stabilizer} {k : GraphKind} {c : Code} {dst src : EndPoint} {e : Ept}

/-- What is known of a frozen code that a stabilization answers. -/
structure Answers (s : Stabilizer) (k : GraphKind) (f : Frozen) : Prop where
  made : f.Made
  kind_eq : f.kind = k
  stable : k.isWiringExempt = false → f.Stable s.registry

theorem yields_connect (h : c.OfMade k) :
    (connect c src dst).Yields (Event.Sound s.registry) (Code.OfMade k) :=
  yields_lift fun _ hc => h.connectAll hc

theorem yields_feedFrom (h : c.OfMade k) (kind : SourceKind) :
    (feedFrom kind c dst src).Yields (Event.Sound s.registry) (Code.OfMade k) :=
  (yields_connect h).bind fun _ hc => (yields_tell trivial).bind fun _ _ => yields_pure hc

theorem yields_feedNewInput (h : c.OfMade k) :
    (feedNewInput c dst e).Yields (Event.Sound s.registry) (Code.OfMade k) := by
  unfold feedNewInput
  have hk := c.graph.kind_insert .I .src e
  split
  · exact yields_throw _
  · rename_i heq
    rw [heq] at hk
    exact yields_feedFrom (h.of_graph hk) _

theorem yields_feed (h : c.OfMade k) (above : Above) (row : Row) (indices : List Nat) :
    (s.feed above c row indices dst e).Yields (Event.Sound s.registry) (Code.OfMade k) := by
  unfold feed
  split
  · exact yields_pure h
  · exact (yields_connect h).bind fun _ hc => (yields_tell trivial).bind fun _ _ => yields_pure hc

theorem yields_feedSpliced {above : Above} {insert : Frozen} {i : Insertion} {f : Fetal}
    (hi : i.code.OfMade k) (hf : f.code.OfMade .standard) :
    (s.feedSpliced above c insert i f dst e).Yields (Event.Sound s.registry)
      fun x => x.1.OfMade k ∧ x.2.code.OfMade .standard := by
  unfold feedSpliced
  cases above with
  | O => exact (yields_feed hi _ _ _).bind fun _ hc => yields_pure ⟨hc, hf⟩
  | _ => exact (yields_feed hf _ _ _).bind fun _ hc => yields_pure ⟨hi, hc⟩

theorem yields_graft {row : Row} {f : Frozen} (h : c.OfMade k) (hf : s.Answers .standard f) :
    (graft c row f).Yields (Event.Sound s.registry) (Code.OfMade k) := by
  unfold graft
  split
  · exact yields_throw _
  · rename_i heq
    exact (yields_tell (hf.stable rfl)).bind fun _ _ => yields_pure (h.graft hf.made heq)

/-- Fetal codes are stabilized by a program that answers codes of the kind it is given. -/
theorem yields_splice {stabilize : Code → Repair Frozen} {above : Above} {insert : Frozen}
    (hstab : ∀ c k, c.OfMade k →
      (stabilize c).Yields (Event.Sound s.registry) (s.Answers k))
    (h : c.OfMade k) (hi : insert.Made) :
    (s.splice stabilize above c insert dst e).Yields (Event.Sound s.registry)
      (Code.OfMade k) := by
  refine (yields_lift (P := fun i => ∃ x : Splice c insert above, i = x.insertion)
    fun i hx => Code.restructure_ok hx).bind ?_
  rintro i ⟨x, rfl⟩
  refine (yields_feedSpliced (x.code_ofMade h) (x.fetal_ofMade h hi)).bind fun ⟨c', f⟩ hcf => ?_
  exact (hstab f.code .standard hcf.2).bind fun d hd => yields_graft hcf.1 hd

theorem yields_repairOutside {stabilize : Code → Repair Frozen}
    (hpool : ∀ d f, s.pool.fetch d = .ok f → f.Made)
    (hstab : ∀ c k, c.OfMade k →
      (stabilize c).Yields (Event.Sound s.registry) (s.Answers k))
    (h : c.OfMade k) :
    (s.repairOutside stabilize c dst e).Yields (Event.Sound s.registry) (Code.OfMade k) := by
  unfold repairOutside
  split
  · exact yields_exhausted c
  split
  · exact yields_exhausted c
  refine yields_drawQuery.bind fun q _ => (yields_ask q).bind fun cs _ =>
    (yields_draw _).bind fun o _ => ?_
  cases o with
  | none => exact yields_pure h
  | some pick =>
    refine (yields_tell trivial).bind fun _ _ => ?_
    split
    · exact yields_throw _
    · rename_i hf
      exact yields_splice hstab h (hpool _ _ hf)

theorem yields_repair {stabilize : Code → Repair Frozen}
    (hpool : ∀ d f, s.pool.fetch d = .ok f → f.Made)
    (hstab : ∀ c k, c.OfMade k →
      (stabilize c).Yields (Event.Sound s.registry) (s.Answers k))
    (h : c.OfMade k) (wrapped : Bool) :
    (s.repair stabilize c dst wrapped).Yields (Event.Sound s.registry) (Code.OfMade k) := by
  unfold repair
  split
  · exact yields_throw _
  refine (yields_repairInside (fun _ _ _ => yields_feedFrom h _) (fun _ _ => yields_feedNewInput h)
    fun _ _ _ => yields_feedFrom h _).bind fun o ho => ?_
  cases o with
  | none => exact yields_repairOutside hpool hstab h
  | some c' => exact yields_pure (ho c' rfl)

theorem yields_freeze (h : c.OfMade k) (hv : c.violation? s.registry = none) :
    (Repair.freeze c).Yields (Event.Sound s.registry) (s.Answers k) := fun run => by
  refine ⟨.of_log_eq rfl, fun f hf => ?_⟩
  obtain rfl : c.freeze run.serial = f := Except.ok.inj hf
  have hkind : (c.freeze run.serial).kind = k := (Graph.kind_reorder c.graph).trans h.kind_eq
  refine ⟨h.made _, hkind, fun hk => Frozen.stable_of_valid ?_ (hkind ▸ hk)⟩
  refine Code.freeze_valid hv (fun hp => ?_) (fun d hd => ?_) _
  · rw [← h.kind_eq, hp] at hk
    cases hk
  · obtain ⟨row, hrow⟩ := Code.mem_subs.mp hd
    exact h.subs_made row d hrow

/-- Whatever the budget, a run answers a stable code and grafts stable codes only. -/
theorem yields_run (hpool : ∀ d f, s.pool.fetch d = .ok f → f.Made) (n : Nat) (wrapped : Bool)
    (h : c.OfMade k) : (s.run n wrapped c).Yields (Event.Sound s.registry) (s.Answers k) := by
  induction n generalizing wrapped c k with
  | zero => exact yields_exhausted c
  | succ n ih =>
    unfold run
    split
    · exact yields_freeze h ‹_›
    · refine yields_get.bind fun run _ => ?_
      split
      · exact yields_exhausted c
      · refine (yields_modify ?_).bind fun _ _ => ?_
        · exact fun _ => rfl
        exact (yields_repair hpool (fun _ _ hc => ih false hc) h wrapped).bind fun _ hc =>
          ih wrapped hc
    · exact yields_throw _

theorem yields_insert (hpool : ∀ d f, s.pool.fetch d = .ok f → f.Made) {op : InsertOp}
    {target insert : Frozen} (ht : target.Made) (hi : insert.Made) :
    (s.insert op target insert).Yields (Event.Sound s.registry) fun f => ∃ k, s.Answers k f := by
  refine (yields_modify ?_).bind fun _ _ => ?_
  · exact fun _ => rfl
  refine (yields_lift fun i hx => Insertion.of_ofMade ht hi hx).bind ?_
  rintro ⟨c, fetal⟩ ⟨⟨k, hk⟩, hfetal⟩
  cases fetal with
  | none => exact (yields_run hpool _ _ hk).mono fun _ hf => ⟨k, hf⟩
  | some f =>
    refine (yields_run hpool _ _ (hfetal f rfl)).bind fun d hd => ?_
    exact (yields_graft hk hd).bind fun _ hc =>
      (yields_run hpool _ _ hc).mono fun _ hf => ⟨k, hf⟩

theorem yields_stabilize (hpool : ∀ d f, s.pool.fetch d = .ok f → f.Made) (h : c.OfMade k) :
    (s.stabilize c).Yields (Event.Sound s.registry) (s.Answers k) := by
  refine (yields_modify ?_).bind fun _ _ => yields_run hpool _ _ h
  exact fun _ => rfl

/-- What a stabilization leaves that answers `f`: the code is stable, unless its kind is exempt
from wiring, and so are the codes that were grafted since `run`. -/
structure Delivers (s : Stabilizer) (run : Run) (f : Frozen) (run' : Run) : Prop where
  stable : f.kind.isWiringExempt = false → f.Stable s.registry
  log_append : ∃ new, run'.log = run.log ++ new ∧
    ∀ row d, Event.grafted row d ∈ new → d.Stable s.registry

theorem delivers_of_yields {m : Repair Frozen} {run run' : Run} {f : Frozen}
    (h : m.Yields (Event.Sound s.registry) fun f => ∃ k, s.Answers k f)
    (hrun : m.outcome run = (.ok f, run')) : s.Delivers run f run' := by
  have hends := h run
  unfold Ends at hends
  rw [hrun] at hends
  obtain ⟨⟨new, hlog, hnew⟩, hans⟩ := hends
  obtain ⟨k, hk⟩ := hans f rfl
  exact ⟨fun hx => hk.stable (hk.kind_eq ▸ hx), new, hlog, fun row d hd => hnew _ hd⟩

/-- Soundness of stabilization: whatever the registry, the pool, the tuning and the generator,
the codes that are answered and the fetal codes that are grafted on the way are valid as they are
after freezing. The pool may hand out any code that was made by freezing. -/
theorem stabilize_sound (s : Stabilizer) (hpool : ∀ d f, s.pool.fetch d = .ok f → f.Made) :
    (∀ (c : Code) (run run' : Run) (f : Frozen), (∀ d ∈ c.subs, d.Made) →
      (s.stabilize c).outcome run = (.ok f, run') → s.Delivers run f run') ∧
    ∀ (op : InsertOp) (target insert : Frozen) (run run' : Run) (f : Frozen),
      target.Made → insert.Made →
      (s.insert op target insert).outcome run = (.ok f, run') → s.Delivers run f run' := by
  constructor
  · intro c run run' f hsubs hrun
    have hc : c.OfMade c.kind := ⟨rfl, fun row d hd => hsubs d (Code.mem_subs.mpr ⟨row, hd⟩)⟩
    exact delivers_of_yields ((yields_stabilize hpool hc).mono fun _ hf => ⟨_, hf⟩) hrun
  · intro op target insert run run' f ht hi hrun
    exact delivers_of_yields (yields_insert hpool ht hi) hrun

/-- The event is that a fetal code was put into a row. -/
def isGraft : Event → Bool
  | .grafted .. => true
  | _ => false

/-- A code without inputs takes on an output, for which the pool has a codon. -/
theorem stabilize_sound_wrap :
    ∃ f run' row d,
      (Stabilizer.offering.insert .wrap .face (Code.sample.freeze 0)).outcome .sample =
        (.ok f, run') ∧ f.Stable .empty ∧ .grafted row d ∈ run'.log ∧ d.Stable .empty := by
  have hpool : ∀ d f, Stabilizer.offering.pool.fetch d = .ok f → f.Made := fun _ f hf => by
    cases hf
    exact codon_made _ _
  have hface : Frozen.face.Made := .freeze _ _ fun d hd => absurd hd List.not_mem_nil
  have hsubs : ∀ d ∈ Code.sample.subs, d.Made :=
    pair_subs_made _ _ (codon_made _ _) (codon_made _ _)
  have hok : ((Stabilizer.offering.insert .wrap .face (Code.sample.freeze 0)).outcome
      .sample).1.toOption.map Frozen.kind = some .standard := by decide +kernel
  have hlog : ((Stabilizer.offering.insert .wrap .face (Code.sample.freeze 0)).outcome
      .sample).2.log.any isGraft = true := by decide +kernel
  obtain ⟨f, hans, hkind⟩ := toOption_map_eq_some.mp hok
  obtain ⟨ev, hev, hgraft⟩ := List.any_eq_true.mp hlog
  cases ev with
  | grafted row d =>
    have hd := (stabilize_sound .offering hpool).2 .wrap .face _ .sample _ f hface
      (.freeze _ _ hsubs) (Prod.ext hans rfl)
    refine ⟨f, _, row, d, Prod.ext hans rfl, hd.stable ?_, hev, ?_⟩
    · rw [hkind]
      rfl
    · obtain ⟨new, hnew, hstable⟩ := hd.log_append
      rw [hnew] at hev
      exact hstable row d hev
  | _ => cases hgraft

end Stabilizer

end GeneGraph
