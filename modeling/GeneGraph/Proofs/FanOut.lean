import GeneGraph.Proofs.Framing
import GeneGraph.Proofs.Grafting
import GeneGraph.Samples

/-!
# How many destinations a source feeds

The limit of the tuning is for the sources of a code that are used again. A source that fed
nothing before, a new input and an output of a spliced code that feeds an output all feed one
destination in the end, so they are within any limit. Where a code is spliced in above a sub-code,
its output feeds the displaced sub-code inside the fetal code, which hands the output out besides
(`FedInFetal`): it feeds two destinations, even if the limit is one
(`Stabilizer.stabilize_limits_fanOut`, `Stabilizer.stabilize_feeds_two`).
-/

namespace GeneGraph

/-! ## Counting consumers -/

namespace Graph

variable {g g' : Graph} {dst src : EndPoint} {e : Ept} {k : Nat} {l : List EndPoint}

theorem nodup_consumers (g : Graph) (src : EndPoint) : (g.consumers src).Nodup :=
  (SortedMap.nodup_keys g.wires).sublist (List.filter_sublist.map Prod.fst)

theorem fanOut_eq_length (hl : l.Nodup) (h : ∀ p, g.sourceOf? p = some src ↔ p ∈ l) :
    g.fanOut src = l.length :=
  ((List.perm_ext_iff_of_nodup (nodup_consumers g src) hl).mpr fun p =>
    mem_consumers.trans (h p)).length_eq

theorem fanOut_eq_zero (h : ∀ p, g.sourceOf? p ≠ some src) : g.fanOut src = 0 :=
  fanOut_eq_length List.nodup_nil fun p => iff_of_false (h p) List.not_mem_nil

/-- A source that gets a destination feeds one more. -/
theorem fanOut_joined (h : g.sourceOf? dst ≠ some src) :
    (g.joined dst src).fanOut src = g.fanOut src + 1 := by
  refine fanOut_eq_length (l := dst :: g.consumers src) ?_ fun p => ?_
  · exact List.nodup_cons.mpr ⟨fun hm => h (mem_consumers.mp hm), nodup_consumers g src⟩
  · rw [sourceOf?_joined, List.mem_cons, mem_consumers]
    by_cases hp : p = dst
    · rw [if_pos hp]
      exact iff_of_true rfl (Or.inl hp)
    · rw [if_neg hp, or_iff_right hp]

/-- A new input feeds nothing. -/
theorem fanOut_insert_input (h : g.insert .I .src e = (.ok k, g')) : g'.fanOut ⟨.I, k⟩ = 0 := by
  have hr := renames_insert_input h
  obtain ⟨-, -, rfl, -⟩ := insert_ok h
  refine fanOut_eq_zero fun p hp => ?_
  obtain ⟨src, -, hsrc⟩ := Option.map_eq_some_iff.mp ((hr.source_eq p).symm.trans hp)
  exact EndPoint.forall_onRow_shift_ne.mpr rfl src hsrc

end Graph

namespace Above

theorem eq_O_of_ofRow? {row : Row} (h : ofRow? row = some .O) : row = .O := by
  cases row with
  | O => rfl
  | _ => cases h

/-- Above a sub-code, the destination is one of the sub-code. -/
theorem replacedRow_of_ofRow? {above : Above} {dst : EndPoint} (h : ofRow? dst.row = some above)
    (hO : above ≠ .O) : (⟨above.replacedRow, dst.index⟩ : EndPoint) = dst := by
  obtain ⟨row, k⟩ := dst
  cases row with
  | A | B =>
    cases h
    rfl
  | O =>
    cases h
    exact absurd rfl hO
  | _ => cases h

end Above

namespace Splice

variable {target : Code} {insert : Frozen} {above : Above} (x : Splice target insert above)
  {reg : Registry} {k : Nat}

/-- Nothing uses the outputs that the vacated row gets for the inserted code. -/
theorem fanOut_code (hs : target.Sound reg) (hk : x.displaced.outputs.length ≤ k) :
    x.code.graph.fanOut ⟨above.replacedRow, k⟩ = 0 := by
  refine Graph.fanOut_eq_zero fun p hp => ?_
  rw [x.sourceOf?_code (hs.loopless _)] at hp
  split at hp
  · obtain ⟨j, hj⟩ := x.exists_feeder.mp ⟨p.index, hp⟩
    exact hs.loopless above.replacedRow _ _ hj rfl rfl
  · exact absurd (x.lt_of_consumer hs hp) (Nat.not_lt.mpr hk)

/-- The fetal graph hands out each output of the inserted code, and makes no other use of it. -/
theorem sourceOf?_fetal_eq_inserted {p : EndPoint} :
    x.fetal.graph.sourceOf? p = some ⟨above.insertedRow, k⟩ ↔
      k < insert.outputs.length ∧ p = ⟨.O, x.displaced.outputs.length + k⟩ := by
  rw [x.sourceOf?_fetal_eq_some_iff]
  constructor
  · rintro (hw | hw)
    · obtain ⟨_, _, _, -, -, -, he, -⟩ := x.mem_wires.mp hw
      have hsub : above.insertedRow.isSub = true := Above.isSub_insertedRow
      rw [show above.insertedRow = .I from congrArg EndPoint.row he] at hsub
      cases hsub
    · rcases x.mem_exposed.mp hw with ⟨l, -, he, -⟩ | ⟨l, hl, he, rfl⟩
      · exact absurd (congrArg EndPoint.row he) Above.insertedRow_ne_displacedRow
      · cases he
        exact ⟨hl, rfl⟩
  · rintro ⟨hk, rfl⟩
    exact Or.inr (x.mem_exposed.mpr (Or.inr ⟨k, hk, rfl, rfl⟩))

theorem fanOut_fetal (hk : k < insert.outputs.length) :
    x.fetal.graph.fanOut ⟨above.insertedRow, k⟩ = 1 := by
  refine Graph.fanOut_eq_length (List.nodup_singleton ⟨.O, x.displaced.outputs.length + k⟩)
    fun p => ?_
  rw [x.sourceOf?_fetal_eq_inserted, List.mem_singleton, and_iff_right hk]

end Splice

/-! ## Feeding inside a fetal code -/

/-- In the fetal code of a splice above a row, an output of the inserted code feeds a destination
of the displaced sub-code that had no source in the target. The same output has been wired to an
output of the fetal code, behind those of the displaced sub-code, and feeds nothing else. -/
structure FedInFetal (above : Above) (g : Graph) (dst src : EndPoint) : Prop where
  spliced : ∃ (target : Code) (insert : Frozen) (i : Insertion) (f : Fetal),
    target.restructure insert above = .ok i ∧ i.fetal = some f ∧
      target.graph.sourceOf? ⟨above.replacedRow, dst.index⟩ = none ∧
      src.index < insert.outputs.length ∧ g = f.code.graph.joined dst src
  src_row : src.row = above.insertedRow
  dst_row : dst.row = above.displacedRow
  consumers : ∀ p, g.sourceOf? p = some src ↔
    p = dst ∨ p = ⟨.O, g.count above.displacedRow .src + src.index⟩
  fanOut : g.fanOut src = 2

theorem FedInFetal.within_iff {above : Above} {g : Graph} {dst src : EndPoint}
    (h : FedInFetal above g dst src) (limit : Nat) : g.fanOut src ≤ limit ↔ 2 ≤ limit := by
  rw [h.fanOut]

theorem Splice.fedInFetal {target : Code} {insert : Frozen} {above : Above}
    (x : Splice target insert above) (hx : target.restructure insert above = .ok x.insertion)
    {k l : Nat} (hl : target.graph.sourceOf? ⟨above.replacedRow, l⟩ = none)
    (hk : k < insert.outputs.length) :
    FedInFetal above
      (x.fetal.graph.joined ⟨above.displacedRow, l⟩ ⟨above.insertedRow, k⟩)
      ⟨above.displacedRow, l⟩ ⟨above.insertedRow, k⟩ := by
  have hopen : x.fetal.graph.sourceOf? ⟨above.displacedRow, l⟩ ≠ some ⟨above.insertedRow, k⟩ :=
    fun hp => above.displacedRow_ne_O
      (congrArg EndPoint.row (x.sourceOf?_fetal_eq_inserted.mp hp).2)
  have hcount : (x.fetal.graph.joined ⟨above.displacedRow, l⟩ ⟨above.insertedRow, k⟩).count
      above.displacedRow .src = x.displaced.outputs.length := by
    have hrow : x.fetal.graph.row? above.displacedRow = some x.displaced.rowSides := by
      rw [x.row?_fetal, if_pos rfl]
    exact congrArg Interface.length (Graph.interface_of_row? hrow)
  refine ⟨⟨target, insert, _, _, hx, rfl, hl, hk, rfl⟩, rfl, rfl, fun p => ?_, ?_⟩
  · rw [hcount, Graph.sourceOf?_joined]
    by_cases hp : p = ⟨above.displacedRow, l⟩
    · rw [if_pos hp]
      exact iff_of_true rfl (Or.inl hp)
    · rw [if_neg hp, x.sourceOf?_fetal_eq_inserted, and_iff_right hk, or_iff_right hp]
  · rw [Graph.fanOut_joined hopen, x.fanOut_fetal hk]

/-! ## Events -/

/-- A connection was made, and its source keeps within a limit. Only inside a fetal code, where the
code was spliced in above a sub-code, the source feeds two destinations in any case. -/
def Event.Limited (limit : Nat) : Event → Prop
  | .connected _ g dst src => g.sourceOf? dst = some src ∧ g.fanOut src ≤ limit
  | .fed .O g dst src => g.sourceOf? dst = some src ∧ g.fanOut src ≤ limit
  | .fed above g dst src => FedInFetal above g dst src ∧ (g.fanOut src ≤ limit ↔ 2 ≤ limit)
  | .fetched _ | .grafted _ _ => True

namespace Stabilizer

open Repair

variable {s : Stabilizer} {wrapped : Bool} {c : Code} {i : Insertion} {dst src : EndPoint}
  {e : Ept} {run run' : Run} {ans : Except GraphError Frozen} {k limit : Nat} {E : Event → Prop}

theorem tells_graft {row : Row} {d : Frozen} (h : E (.grafted row d)) :
    (Repair.graft c row d).Yields E fun _ => True := by
  unfold Repair.graft
  split
  · exact yields_throw _
  · exact (yields_tell h).bind fun _ _ => yields_pure trivial

/-- What is told in a run is told by an attempt or by a graft. -/
theorem Concludes.tells
    (hattempt : ∀ wrapped c dst row, c.violation? s.registry = some (.incomplete dst row) →
      (s.attempt c dst wrapped).Yields E fun _ => True)
    (hgraft : ∀ row d, E (.grafted row d)) (h : s.Concludes wrapped i run k ans run') :
    run.Extends E run' := by
  induction h with
  | valid | broken | exhausted => exact .of_log_eq rfl
  | failed hv _ ha =>
    exact ((ends_of_outcome ha).mp (hattempt _ _ _ _ hv _)).1
  | repaired hv _ ha _ ih =>
    exact (((ends_of_outcome ha).mp (hattempt _ _ _ _ hv _)).1.trans ih :)
  | lost _ ih => exact ih
  | misfit _ hg ih => exact ih.trans ((ends_of_outcome hg).mp (tells_graft (hgraft _ _) _)).1
  | grafted _ hg _ ihf ihc =>
    exact (ihf.trans ((ends_of_outcome hg).mp (tells_graft (hgraft _ _) _)).1).trans ihc

/-! ## Sources inside the code -/

theorem limited_feedFrom {kind : SourceKind} (hd : c.graph.sourceOf? dst = none)
    (h : c.graph.fanOut src < limit) :
    (feedFrom kind c dst src).Yields (Event.Limited limit) fun _ => True := by
  refine (yields_feedFrom_joined ⟨Graph.sourceOf?_joined.trans (if_pos rfl), ?_⟩).mono
    fun _ _ => trivial
  rw [Graph.fanOut_joined (by rw [hd]; exact nofun)]
  exact h

theorem limited_feedNewInput (hl : 1 ≤ limit) (hd : c.graph.sourceOf? dst = none) :
    (feedNewInput c dst e).Yields (Event.Limited limit) fun _ => True := by
  unfold feedNewInput
  split
  · exact yields_throw _
  · rename_i k g hg
    refine limited_feedFrom ?_ ?_
    · exact ((Graph.renames_insert_input hg).source_eq dst).trans (by rw [hd]; rfl)
    · rw [Graph.fanOut_insert_input hg]
      exact hl

/-- From inside, a destination is fed within the limit. -/
theorem limited_repairInside (hl : 1 ≤ s.tuning.maxFanOut.toNat)
    (hd : c.graph.sourceOf? dst = none) :
    (s.repairInside c dst e wrapped).Yields (Event.Limited s.tuning.maxFanOut.toNat)
      fun _ => True := by
  refine (yields_repairInside (P := fun _ => True) (fun src _ hzero => ?_)
    (fun _ _ => limited_feedNewInput hl hd) fun src _ hfew => limited_feedFrom hd hfew).mono
      fun _ _ => trivial
  refine limited_feedFrom hd ?_
  rw [hzero]
  exact hl

/-! ## Sources in a spliced code -/

theorem tells_feed {above : Above} {row : Row} {indices : List Nat}
    (h : ∀ k ∈ indices, E (.fed above (c.graph.joined dst ⟨row, k⟩) dst ⟨row, k⟩)) :
    (s.feed above c row indices dst e).Yields E fun _ => True := by
  unfold feed
  split
  · exact yields_pure trivial
  · rename_i src rest hviable
    obtain ⟨k, hk, rfl⟩ : ∃ k ∈ indices, (⟨row, k⟩ : EndPoint) = src := by
      have hmem : src ∈ s.viableAmong c.graph (indices.map fun k => ⟨row, k⟩) dst e := by
        rw [hviable]
        exact List.mem_cons_self
      unfold viableAmong at hmem
      split at hmem
      · cases hmem
      · exact List.mem_map.mp (List.mem_filter.mp hmem).1
    refine (yields_lift fun _ hc => (Code.connectAll_joined hc).2.2).bind fun c' hc' => ?_
    subst hc'
    exact (yields_tell (h k hk)).bind fun _ _ => yields_pure trivial

/-- In the resultant the source is new, and in the fetal code it is handed out besides. -/
theorem limited_feedSpliced (hl : 1 ≤ limit) {above : Above} {insert : Frozen}
    (x : Splice c insert above) (hx : c.restructure insert above = .ok x.insertion)
    (hs : c.Sound s.registry) (ha : Above.ofRow? dst.row = some above)
    (hd : c.graph.sourceOf? dst = none) :
    (s.feedSpliced above c insert x.insertion ⟨above.replacedRow, x.fetal⟩ dst e).Yields
      (Event.Limited limit) fun _ => True := by
  have hfetal : above ≠ .O → ∀ k ∈ List.range insert.outputs.length, FedInFetal above
      (x.fetal.graph.joined ⟨above.displacedRow, dst.index⟩ ⟨above.insertedRow, k⟩)
      ⟨above.displacedRow, dst.index⟩ ⟨above.insertedRow, k⟩ := by
    intro hO k hk
    rw [← Above.replacedRow_of_ofRow? ha hO] at hd
    exact x.fedInFetal hx hd (List.mem_range.mp hk)
  unfold feedSpliced
  cases above with
  | A | B =>
    refine (tells_feed fun k hk => ?_).bind fun _ _ => yields_pure trivial
    have hfed := hfetal nofun k hk
    exact ⟨hfed, hfed.within_iff limit⟩
  | O =>
    refine (tells_feed fun k hk => ?_).bind fun _ _ => yields_pure trivial
    have hrow : dst.row ≠ Above.O.replacedRow := by
      rw [Above.eq_O_of_ofRow? ha]
      exact nofun
    obtain ⟨j, -, rfl⟩ := List.mem_map.mp hk
    have hcount : ((c.sub? Above.O.replacedRow).map fun d => d.outputs.length).getD 0 =
        x.displaced.outputs.length := by
      rw [x.displaced_eq]
      rfl
    have hopen : x.insertion.code.graph.sourceOf? dst ≠
        some ⟨.B, x.displaced.outputs.length + j⟩ := by
      rw [show x.insertion.code = x.code from rfl, x.sourceOf?_code (hs.loopless _), if_neg hrow,
        hd]
      exact nofun
    have hfree : x.insertion.code.graph.fanOut ⟨.B, x.displaced.outputs.length + j⟩ = 0 :=
      x.fanOut_code hs (Nat.le_add_right ..)
    refine ⟨Graph.sourceOf?_joined.trans (if_pos rfl), ?_⟩
    rw [hcount, Graph.fanOut_joined hopen, hfree]
    exact hl

theorem limited_attempt (hl : 1 ≤ s.tuning.maxFanOut.toNat) (hs : c.Sound s.registry)
    (hd : c.graph.sourceOf? dst = none) :
    (s.attempt c dst wrapped).Yields (Event.Limited s.tuning.maxFanOut.toNat) fun _ => True := by
  refine yields_attempt (fun e _ => (limited_repairInside hl hd).mono fun _ _ _ _ => trivial)
    fun e => yields_attemptOutside (fun _ => trivial) trivial fun _ above insert habove => ?_
  refine (yields_lift (P := fun i => c.restructure insert above = .ok i) fun _ hx => hx).bind
    fun i hx => ?_
  obtain ⟨x, rfl⟩ := Code.restructure_ok hx
  exact (limited_feedSpliced hl x hx hs habove hd).bind fun _ _ => yields_pure trivial

/-! ## Runs -/

theorem Concludes.limited (hl : 1 ≤ s.tuning.maxFanOut.toNat)
    (h : s.Concludes wrapped i run k ans run') :
    run.Extends (Event.Limited s.tuning.maxFanOut.toNat) run' := by
  refine h.tells (fun wrapped c dst row hv => ?_) fun _ _ => trivial
  have hs := Code.sound_of_incomplete hv
  obtain ⟨p, hp, hmem⟩ := hs.incomplete hv
  cases hp
  exact limited_attempt hl hs (Graph.mem_unconnected.mp hmem).2

/-- Whatever a stabilization or an insertion connects, in the code itself or in a fetal code, the
source feeds no more destinations afterwards than the limit allows, with one exception. An output
of a code that was spliced in above a sub-code feeds the displaced sub-code inside the fetal code,
and the output of the fetal code that it is wired straight through to. These are two, so it is
within the limit if this is two or more. -/
theorem stabilize_limits_fanOut (s : Stabilizer) (hl : 1 ≤ s.tuning.maxFanOut.toNat) (run : Run) :
    (∀ c, (s.stabilize c).Ends run fun _ run' =>
      run.Extends (Event.Limited s.tuning.maxFanOut.toNat) run') ∧
    ∀ op target insert, (s.insert op target insert).Ends run fun _ run' =>
      run.Extends (Event.Limited s.tuning.maxFanOut.toNat) run' := by
  constructor
  · exact fun c => (stabilize_concludes s c run).mono fun _ _ ⟨_, h⟩ => (h.limited hl :)
  · refine fun op target insert => (insert_concludes s op target insert run).mono ?_
    rintro ans run' ⟨k, h⟩
    cases h with
    | refused => exact .of_log_eq rfl
    | inserted _ hc => exact (hc.limited hl :)

/-- The stabilizer whose pool always offers a codon, with the least limit there is. -/
def frugal : Stabilizer :=
  { Stabilizer.offering with tuning := { Tuning.default with maxFanOut := 1 } }

/-- A frozen interface without end points. -/
def blank : Frozen := (Code.ofGraph (.ofKind .empty)).freeze 0

/-- A frozen code whose input goes into a codon that makes nothing of it. -/
def sink : Frozen :=
  ((Code.pair (.single 3) .empty (.codon (.single 3) .empty) (.codon .empty .empty)).wired
    [(⟨.I, 0⟩, ⟨.A, 0⟩)]).freeze 0

/-- An output is fed within the least limit. -/
theorem stabilize_limits_fanOut_sample :
    1 ≤ frugal.tuning.maxFanOut.toNat ∧
    ∃ kind g dst src,
      .connected kind g dst src ∈ ((frugal.stabilize .sample).outcome .sample).2.log ∧
        g.fanOut src ≤ 1 := by
  refine ⟨by decide, ?_⟩
  have hlog : ((frugal.stabilize .sample).outcome .sample).2.log.any
      (fun | .connected .. => true | .fetched _ | .fed .. | .grafted .. => false) = true := by
    decide +kernel
  obtain ⟨ev, hev, hconn⟩ := List.any_eq_true.mp hlog
  cases ev with
  | connected kind g dst src =>
    have hends : (frugal.stabilize .sample).Ends .sample _ :=
      (stabilize_limits_fanOut frugal (by decide) .sample).1 .sample
    obtain ⟨new, hnew, hlimited⟩ := hends
    rw [hnew] at hev
    exact ⟨kind, g, dst, src, hnew ▸ hev, (hlimited _ hev).2⟩
  | _ => cases hconn

/-- Without inputs the first codon of a code has nothing to feed it. The codon that is spliced in
for it hands its output out and feeds the codon with it, where the limit is one. -/
theorem stabilize_feeds_two :
    frugal.tuning.maxFanOut.toNat = 1 ∧
    ∃ above g dst src,
      .fed above g dst src ∈ ((frugal.insert .wrap blank sink).outcome .sample).2.log ∧
        g.sourceOf? dst = some src ∧ g.fanOut src = 2 := by
  refine ⟨rfl, ?_⟩
  have hlog : ((frugal.insert .wrap blank sink).outcome .sample).2.log.any
      (fun | .fed _ g dst src => g.sourceOf? dst = some src && g.fanOut src = 2 | _ => false) =
        true := by decide +kernel
  obtain ⟨ev, hev, hfed⟩ := List.any_eq_true.mp hlog
  cases ev with
  | fed above g dst src =>
    obtain ⟨hsrc, hcount⟩ := Bool.and_eq_true_iff.mp hfed
    exact ⟨above, g, dst, src, hev, of_decide_eq_true hsrc, of_decide_eq_true hcount⟩
  | _ => cases hfed

end Stabilizer

end GeneGraph
