import GeneGraph.Proofs.Canonical
import GeneGraph.Proofs.Conclusions
import GeneGraph.Samples

/-!
# Answers in another order

A gene pool may list its candidates in any order. They are ranked before one is drawn, and
candidates of one rank have one digest, which is all that is used of the candidate that is drawn:
`Stabilizer.digests_ranked` says that the digests come in the same order. So pools whose answers
differ in the order of the candidates only lead to the same stabilizations, step by step
(`Stabilizer.stabilize_shuffled`).
-/

namespace GeneGraph

/-! ## Ranks -/

namespace Candidate

variable {a b c : Candidate}

/-- What a candidate is ranked by. -/
def rank (c : Candidate) : Nat × Nat × Digest := (c.proximity, c.abundance, c.digest)

/-- The order in which candidates are ranked. -/
def RankLe (x y : Nat × Nat × Digest) : Prop :=
  x.1 < y.1 ∨ x.1 = y.1 ∧ (y.2.1 < x.2.1 ∨ x.2.1 = y.2.1 ∧ ¬ Before y.2.2 x.2.2)

theorem ranksBefore_iff : a.ranksBefore b = true ↔ RankLe a.rank b.rank := by
  simp only [ranksBefore, RankLe, rank, Bool.or_eq_true, Bool.and_eq_true, decide_eq_true_eq,
    Bool.not_eq_true', decide_eq_false_iff_not]

theorem RankLe.trans {x y z : Nat × Nat × Digest} (h : RankLe x y) (h' : RankLe y z) :
    RankLe x z := by
  unfold RankLe at h h' ⊢
  rcases h with h | ⟨h₁, h⟩
  · left
    omega
  · rcases h' with h' | ⟨h₁', h'⟩
    · left
      omega
    · right
      refine ⟨h₁.trans h₁', ?_⟩
      rcases h with h | ⟨h₂, h⟩
      · left
        omega
      · rcases h' with h' | ⟨h₂', h'⟩
        · left
          omega
        · exact Or.inr ⟨h₂.trans h₂', not_before_trans h h'⟩

theorem RankLe.total (x y : Nat × Nat × Digest) : RankLe x y ∨ RankLe y x := by
  unfold RankLe
  rcases Nat.lt_trichotomy x.1 y.1 with h₁ | h₁ | h₁
  · exact Or.inl (Or.inl h₁)
  · rcases Nat.lt_trichotomy y.2.1 x.2.1 with h₂ | h₂ | h₂
    · exact Or.inl (Or.inr ⟨h₁, Or.inl h₂⟩)
    · by_cases h₃ : Before y.2.2 x.2.2
      · exact Or.inr (Or.inr ⟨h₁.symm, Or.inr ⟨h₂, h₃.asymm⟩⟩)
      · exact Or.inl (Or.inr ⟨h₁, Or.inr ⟨h₂.symm, h₃⟩⟩)
    · exact Or.inr (Or.inr ⟨h₁.symm, Or.inl h₂⟩)
  · exact Or.inr (Or.inl h₁)

theorem RankLe.antisymm {x y : Nat × Nat × Digest} (h : RankLe x y) (h' : RankLe y x) : x = y := by
  obtain ⟨x₁, x₂, x₃⟩ := x
  obtain ⟨y₁, y₂, y₃⟩ := y
  simp only [RankLe] at h h'
  obtain rfl : x₁ = y₁ := by omega
  obtain rfl : x₂ = y₂ := by omega
  simp only [Nat.lt_irrefl, true_and, false_or] at h h'
  rw [eq_of_not_before h' h]

end Candidate

/-- Candidates in any order are ranked alike. -/
theorem Stabilizer.rank_ranked (s : Stabilizer) {cs cs' : List Candidate} (h : cs.Perm cs') :
    (s.ranked cs).map Candidate.rank = (s.ranked cs').map Candidate.rank := by
  have hsorted : ∀ l : List Candidate,
      ((l.mergeSort Candidate.ranksBefore).map Candidate.rank).Pairwise Candidate.RankLe := by
    intro l
    rw [List.pairwise_map]
    refine (List.pairwise_mergeSort (fun a b c hab hbc => ?_) (fun a b => ?_) l).imp
      Candidate.ranksBefore_iff.mp
    · rw [Candidate.ranksBefore_iff] at hab hbc ⊢
      exact hab.trans hbc
    · rw [Bool.or_eq_true, Candidate.ranksBefore_iff, Candidate.ranksBefore_iff]
      exact Candidate.RankLe.total _ _
  have hperm : ∀ l : List Candidate, (l.mergeSort Candidate.ranksBefore).Perm l := fun l =>
    List.mergeSort_perm l _
  unfold ranked
  rw [List.map_take, List.map_take]
  congr 1
  exact (((hperm _).trans (h.filter _)).trans (hperm _).symm).map Candidate.rank
    |>.eq_of_pairwise (fun _ _ _ _ => Candidate.RankLe.antisymm) (hsorted _) (hsorted _)

/-- Candidates in any order are ranked with their digests in the same order. -/
theorem Stabilizer.digests_ranked (s : Stabilizer) {cs cs' : List Candidate} (h : cs.Perm cs') :
    (s.ranked cs).map Candidate.digest = (s.ranked cs').map Candidate.digest := by
  have hrank := congrArg (List.map fun x : Nat × Nat × Digest => x.2.2) (s.rank_ranked h)
  rwa [List.map_map, List.map_map] at hrank

/-- Drawing from a list is drawing from what `f` makes of its items. -/
theorem Prng.choose_map {α β : Type} (g : Prng) (f : α → β) (l : List α) :
    g.choose (l.map f) = ((g.choose l).1.map f, (g.choose l).2) := by
  unfold choose
  rw [List.length_map]
  obtain ⟨k, g'⟩ := g.index l.length
  cases k with
  | none => rfl
  | some k => exact congrArg (·, g') List.getElem?_map

theorem Repair.draw_choose_map {α β γ : Type} (f : α → β) (l : List α) (k : Option β → Repair γ) :
    (Repair.draw (·.choose (l.map f)) >>= k) =
      (Repair.draw (·.choose l) >>= fun o => k (o.map f)) := by
  funext run
  show (k (run.prng.choose (l.map f)).1).outcome
      { run with prng := (run.prng.choose (l.map f)).2 } =
    (k ((run.prng.choose l).1.map f)).outcome { run with prng := (run.prng.choose l).2 }
  rw [Prng.choose_map]

/-! ## Pools -/

/-- The answers have the same candidates in any order, or are the same error. -/
def AnswersAgree (a a' : Except PoolError (List Candidate)) : Prop :=
  (∃ cs cs' : List Candidate, a = .ok cs ∧ a' = .ok cs' ∧ cs.Perm cs') ∨
    ∃ err, a = .error err ∧ a' = .error err

/-- The pools hand out the same codes and answer alike, but for the order of the candidates. -/
structure GenePool.Shuffles (p p' : GenePool) : Prop where
  find_agree : ∀ earlier q, AnswersAgree (p.find earlier q) (p'.find earlier q)
  fetch_eq : ∀ d, p'.fetch d = p.fetch d

/-- A pool that lists some codes for every query, and hands out a codon with one output. -/
def GenePool.listing (fs : List Frozen) : GenePool where
  find _ _ := .ok (fs.map fun f => ⟨f.digest, f.kind, 1, 1⟩)
  fetch _ := .ok (.codon .empty (.single 3))

namespace Stabilizer

variable {r : Registry} {t : Tuning} {p p' : GenePool}

/-- What is done with the answer of a pool is the same if it does not depend on the order. -/
theorem ask_bind_eq {α : Type} {k k' : List Candidate → Repair α} (h : p.Shuffles p') (q : Query)
    (hk : ∀ cs cs' : List Candidate, cs.Perm cs' → k' cs' = k cs) :
    (ask ⟨r, p', t⟩ q >>= k') = (ask ⟨r, p, t⟩ q >>= k) := by
  unfold ask
  simp only [bind_assoc]
  refine bind_congr fun run => bind_congr fun _ => ?_
  obtain ⟨cs, cs', hfind, hfind', hperm⟩ | ⟨err, hfind, hfind'⟩ := h.find_agree run.asked q
  · rw [hfind, hfind', pure_bind, pure_bind]
    exact hk cs cs' hperm
  · rw [hfind, hfind']
    cases err with
    | timeout ms =>
      rw [pure_bind, pure_bind]
      exact hk [] [] (List.Perm.refl [])
    | _ => rfl

/-- What is left to do when a candidate was drawn. -/
def takeUp (s : Stabilizer) (above : Above) (c : Code) (dst : EndPoint) (e : Ept) :
    Option Digest → Repair Insertion
  | none => return ⟨c, none⟩
  | some d => do
    Repair.tell (.fetched d)
    match s.pool.fetch d with
    | .error err => throw (.pool err)
    | .ok insert => s.spliceIn above c insert dst e

/-- Of the candidate that is drawn, only the digest is used. -/
theorem attemptOutside_eq (s : Stabilizer) {above : Above} {c : Code} {dst : EndPoint}
    (e : Ept) (habove : Above.ofRow? dst.row = some above) (hk : c.kind = .standard) :
    s.attemptOutside c dst e = s.drawQuery e >>= fun q => s.ask q >>= fun cs =>
      Repair.draw (·.choose ((s.ranked cs).map Candidate.digest)) >>= s.takeUp above c dst e := by
  unfold attemptOutside
  rw [habove]
  simp only [ne_eq, hk, not_true_eq_false, if_false]
  refine bind_congr fun q => bind_congr fun cs => ?_
  rw [Repair.draw_choose_map]
  refine bind_congr fun o => ?_
  cases o <;> rfl

theorem takeUp_eq (h : p.Shuffles p') (above : Above) (c : Code) (dst : EndPoint) (e : Ept) :
    takeUp ⟨r, p', t⟩ above c dst e = takeUp ⟨r, p, t⟩ above c dst e := by
  funext d
  cases d with
  | none => rfl
  | some d =>
    simp only [takeUp, h.fetch_eq]
    rfl

theorem attemptOutside_shuffled (h : p.Shuffles p') (c : Code) (dst : EndPoint) (e : Ept) :
    attemptOutside ⟨r, p', t⟩ c dst e = attemptOutside ⟨r, p, t⟩ c dst e := by
  cases habove : Above.ofRow? dst.row with
  | none =>
    unfold attemptOutside
    rw [habove]
  | some above =>
    by_cases hk : c.kind = .standard
    · rw [attemptOutside_eq _ e habove hk, attemptOutside_eq _ e habove hk, takeUp_eq h]
      refine bind_congr fun q => ask_bind_eq h q fun cs cs' hperm => ?_
      rw [digests_ranked ⟨r, p, t⟩ hperm]
      rfl
    · unfold attemptOutside
      simp only [habove, ne_eq, hk, not_false_eq_true, if_true]

theorem attempt_shuffled (h : p.Shuffles p') (c : Code) (dst : EndPoint) (wrapped : Bool) :
    attempt ⟨r, p', t⟩ c dst wrapped = attempt ⟨r, p, t⟩ c dst wrapped := by
  unfold attempt
  cases c.graph.ept? .dst dst with
  | none => rfl
  | some e =>
    refine bind_congr fun o => ?_
    cases o with
    | none => exact attemptOutside_shuffled h c dst e
    | some c' => rfl

/-- The calls of a stabilization are the same, however deep they are nested. -/
theorem run_shuffled (h : p.Shuffles p') (n : Nat) :
    run ⟨r, p', t⟩ n = run ⟨r, p, t⟩ n := by
  induction n with
  | zero => rfl
  | succ n ih =>
    funext wrapped c
    unfold run
    cases c.violation? r with
    | none => rfl
    | some v =>
      cases v with
      | incomplete dst row => simp only [repair_eq, attempt_shuffled h, ih]
      | _ => rfl

/-- Pools that differ in the order of the candidates only lead to the same stabilizations: these
give the same code or the same error, draw the same numbers, make the same queries and do the
same things in between. -/
theorem stabilize_shuffled (r : Registry) (t : Tuning) {p p' : GenePool} (h : p.Shuffles p')
    (run : Run) :
    (∀ c, (stabilize ⟨r, p', t⟩ c).outcome run = (stabilize ⟨r, p, t⟩ c).outcome run) ∧
      ∀ op target insert, (Stabilizer.insert ⟨r, p', t⟩ op target insert).outcome run =
        (Stabilizer.insert ⟨r, p, t⟩ op target insert).outcome run := by
  have hall : ∀ wrapped, repairAll ⟨r, p', t⟩ wrapped = repairAll ⟨r, p, t⟩ wrapped := by
    intro wrapped
    unfold repairAll
    rw [run_shuffled h]
  refine ⟨fun c => ?_, fun op target insert => ?_⟩
  · unfold stabilize
    rw [hall]
  · rw [insert_eq, insert_eq]
    simp only [hall]

/-- Two listings of the same candidates, one of them twice: either way the pool is asked once and
the wrap is completed. -/
theorem stabilize_shuffled_listing :
    let a := Frozen.codon .empty (.single 3)
    let outcome := fun fs => (Stabilizer.insert ⟨.empty, .listing fs, .default⟩ .wrap .face
      (Code.sample.freeze 0)).outcome .sample
    (GenePool.listing [a, .face, .face]).Shuffles (.listing [.face, a, .face]) ∧
      outcome [.face, a, .face] = outcome [a, .face, .face] ∧
      (outcome [a, .face, .face]).1.toOption.map Frozen.kind = some .standard ∧
      (outcome [a, .face, .face]).2.asked.length = 1 := by
  intro a outcome
  have h : (GenePool.listing [a, .face, .face]).Shuffles (.listing [.face, a, .face]) :=
    ⟨fun _ _ => Or.inl ⟨_, _, rfl, rfl, (List.Perm.swap Frozen.face a [.face]).map _⟩, fun _ => rfl⟩
  exact ⟨h, (stabilize_shuffled .empty .default h .sample).2 .wrap .face (Code.sample.freeze 0),
    by decide +kernel, by decide +kernel⟩

end Stabilizer

end GeneGraph
