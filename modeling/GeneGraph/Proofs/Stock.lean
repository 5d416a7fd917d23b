import GeneGraph.Proofs.Checks
import GeneGraph.Proofs.Collection
import GeneGraph.Samples
import Mathlib.Order.Bounds.Basic

/-!
# What a gene pool answers

A gene pool in memory has two stores. Its arena forgets codes when it is collected, but its records
stay, and a code that is added again finds its old one. So the records are those of all additions
there ever were (`MemoryPool.Recorded`), whatever has become of the codes.

A `Stock` is such a pool in a program: the arena of its ledger is that of the pool, so codes are
added, and handles copied and dropped, until a collection drops what has no other handle.
`Stock.find_answers` says what the pool answers to a query after any history, and that the codes
of the candidates can be fetched until the next collection.
-/

namespace GeneGraph

namespace MemoryPool

variable {r : Registry} {p : MemoryPool} {q : Query} {f : Frozen} {c : Candidate} {tier : Nat}
  {d d' : Digest} {record : PoolRecord} {known : Option PoolRecord} {log : List (Digest × Nat)}

/-! ## Candidates -/

/-- The code has an output of the wanted type, or one that can feed it, as the query asks. -/
def Exposes (r : Registry) (q : Query) (f : Frozen) : Prop :=
  ∃ e ∈ f.outputs.epts,
    match q.mode with
    | .exact => e = q.output
    | .compatible => r.isCompatible e q.output = true

theorem exposes_iff : exposes r f q = true ↔ Exposes r q f := by
  unfold exposes Exposes
  rw [List.any_eq_true]
  cases q.mode with
  | exact => simp only [decide_eq_true_eq]
  | compatible => rfl

/-- An output of the wanted type can feed it. -/
theorem Exposes.compatible (h : Exposes r q f) : Exposes r { q with mode := .compatible } f := by
  obtain ⟨e, he, hmatch⟩ := h
  refine ⟨e, he, ?_⟩
  cases hmode : q.mode with
  | exact =>
    obtain rfl : e = q.output := by simpa only [hmode] using hmatch
    exact r.isCompatible_self _
  | compatible => simpa only [hmode] using hmatch

theorem candidate?_eq_some_iff : p.candidate? r q d record = some c ↔
    ∃ f, p.arena.get? d = some f ∧ record.tier ≤ q.scope ∧ Exposes r q f ∧
      c = ⟨d, f.kind, record.abundance, record.tier⟩ := by
  unfold candidate?
  rw [Option.ite_none_right_eq_some]
  constructor
  · rintro ⟨htier, hc⟩
    obtain ⟨f, hf, hc⟩ := Option.bind_eq_some_iff.mp hc
    rw [Option.ite_none_right_eq_some] at hc
    exact ⟨f, hf, htier, exposes_iff.mp hc.1, (Option.some.inj hc.2).symm⟩
  · rintro ⟨f, hf, htier, hexposes, rfl⟩
    rw [hf, Option.bind_some, if_pos (exposes_iff.mpr hexposes)]
    exact ⟨htier, rfl⟩

theorem mem_candidates_iff : c ∈ p.candidates r q ↔
    ∃ record f, p.records.get? c.digest = some record ∧ p.arena.get? c.digest = some f ∧
      record.tier ≤ q.scope ∧ Exposes r q f ∧
      c = ⟨c.digest, f.kind, record.abundance, record.tier⟩ := by
  unfold candidates
  rw [List.mem_filterMap]
  constructor
  · rintro ⟨⟨d, record⟩, hrecord, hc⟩
    obtain ⟨f, hf, htier, hexposes, rfl⟩ := candidate?_eq_some_iff.mp hc
    exact ⟨record, f, SortedMap.get?_eq_some_iff.mpr hrecord, hf, htier, hexposes, rfl⟩
  · rintro ⟨record, f, hrecord, hf, htier, hexposes, hc⟩
    exact ⟨(c.digest, record), SortedMap.get?_eq_some_iff.mp hrecord,
      candidate?_eq_some_iff.mpr ⟨f, hf, htier, hexposes, hc⟩⟩

/-- The candidates come in the order of their digests, and there are no two of one digest. -/
theorem ascending_candidates (p : MemoryPool) (r : Registry) (q : Query) :
    (p.candidates r q).Pairwise fun c c' => Before c.digest c'.digest := by
  refine List.Pairwise.filterMap _ (fun e e' hbefore c hc c' hc' => ?_) p.records.ascending
  obtain ⟨f, -, -, -, rfl⟩ := candidate?_eq_some_iff.mp hc
  obtain ⟨f', -, -, -, rfl⟩ := candidate?_eq_some_iff.mp hc'
  exact hbefore

theorem fetch_eq_ok (h : p.arena.get? d = some f) : p.fetch d = .ok f := by
  rw [fetch, h]

/-! ## Records -/

/-- What is known of a digest after some additions, each of a digest in a tier: nothing if it was
never added, else the least of its tiers and how often it was added. -/
def Tallies (log : List (Digest × Nat)) (d : Digest) : Option PoolRecord → Prop
  | none => ∀ tier, (d, tier) ∉ log
  | some record => IsLeast {tier | (d, tier) ∈ log} record.tier ∧
    record.abundance = log.countP fun x => x.1 = d

/-- The record of a digest after one more addition. -/
def raised (known : Option PoolRecord) (tier : Nat) : PoolRecord :=
  let record := known.getD ⟨tier, 0⟩
  ⟨min record.tier tier, record.abundance + 1⟩

theorem Tallies.add_same (h : Tallies log d known) (tier : Nat) :
    Tallies (log ++ [(d, tier)]) d (some (raised known tier)) := by
  have hset : {t | (d, t) ∈ log ++ [(d, tier)]} = insert tier {t | (d, t) ∈ log} := by
    ext t
    simp [or_comm]
  have hcount : (log ++ [(d, tier)]).countP (fun x => x.1 = d) =
      log.countP (fun x => x.1 = d) + 1 := by
    rw [List.countP_append, List.countP_singleton, decide_eq_true rfl, if_pos rfl]
  unfold Tallies
  rw [hset, hcount]
  cases known with
  | none =>
    have hnone : {t | (d, t) ∈ log} = (∅ : Set Nat) := Set.eq_empty_of_forall_notMem h
    have hzero : log.countP (fun x => x.1 = d) = 0 :=
      List.countP_eq_zero.mpr fun x hx hd => h x.2 (of_decide_eq_true hd ▸ hx)
    rw [hnone, hzero]
    simp [raised, IsLeast, lowerBounds]
  | some record =>
    obtain ⟨hleast, hcounted⟩ := h
    refine ⟨?_, congrArg (· + 1) hcounted⟩
    show IsLeast _ (min record.tier tier)
    rw [min_comm]
    exact hleast.insert tier

theorem Tallies.add_other (h : Tallies log d known) (hd : d ≠ d') (tier : Nat) :
    Tallies (log ++ [(d', tier)]) d known := by
  have hmem : ∀ t, (d, t) ∈ log ++ [(d', tier)] ↔ (d, t) ∈ log := by
    intro t
    rw [List.mem_append, List.mem_singleton, Prod.mk.injEq, or_iff_left fun he => hd he.1]
  have hcount : (log ++ [(d', tier)]).countP (fun x => x.1 = d) =
      log.countP fun x => x.1 = d := by
    rw [List.countP_append, List.countP_singleton, decide_eq_false hd.symm]
    rfl
  unfold Tallies at h ⊢
  simp only [hmem, hcount]
  exact h

/-- The records are those of some additions. -/
def Recorded (log : List (Digest × Nat)) (p : MemoryPool) : Prop :=
  ∀ d, Tallies log d (p.records.get? d)

theorem recorded_empty : Recorded [] empty := fun _ _ => List.not_mem_nil

theorem records_add (hkeyed : ∀ d f, p.arena.get? d = some f → f.digest = d) (f : Frozen)
    (tier : Nat) : (p.add f tier).2.records =
      p.records.insert f.digest (raised (p.records.get? f.digest) (max tier 1)) := by
  have hdigest : (p.arena.intern f).1.digest = f.digest := by
    unfold Arena.intern
    split
    · rename_i g hg
      exact hkeyed _ g hg
    · rfl
  rw [← hdigest]
  rfl

theorem Recorded.add (h : p.Recorded log)
    (hkeyed : ∀ d f, p.arena.get? d = some f → f.digest = d) (f : Frozen) (tier : Nat) :
    (p.add f tier).2.Recorded (log ++ [(f.digest, max tier 1)]) := by
  intro d
  rw [records_add hkeyed, SortedMap.get?_insert]
  split
  · rename_i hd
    rw [hd]
    exact (h f.digest).add_same _
  · rename_i hd
    exact (h d).add_other hd _

/-- The candidate is what a query is due for the code `f`, after some additions. -/
structure Due (r : Registry) (p : MemoryPool) (log : List (Digest × Nat)) (q : Query) (f : Frozen)
    (c : Candidate) : Prop where
  kept : p.arena.get? c.digest = some f
  inScope : ∃ tier ≤ q.scope, (c.digest, tier) ∈ log
  exposes : Exposes r q f
  kind : c.kind = f.kind
  abundance : c.abundance = log.countP fun x => x.1 = c.digest
  proximity : IsLeast {tier | (c.digest, tier) ∈ log} c.proximity

theorem Recorded.due (h : p.Recorded log) (hc : c ∈ p.candidates r q) :
    ∃ f, Due r p log q f c := by
  obtain ⟨record, f, hrecord, hf, htier, hexposes, heq⟩ := mem_candidates_iff.mp hc
  have htallied := h c.digest
  rw [hrecord] at htallied
  refine ⟨f, hf, ⟨record.tier, htier, htallied.1.1⟩, hexposes, ?_, ?_, ?_⟩
  · rw [heq]
  · rw [heq]
    exact htallied.2
  · rw [heq]
    exact htallied.1

/-- No code of the arena that a query asks for is left out. -/
theorem Recorded.exists_candidate (h : p.Recorded log) (hf : p.arena.get? d = some f)
    (hadded : ∃ tier ≤ q.scope, (d, tier) ∈ log) (hexposes : Exposes r q f) :
    ∃ c ∈ p.candidates r q, c.digest = d := by
  obtain ⟨tier, htier, hmem⟩ := hadded
  have htallied := h d
  cases hrecord : p.records.get? d with
  | none =>
    rw [hrecord] at htallied
    exact absurd hmem (htallied tier)
  | some record =>
    rw [hrecord] at htallied
    have hscope : record.tier ≤ q.scope := Nat.le_trans (htallied.1.2 hmem) htier
    exact ⟨⟨d, f.kind, record.abundance, record.tier⟩,
      mem_candidates_iff.mpr ⟨record, f, hrecord, hf, hscope, hexposes, rfl⟩, rfl⟩

theorem candidates_subset_compatible :
    p.candidates r q ⊆ p.candidates r { q with mode := .compatible } := by
  intro c hc
  obtain ⟨record, f, hrecord, hf, htier, hexposes, heq⟩ := mem_candidates_iff.mp hc
  exact mem_candidates_iff.mpr ⟨record, f, hrecord, hf, htier, hexposes.compatible, heq⟩

end MemoryPool

/-! ## Codes in the arena -/

theorem Arena.get?_intern {a : Arena} {d : Digest} {g : Frozen} (h : a.get? d = some g)
    (f : Frozen) : (a.intern f).2.get? d = some g := by
  unfold Arena.intern
  split
  · exact h
  · rename_i hnone
    have hne : d ≠ f.digest := by
      rintro rfl
      rw [h] at hnone
      cases hnone
    rw [Arena.get?, SortedMap.get?_insert, if_neg hne]
    exact h

theorem Ledger.arena_intern (l : Ledger) (f : Frozen) :
    (l.intern f).2.workspace.arena = (l.workspace.arena.intern f).2 := by
  unfold Ledger.intern Workspace.intern
  dsimp only
  split <;> rfl

/-- Only a collection takes codes out of the arena. -/
theorem Ledger.get?_perform {l : Ledger} {command : Command} {d : Digest} {f : Frozen}
    (hc : ∀ order, command ≠ .collect order) (h : l.workspace.arena.get? d = some f) :
    (l.perform command).workspace.arena.get? d = some f := by
  cases command with
  | put name recipe =>
    rw [Ledger.perform]
    split <;> exact h
  | drop name => exact h
  | freeze name target =>
    rw [Ledger.perform]
    split <;> exact h
  | intern name target =>
    rw [Ledger.perform]
    split
    · rename_i g _
      show ((l.acquire [g]).intern g).2.workspace.arena.get? d = some f
      rw [arena_intern]
      exact Arena.get?_intern h g
    · exact h
  | collect order => exact absurd rfl (hc order)

/-! ## Programs with a pool -/

/-- A program with a gene pool: the ledger of its handles, with the arena of the pool, and the
records of the pool. -/
structure Stock where
  ledger : Ledger
  records : SortedMap Digest PoolRecord

/-- What a program does that has a gene pool. -/
inductive Deed where
  /-- Something with its handles, or with the arena alone. -/
  | handle (command : Command)
  /-- Adds the frozen code that a name stands for in a tier, and lets a name stand for the object
  that is kept for it. -/
  | add (name target : String) (tier : Nat)

namespace Stock

variable {r : Registry} {s : Stock} {d : Digest} {f : Frozen} {history later : List Deed}

def pool (s : Stock) : MemoryPool := ⟨s.ledger.workspace.arena, s.records⟩

/-- The frozen code that a name stands for. -/
def frozen? (s : Stock) (name : String) : Option Frozen :=
  match s.ledger.workspace.item? name with
  | some (.frozen f) => some f
  | _ => none

def perform (s : Stock) : Deed → Stock
  | .handle command => { s with ledger := s.ledger.perform command }
  | .add name target tier =>
    match s.frozen? name with
    | some f => ⟨s.ledger.perform (.intern name target), (s.pool.add f tier).2.records⟩
    | none => s

/-- The digest that is added, with its tier, which is the first at least. -/
def addition? (s : Stock) : Deed → Option (Digest × Nat)
  | .handle _ => none
  | .add name _ tier => (s.frozen? name).map fun f => (f.digest, max tier 1)

/-- The stock before anything is done. -/
def start (r : Registry) : Stock := ⟨.start r, .empty⟩

/-- The stock after some deeds. -/
def after (r : Registry) (history : List Deed) : Stock := history.foldl perform (start r)

/-- The additions by some deeds, each of a digest in a tier. -/
def additions : Stock → List Deed → List (Digest × Nat)
  | _, [] => []
  | s, deed :: deeds => (s.addition? deed).toList ++ additions (s.perform deed) deeds

/-! ## Additions -/

theorem item?_of_frozen? {name : String} (h : s.frozen? name = some f) :
    s.ledger.workspace.item? name = some (.frozen f) := by
  unfold frozen? at h
  split at h
  · rename_i g hitem
    rw [hitem, Option.some.inj h]
  · cases h

/-- The pool adds the code; the program has a handle to the object that is kept. -/
theorem pool_add {name : String} (h : s.frozen? name = some f) (target : String) (tier : Nat) :
    (s.perform (.add name target tier)).pool = (s.pool.add f tier).2 := by
  have harena : (s.ledger.perform (.intern name target)).workspace.arena =
      (s.ledger.workspace.arena.intern f).2 := by
    rw [Ledger.perform, item?_of_frozen? h]
    exact Ledger.arena_intern (s.ledger.acquire [f]) f
  rw [perform, h]
  unfold pool
  dsimp only
  rw [harena]
  rfl

theorem sound_perform (h : s.ledger.Sound []) (deed : Deed) :
    (s.perform deed).ledger.Sound [] := by
  cases deed with
  | handle command => exact h.perform command
  | add name target tier =>
    rw [perform]
    split
    · exact h.perform (.intern name target)
    · exact h

theorem recorded_perform {log : List (Digest × Nat)} (h : s.ledger.Sound [])
    (hr : s.pool.Recorded log) (deed : Deed) :
    (s.perform deed).pool.Recorded (log ++ (s.addition? deed).toList) := by
  cases deed with
  | handle command =>
    rw [addition?, Option.toList_none, List.append_nil]
    exact hr
  | add name target tier =>
    rw [addition?]
    cases hf : s.frozen? name with
    | some f =>
      rw [pool_add hf]
      exact hr.add h.keyed f tier
    | none =>
      rw [perform, hf, Option.map_none, Option.toList_none, List.append_nil]
      exact hr

theorem recorded_foldl {log : List (Digest × Nat)} (h : s.ledger.Sound [])
    (hr : s.pool.Recorded log) (deeds : List Deed) :
    (deeds.foldl perform s).ledger.Sound [] ∧
      (deeds.foldl perform s).pool.Recorded (log ++ s.additions deeds) := by
  -- The additions depend on what the names stand for, so the stock goes along with them.
  induction deeds generalizing s log with
  | nil => exact ⟨h, (List.append_nil log).symm ▸ hr⟩
  | cons deed deeds ih =>
    rw [additions, ← List.append_assoc]
    exact ih (sound_perform h deed) (recorded_perform h hr deed)

theorem sound_after (r : Registry) (history : List Deed) : (after r history).ledger.Sound [] :=
  (recorded_foldl (s := start r) (Ledger.sound_start r) MemoryPool.recorded_empty history).1

/-- Whatever was done, the records are those of all additions. -/
theorem recorded_after (r : Registry) (history : List Deed) :
    (after r history).pool.Recorded ((start r).additions history) :=
  (recorded_foldl (s := start r) (Ledger.sound_start r) MemoryPool.recorded_empty history).2

/-! ## Codes that stay -/

theorem get?_perform {deed : Deed} (hdeed : ∀ order, deed ≠ .handle (.collect order))
    (h : s.pool.arena.get? d = some f) : (s.perform deed).pool.arena.get? d = some f := by
  cases deed with
  | handle command =>
    exact Ledger.get?_perform (fun order hc => hdeed order (congrArg Deed.handle hc)) h
  | add name target tier =>
    rw [perform]
    split
    · exact Ledger.get?_perform nofun h
    · exact h

/-- Codes stay in the arena until it is collected. -/
theorem get?_foldl (hlater : ∀ order, .handle (.collect order) ∉ later)
    (h : s.pool.arena.get? d = some f) :
    (later.foldl perform s).pool.arena.get? d = some f := by
  induction later generalizing s with
  | nil => exact h
  | cons deed later ih =>
    refine ih (fun order hmem => hlater order (List.mem_cons_of_mem _ hmem)) ?_
    exact get?_perform (fun order hdeed => hlater order (hdeed ▸ List.mem_cons_self)) h

/-! ## Answers -/

open MemoryPool

/-- After any history the pool answers a query with candidates in the order of their digests, one
for each digest that was added in its scope and is in the arena with an output that is asked for.
Each has the kind of the code, the number of additions and the least tier of its digest. Until the
next collection the codes can be fetched, and where an output of the wanted type is asked for, the
candidates are among those with an output that can feed it. -/
theorem find_answers (r : Registry) (history : List Deed) (asked : List Query) (q : Query) :
    let log := (start r).additions history
    let p := (after r history).pool
    ∃ cs, (p.toGenePool r).find asked q = .ok cs ∧
      cs.Pairwise (fun c c' => Before c.digest c'.digest) ∧
      (∀ d f, p.arena.get? d = some f → (∃ tier ≤ q.scope, (d, tier) ∈ log) → Exposes r q f →
        ∃ c ∈ cs, c.digest = d) ∧
      (∀ c ∈ cs, ∃ f, Due r p log q f c ∧
        ∀ later : List Deed, (∀ order, .handle (.collect order) ∉ later) →
          ((after r (history ++ later)).pool.toGenePool r).fetch c.digest = .ok f ∧
            f.digest = c.digest) ∧
      ∃ cs', (p.toGenePool r).find asked { q with mode := .compatible } = .ok cs' ∧ cs ⊆ cs' := by
  intro log p
  have hrecorded : p.Recorded log := recorded_after r history
  refine ⟨p.candidates r q, rfl, ascending_candidates p r q,
    fun d f => hrecorded.exists_candidate, fun c hc => ?_, _, rfl, candidates_subset_compatible⟩
  obtain ⟨f, hdue⟩ := hrecorded.due hc
  refine ⟨f, hdue, fun later hlater => ⟨?_, (sound_after r history).keyed c.digest f hdue.kept⟩⟩
  rw [after, List.foldl_append]
  exact fetch_eq_ok (get?_foldl hlater hdue.kept)

/-- A query in the first two tiers for the type of the sample face. -/
def wanted : Query := ⟨.plain 0 3, .exact, 2, 0⟩

/-- A history: a code is added in the third tier and dropped, and the arena is collected; then the
code is frozen and added again, in the second tier and in the fifth. -/
def returning : List Deed :=
  [.handle (.put "c" (.create ((Graph.ofKind .empty).setRow .O (.ofDst (.single 3))))),
    .handle (.freeze "c" "f"), .add "f" "f" 3, .handle (.drop "f"),
    .handle (.collect Arena.digests), .handle (.freeze "c" "g"), .add "g" "g" 2, .add "g" "g" 5]

/-- The code is found in the second tier, and its first addition is not forgotten. -/
theorem find_answers_returning :
    (after .empty returning).pool.candidates .empty wanted =
        [⟨Frozen.face.digest, .empty, 3, 2⟩] ∧
      ∃ f, ((after .empty (returning ++ [.handle (.drop "g")])).pool.toGenePool .empty).fetch
          Frozen.face.digest = .ok f ∧
        f.digest = Frozen.face.digest ∧ Exposes .empty wanted f := by
  have hcandidates : (after .empty returning).pool.candidates .empty wanted =
      [⟨Frozen.face.digest, .empty, 3, 2⟩] := by decide +kernel
  obtain ⟨cs, hfind, -, -, hfetch, -⟩ := find_answers .empty returning [] wanted
  have hcs : cs = [⟨Frozen.face.digest, .empty, 3, 2⟩] :=
    (Except.ok.inj hfind).symm.trans hcandidates
  obtain ⟨f, hdue, hlater⟩ := hfetch ⟨Frozen.face.digest, .empty, 3, 2⟩
    (hcs ▸ List.mem_singleton_self _)
  obtain ⟨hok, hdigest⟩ := hlater [.handle (.drop "g")] fun order hmem =>
    nomatch List.mem_singleton.mp hmem
  exact ⟨hcandidates, f, hok, hdigest, hdue.exposes⟩

end Stock

end GeneGraph
