import GeneGraph.Stabilizer

/-!
# Reasoning about repairs

A repair is a program that may fail and changes a run. `Repair.Ends m run Q` says that from `run`
it ends in an answer and a run for which `Q` holds, with rules for what is done in sequence.
`Repair.Yields E P m` is the special case in which every answer satisfies `P` and every event that
is added to the log satisfies `E`; each way to build a repair has its rule for it, and so has
each step of a stabilizer that may feed a destination.
-/

namespace GeneGraph

theorem Prng.choose_mem {α : Type} {g : Prng} {items : List α} {x : α}
    (h : (g.choose items).1 = some x) : x ∈ items := by
  obtain ⟨k, -, hk⟩ := Option.bind_eq_some_iff.mp h
  exact List.mem_of_getElem? hk

/-- `run'` has the log of `run` and after it only events that satisfy `E`. -/
def Run.Extends (E : Event → Prop) (run run' : Run) : Prop :=
  ∃ new, run'.log = run.log ++ new ∧ ∀ e ∈ new, E e

namespace Run.Extends

variable {E E' : Event → Prop} {run run' run'' : Run}

theorem of_log_eq (h : run'.log = run.log) : run.Extends E run' :=
  ⟨[], by rw [h, List.append_nil], fun _ he => absurd he List.not_mem_nil⟩

theorem trans (h : run.Extends E run') (h' : run'.Extends E run'') : run.Extends E run'' := by
  obtain ⟨new, hl, hE⟩ := h
  obtain ⟨new', hl', hE'⟩ := h'
  refine ⟨new ++ new', by rw [hl', hl, List.append_assoc], fun e he => ?_⟩
  exact (List.mem_append.mp he).elim (hE e) (hE' e)

/-- What holds of all new events holds of those of each part. -/
theorem split (h : run.Extends E' run') (h' : run'.Extends E' run'') (hE : run.Extends E run'') :
    run.Extends E run' ∧ run'.Extends E run'' := by
  obtain ⟨new, hl, -⟩ := h
  obtain ⟨new', hl', -⟩ := h'
  obtain ⟨all, hall, hE⟩ := hE
  rw [hl', hl, List.append_assoc, List.append_cancel_left_eq] at hall
  subst hall
  exact ⟨⟨new, hl, fun e he => hE e (List.mem_append_left _ he)⟩,
    ⟨new', hl', fun e he => hE e (List.mem_append_right _ he)⟩⟩

end Run.Extends

namespace Repair

variable {α β : Type} {m : Repair α} {k : α → Repair β} {run : Run} {E : Event → Prop}
  {P P' : α → Prop} {R : β → Prop}

/-- From `run`, the repair ends in an answer and a run for which `Q` holds. -/
def Ends (m : Repair α) (run : Run) (Q : Except GraphError α → Run → Prop) : Prop :=
  Q (m.outcome run).1 (m.outcome run).2

section Rules

variable {Q Q' : Except GraphError α → Run → Prop} {T : Except GraphError β → Run → Prop}

theorem Ends.mono (h : m.Ends run Q) (hQ : ∀ ans run', Q ans run' → Q' ans run') :
    m.Ends run Q' := hQ _ _ h

theorem ends_of_outcome {ans : Except GraphError α} {run' : Run} (h : m.outcome run = (ans, run')) :
    m.Ends run Q ↔ Q ans run' := by
  unfold Ends
  rw [h]

theorem ends_bind :
    (m >>= k).Ends run T ↔ m.Ends run fun ans run' =>
      (∀ a, ans = .ok a → (k a).Ends run' T) ∧ ∀ err, ans = .error err → T (.error err) run' := by
  unfold Ends
  rw [Procedure.outcome_bind]
  cases m.outcome run with
  | mk ans run' => cases ans <;> simp

/-! A step that cannot fail hands its answer on. -/

theorem ends_bind_of_ok (h : m.Ends run fun ans run' => ∃ a, ans = .ok a ∧ (k a).Ends run' T) :
    (m >>= k).Ends run T := by
  refine ends_bind.mpr (h.mono ?_)
  rintro ans run' ⟨a, rfl, hk⟩
  refine ⟨fun b hb => ?_, fun err herr => nomatch herr⟩
  cases hb
  exact hk

theorem ends_get_bind {k : Run → Repair β} :
    (get >>= k).Ends run T ↔ (k run).Ends run T := Iff.rfl

theorem ends_modify_bind {f : Run → Run} {k : Unit → Repair β} :
    ((modify f : Repair Unit) >>= k).Ends run T ↔ (k ()).Ends (f run) T := Iff.rfl

theorem ends_draw_bind {f : Prng → α × Prng} :
    (draw f >>= k).Ends run T ↔
      (k (f run.prng).1).Ends { run with prng := (f run.prng).2 } T := Iff.rfl

end Rules

/-! ## Answers and events -/

/-- Every answer satisfies `P`, and every event that is told satisfies `E`. -/
def Yields (E : Event → Prop) (P : α → Prop) (m : Repair α) : Prop :=
  ∀ run, m.Ends run fun ans run' => run.Extends E run' ∧ ∀ a, ans = .ok a → P a

theorem Yields.mono (h : m.Yields E P) (hP : ∀ a, P a → P' a) : m.Yields E P' := fun run =>
  (h run).mono fun _ _ h => ⟨h.1, fun a ha => hP a (h.2 a ha)⟩

theorem yields_pure {a : α} (h : P a) : (pure a : Repair α).Yields E P := fun _ =>
  ⟨.of_log_eq rfl, fun b hb => by cases hb; exact h⟩

theorem yields_throw (err : GraphError) : (throw err : Repair α).Yields E P := fun _ =>
  ⟨.of_log_eq rfl, fun _ h => nomatch h⟩

theorem yields_lift {x : Except GraphError α} (h : ∀ a, x = .ok a → P a) :
    (liftM x : Repair α).Yields E P := fun _ => ⟨.of_log_eq rfl, h⟩

theorem yields_get : (get : Repair Run).Yields E fun _ => True := fun _ =>
  ⟨.of_log_eq rfl, fun _ _ => trivial⟩

theorem yields_modify {f : Run → Run} (h : ∀ run, (f run).log = run.log) :
    (modify f : Repair Unit).Yields E fun _ => True := fun run =>
  ⟨.of_log_eq (h run), fun _ _ => trivial⟩

theorem yields_draw (f : Prng → α × Prng) : (draw f).Yields E fun _ => True := fun _ =>
  ⟨.of_log_eq rfl, fun _ _ => trivial⟩

theorem yields_choose (items : List α) :
    (draw (·.choose items)).Yields E fun o => ∀ a, o = some a → a ∈ items := fun _ =>
  ⟨.of_log_eq rfl, fun _ h a ha => by cases h; exact Prng.choose_mem ha⟩

theorem yields_tell {e : Event} (h : E e) : (tell e).Yields E fun _ => True := fun _ =>
  ⟨⟨[e], rfl, fun e' he => by rwa [List.mem_singleton.mp he]⟩, fun _ _ => trivial⟩

theorem Yields.bind (h : m.Yields E P) (hk : ∀ a, P a → (k a).Yields E R) :
    (m >>= k).Yields E R := fun run => by
  refine ends_bind.mpr ((h run).mono fun ans run' ⟨hlog, hP⟩ => ⟨fun a ha => ?_, fun err _ => ?_⟩)
  · exact (hk a (hP a ha) run').mono fun _ _ h => ⟨hlog.trans h.1, h.2⟩
  · exact ⟨hlog, fun _ h => nomatch h⟩

/-- Giving up answers nothing. -/
theorem yields_exhausted (c : Code) : (exhausted c : Repair α).Yields E P :=
  yields_get.bind fun _ _ => yields_throw _

/-! ## Answers that depend on the events -/

/-- If only events that satisfy `E` are told, every answer satisfies `P`. -/
def Within (E : Event → Prop) (P : α → Prop) (m : Repair α) : Prop :=
  ∀ run, m.Ends run fun ans run' => run.Extends (fun _ => True) run' ∧
    (run.Extends E run' → ∀ a, ans = .ok a → P a)

theorem Yields.within (h : m.Yields (fun _ => True) P) : m.Within E P := fun run =>
  (h run).mono fun _ _ h => ⟨h.1, fun _ => h.2⟩

theorem Yields.bind_within (h : m.Yields (fun _ => True) P) (hk : ∀ a, P a → (k a).Within E R) :
    (m >>= k).Within E R := fun run => by
  refine ends_bind.mpr ((h run).mono fun ans run' ⟨hlog, hP⟩ => ?_)
  refine ⟨fun a ha => (hk a (hP a ha) run').mono fun ans' run'' ⟨hlog', hR⟩ => ?_, fun err _ => ?_⟩
  · exact ⟨hlog.trans hlog', fun hE => hR (hlog.split hlog' hE).2⟩
  · exact ⟨hlog, fun _ _ h => nomatch h⟩

/-- Nothing is claimed of what follows an event that does not satisfy `E`. -/
theorem within_tell {e : Event} {k : Unit → Repair β} (he : ¬ E e)
    (hk : (k ()).Yields (fun _ => True) fun _ => True) : (tell e >>= k).Within E R := fun run => by
  have htold : run.Extends (fun _ => True) { run with log := run.log ++ [e] } :=
    ⟨[e], rfl, fun _ _ => trivial⟩
  refine ends_modify_bind.mpr ((hk _).mono fun ans run' ⟨hlog, _⟩ => ?_)
  refine ⟨htold.trans hlog, fun hE => absurd ?_ he⟩
  obtain ⟨new, hnew, hE⟩ := (htold.split hlog hE).1
  rw [List.append_cancel_left_eq] at hnew
  exact hE e (hnew ▸ List.mem_singleton_self e)

end Repair

/-! ## Steps of a stabilizer -/

/-- The pool has an answer with candidates to some query. -/
def GenePool.Supplies (p : GenePool) : Prop := ∃ asked q cs, p.find asked q = .ok cs ∧ cs ≠ []

namespace Stabilizer

open Repair

variable {s : Stabilizer} {wrapped : Bool} {c : Code} {dst : EndPoint} {e : Ept}
  {E : Event → Prop} {P : Code → Prop}

theorem newInput_of_mem_sourceKinds {unused reusable : List EndPoint} {newInput : Bool}
    (h : .newInput ∈ sourceKinds unused reusable newInput) : newInput = true := by
  cases newInput with
  | true => rfl
  | false =>
    rw [sourceKinds, if_neg Bool.false_ne_true, List.append_nil, List.mem_append] at h
    rcases h with h | h <;> split at h <;> simp at h

/-- Feeding a destination from some source answers what feeding it from one of them does. -/
theorem yields_feedDrawn {kind : SourceKind} {sources : List EndPoint}
    (h : ∀ src ∈ sources, (feedFrom kind c dst src).Yields E P) :
    (feedDrawn kind c dst sources).Yields E fun o => ∀ c', o = some c' → P c' := by
  unfold feedDrawn
  refine (yields_choose sources).bind fun o ho => ?_
  cases o with
  | none => exact yields_pure nofun
  | some src =>
    exact (h src (ho src rfl)).bind fun _ hc => yields_pure fun _ he => by cases he; exact hc

/-- A repair from inside takes a viable source, which feeds nothing or feeds fewer destinations
than the limit allows, or a new input. -/
theorem yields_repairInside
    (hunused : ∀ src ∈ s.viable c.graph dst e, c.graph.fanOut src = 0 →
      (feedFrom .unused c dst src).Yields E P)
    (hinput : wrapped = false → admitsNewInput c dst e = true → (feedNewInput c dst e).Yields E P)
    (hreused : ∀ src ∈ s.viable c.graph dst e, c.graph.fanOut src < s.tuning.maxFanOut.toNat →
      (feedFrom .reused c dst src).Yields E P) :
    (s.repairInside c dst e wrapped).Yields E fun o => ∀ c', o = some c' → P c' := by
  refine (yields_choose _).bind fun o ho => ?_
  cases o with
  | none => exact yields_pure nofun
  | some kind =>
    cases kind with
    | unused =>
      refine yields_feedDrawn fun src hsrc => ?_
      obtain ⟨hv, hzero⟩ := List.mem_filter.mp hsrc
      exact hunused src hv (of_decide_eq_true hzero)
    | newInput =>
      obtain ⟨hw, hadm⟩ := Bool.and_eq_true_iff.mp (newInput_of_mem_sourceKinds (ho _ rfl))
      exact (hinput (by simpa using hw) hadm).bind fun _ hc =>
        yields_pure fun _ he => by cases he; exact hc
    | reused =>
      refine yields_feedDrawn fun src hsrc => ?_
      obtain ⟨hv, hfew⟩ := List.mem_filter.mp hsrc
      exact hreused src hv (of_decide_eq_true (Bool.and_eq_true_iff.mp hfew).2)

theorem yields_drawQuery : (s.drawQuery e).Yields E fun _ => True :=
  (yields_draw _).bind fun _ _ => (yields_draw _).bind fun _ _ => yields_pure trivial

theorem yields_ask (q : Query) : (s.ask q).Yields E fun cs => cs ≠ [] → s.pool.Supplies := by
  refine yields_get.bind fun run _ => (yields_modify ?_).bind fun _ _ => ?_
  · exact fun _ => rfl
  split
  · rename_i cs heq
    exact yields_pure fun hne => ⟨_, q, cs, heq, hne⟩
  · exact yields_pure fun hne => absurd rfl hne
  · exact yields_throw _

theorem ranked_nil : s.ranked [] = [] := by simp [ranked]

end Stabilizer

end GeneGraph
