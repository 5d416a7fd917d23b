import GeneGraph.Proofs.Delivery
import GeneGraph.Samples
import Mathlib.Logic.Relation

/-!
# Wildcards that are followed without a limit

The type of an output of a sub-code may depend on the sources that feed the sub-code, and these may
be outputs of sub-codes again. `Graph.Resolves` is this recursion with its calls and answers; it
goes on at the depths that are allowed, or at all. With the limit `resolveDepth` it ends on every
graph, with what `Graph.deliveredWithin` gives. Without a limit a source that asks for itself has
no answer (`Graph.not_resolves_of_cycle`).

In a legal graph a source only asks for sources of rows of a lower rank. So the recursion ends
without a limit, and no call is as deep as the limit (`Graph.resolveDepth_unseen`).
-/

namespace GeneGraph.Graph

variable {g : Graph} {goesOn : Nat → Prop} {root p q : EndPoint} {e : Ept} {d n : Nat}
  {answer answer' : Option Ept}

/-- The source is an output of a sub-code, with a type `e` that depends on the inputs. -/
structure Generic (g : Graph) (p : EndPoint) (e : Ept) : Prop where
  ept : g.ept? .src p = some e
  wild : e.hasWildcard = true
  sub : p.row.isSub = true

/-- To know what `p` delivers, the types of the inputs of its sub-code are needed, and so what `q`
delivers to one of them. -/
def Asks (g : Graph) (p q : EndPoint) : Prop :=
  (∃ e, g.Generic p e) ∧ ∃ k < g.count p.row .dst, g.sourceOf? ⟨p.row, k⟩ = some q

/-- The recursion, called for a source at a depth, ends with an answer. It goes on where `goesOn`
says so; otherwise the declared type is the answer. -/
inductive Resolves (g : Graph) (goesOn : Nat → Prop) : Nat → EndPoint → Option Ept → Prop
  | missing {d : Nat} {p : EndPoint} (h : g.ept? .src p = none) : Resolves g goesOn d p none
  | declared {d : Nat} {p : EndPoint} {e : Ept} (h : g.ept? .src p = some e)
    (hstop : g.Generic p e → ¬ goesOn d) : Resolves g goesOn d p (some e)
  | followed {d : Nat} {p : EndPoint} {e : Ept} (h : g.Generic p e) (hgo : goesOn d)
    (answers : EndPoint → Option Ept)
    (hanswers : ∀ q, g.Asks p q → Resolves g goesOn (d + 1) q (answers q)) :
    Resolves g goesOn d p (some (e.resolved (g.inputTypes answers p.row)))

/-- The recursion stops at the limit. -/
def capped (d : Nat) : Prop := d < resolveDepth

/-- The recursion does not stop at any depth. -/
def uncapped (_ : Nat) : Prop := True

/-- The calls of a recursion without a limit that starts at `root`, with their depths. -/
inductive Calls (g : Graph) (root : EndPoint) : Nat → EndPoint → Prop
  | root : Calls g root 0 root
  | ask {d : Nat} {p q : EndPoint} (h : Calls g root d p) (ha : g.Asks p q) : Calls g root (d + 1) q

/-! ## Answers -/

/-- The types of the inputs only depend on the answers that are asked for. -/
theorem Generic.inputTypes_congr (h : g.Generic p e) {deliver deliver' : EndPoint → Option Ept}
    (hd : ∀ q, g.Asks p q → deliver q = deliver' q) :
    g.inputTypes deliver p.row = g.inputTypes deliver' p.row := by
  refine List.map_congr_left fun x hx => ?_
  have hk : x.2 < g.count p.row .dst := (List.mem_zipIdx' hx).1
  rw [Option.bind_congr fun q hq => hd q ⟨⟨e, h⟩, x.2, hk, hq⟩]

theorem Resolves.unique (h : g.Resolves goesOn d p answer) (h' : g.Resolves goesOn d p answer') :
    answer' = answer := by
  induction h generalizing answer' with
  | missing he =>
    cases h' with
    | missing _ => rfl
    | declared he' _ => exact nomatch he.symm.trans he'
    | followed hw' _ _ _ => exact nomatch he.symm.trans hw'.ept
  | declared he hstop =>
    cases h' with
    | missing he' => exact nomatch he.symm.trans he'
    | declared he' _ => exact he'.symm.trans he
    | followed hw' hgo' _ _ =>
      obtain rfl := Option.some.inj (he.symm.trans hw'.ept)
      exact absurd hgo' (hstop hw')
  | followed hw hgo answers _ ih =>
    cases h' with
    | missing he' => exact nomatch he'.symm.trans hw.ept
    | declared he' hstop' =>
      obtain rfl := Option.some.inj (he'.symm.trans hw.ept)
      exact absurd hgo (hstop' hw)
    | followed hw' _ answers' hanswers' =>
      obtain rfl := Option.some.inj (hw.ept.symm.trans hw'.ept)
      rw [hw.inputTypes_congr fun q hq => ih q hq (hanswers' q hq)]

/-- Where the recursion stops, the declared type is the answer. -/
theorem resolves_ept? (h : ∀ e, g.Generic p e → ¬ goesOn d) :
    g.Resolves goesOn d p (g.ept? .src p) := by
  cases he : g.ept? .src p with
  | none => exact .missing he
  | some e => exact .declared he (h e)

/-- One call: if all that is asked for delivers so much, the answer is what is delivered then. -/
theorem resolves_deliveredWithin_succ (hgo : goesOn d)
    (h : ∀ q, g.Asks p q → g.Resolves goesOn (d + 1) q (g.deliveredWithin n q)) :
    g.Resolves goesOn d p (g.deliveredWithin (n + 1) p) := by
  rw [deliveredWithin_succ]
  cases he : g.ept? .src p with
  | none => exact .missing he
  | some e =>
    rw [Option.map_some]
    by_cases hw : (e.hasWildcard && p.row.isSub) = true
    · rw [if_pos hw]
      obtain ⟨hwild, hsub⟩ := Bool.and_eq_true_iff.mp hw
      exact .followed ⟨he, hwild, hsub⟩ hgo _ h
    · rw [if_neg hw]
      exact .declared he fun h' => absurd (Bool.and_eq_true_iff.mpr ⟨h'.wild, h'.sub⟩) hw

/-- With the limit the recursion ends on every graph. -/
theorem resolves_capped (g : Graph) (d : Nat) (p : EndPoint) :
    g.Resolves capped d p (g.deliveredWithin (resolveDepth - d) p) := by
  -- Every call is one deeper, so what is left until the limit decreases, whatever the graph is.
  induction hn : resolveDepth - d generalizing d p with
  | zero => exact resolves_ept? fun _ _ => Nat.not_lt.mpr (Nat.le_of_sub_eq_zero hn)
  | succ n ih =>
    have hd : d < resolveDepth := Nat.lt_of_sub_eq_succ hn
    exact resolves_deliveredWithin_succ hd fun q _ => ih (d + 1) q (by omega)

theorem resolves_capped_iff :
    g.Resolves capped d p answer ↔ answer = g.deliveredWithin (resolveDepth - d) p := by
  constructor
  · exact (resolves_capped g d p).unique
  · rintro rfl
    exact resolves_capped g d p

/-! ## Cycles -/

/-- If the recursion ends without a limit, so does everything that it asks for. -/
theorem Resolves.acc (h : g.Resolves uncapped d p answer) : Acc (flip g.Asks) p := by
  induction h with
  | missing he => exact ⟨_, fun q ⟨⟨e, hw⟩, _⟩ => nomatch he.symm.trans hw.ept⟩
  | declared he hstop =>
    refine ⟨_, fun q ⟨⟨e, hw⟩, _⟩ => ?_⟩
    obtain rfl := Option.some.inj (he.symm.trans hw.ept)
    exact absurd trivial (hstop hw)
  | followed _ _ _ _ ih => exact ⟨_, ih⟩

/-- Without a limit, a source that asks for itself, if only through others, has no answer. -/
theorem not_resolves_of_cycle (h : Relation.TransGen (flip g.Asks) p p) :
    ¬ g.Resolves uncapped d p answer := by
  intro hr
  have hacc : Acc (Relation.TransGen (flip g.Asks)) p := hr.acc.transGen
  induction hacc with
  | intro p _ ih => exact ih p h h hr

/-! ## Legal graphs -/

/-- What is asked for is of a lower rank. -/
theorem Legal.rank_lt_of_asks (hl : g.Legal) (h : g.Asks p q) : rank q.row < rank p.row := by
  obtain ⟨⟨e, hw⟩, k, -, hq⟩ := h
  exact rank_lt_of_isLegal (hl ⟨p.row, k⟩ q hq) hw.sub

/-- Without a limit the recursion ends, and the rank tells how deep it goes. -/
theorem Legal.resolves_uncapped (hl : g.Legal) (hn : rank p.row ≤ n) :
    g.Resolves uncapped d p (g.deliveredWithin n p) := by
  induction n generalizing d p with
  | zero =>
    exact resolves_ept? fun e hw => absurd hn (Nat.not_le.mpr (rank_pos hw.sub))
  | succ n ih =>
    refine resolves_deliveredWithin_succ trivial fun q hq => ih ?_
    have hlt := hl.rank_lt_of_asks hq
    omega

theorem Legal.resolves_uncapped_iff (hl : g.Legal) (hn : rank p.row ≤ n) :
    g.Resolves uncapped d p answer ↔ answer = g.deliveredWithin n p := by
  constructor
  · exact (hl.resolves_uncapped hn).unique
  · rintro rfl
    exact hl.resolves_uncapped hn

/-- The depth of a call makes up for the rank that is lost. -/
theorem Legal.calls_le (hl : g.Legal) (h : g.Calls root d p) : d + rank p.row ≤ rank root.row := by
  induction h with
  | root => exact Nat.le_of_eq (Nat.zero_add _)
  | ask _ ha ih =>
    have hlt := hl.rank_lt_of_asks ha
    omega

/-- With the limit the recursion ends at every depth on every graph, and from the start it answers
what the source delivers. On a legal graph it ends with that answer without the limit as well; no
call is as deep as the limit, and each has the same answer with and without it. -/
theorem resolveDepth_unseen :
    (∀ g : Graph, (∀ d p, ∃! answer, g.Resolves capped d p answer) ∧
      ∀ p answer, g.Resolves capped 0 p answer ↔ answer = g.delivered p) ∧
    ∀ g : Graph, g.Legal → ∀ root : EndPoint,
      (∀ answer, g.Resolves uncapped 0 root answer ↔ answer = g.delivered root) ∧
      ∀ d p, g.Calls root d p → d < resolveDepth ∧
        (∃! answer, g.Resolves uncapped d p answer) ∧
        ∀ answer, g.Resolves uncapped d p answer ↔ g.Resolves capped d p answer := by
  constructor
  · exact fun g => ⟨fun d p => ⟨_, resolves_capped g d p, fun _ => (resolves_capped g d p).unique⟩,
      fun p answer => resolves_capped_iff⟩
  · intro g hl root
    refine ⟨fun answer => ?_, fun d p hcall => ?_⟩
    · exact hl.resolves_uncapped_iff (Nat.le_trans (rank_le_two _) (by decide))
    · have hcalls := hl.calls_le hcall
      have htwo := rank_le_two root.row
      have hd : d < resolveDepth := Nat.lt_of_le_of_lt (m := 2) (by omega) (by decide)
      have hrank : rank p.row ≤ resolveDepth - d := by
        unfold resolveDepth
        omega
      exact ⟨hd, ⟨_, hl.resolves_uncapped hrank, fun _ => (hl.resolves_uncapped hrank).unique⟩,
        fun answer => (hl.resolves_uncapped_iff hrank).trans resolves_capped_iff.symm⟩

/-- The type of the first input. -/
def echoed : Ept := .node ⟨0, .wildcard ⟨0, 0⟩⟩ Fin.elim0

def echo : Interface := ⟨[echoed], Nat.le_of_ble_eq_true rfl⟩

/-- Two sub-codes, one after the other, that hand on what they get. -/
def relay : Graph where
  kind := .standard
  rows := .ofList [(.I, .ofSrc (.single 3)), (.A, ⟨.single 2, echo⟩), (.B, ⟨.single 2, echo⟩),
    (.O, .ofDst (.single 3))]
  wires := .ofList [(⟨.A, 0⟩, ⟨.I, 0⟩), (⟨.B, 0⟩, ⟨.A, 0⟩), (⟨.O, 0⟩, ⟨.B, 0⟩)]

theorem legal_relay : relay.Legal := by
  have hall : ∀ w ∈ relay.wires.toList, relay.kind.isLegal w.2.row w.1.row = true := by
    decide +kernel
  exact fun dst src h => hall (dst, src) (SortedMap.get?_eq_some_iff.mp h)

/-- The call for the input is two calls deep, and the second sub-code delivers what it finds. -/
theorem resolveDepth_unseen_relay :
    relay.Legal ∧ relay.Calls ⟨.B, 0⟩ 2 ⟨.I, 0⟩ ∧
      (∀ answer, relay.Resolves uncapped 0 ⟨.B, 0⟩ answer ↔ answer = some (.plain 0 3)) ∧
      ∀ answer,
        relay.Resolves uncapped 2 ⟨.I, 0⟩ answer ↔ relay.Resolves capped 2 ⟨.I, 0⟩ answer := by
  have hasks : relay.Asks ⟨.B, 0⟩ ⟨.A, 0⟩ :=
    ⟨⟨_, rfl, rfl, rfl⟩, 0, by decide +kernel, by decide +kernel⟩
  have hasks' : relay.Asks ⟨.A, 0⟩ ⟨.I, 0⟩ :=
    ⟨⟨_, rfl, rfl, rfl⟩, 0, by decide +kernel, by decide +kernel⟩
  have hcalls : relay.Calls ⟨.B, 0⟩ 2 ⟨.I, 0⟩ := .ask (.ask .root hasks) hasks'
  have hd : relay.delivered ⟨.B, 0⟩ = some (.plain 0 3) := by decide +kernel
  obtain ⟨hroot, hcall⟩ := resolveDepth_unseen.2 relay legal_relay ⟨.B, 0⟩
  exact ⟨legal_relay, hcalls, hd ▸ hroot, (hcall 2 _ hcalls).2.2⟩

end GeneGraph.Graph
