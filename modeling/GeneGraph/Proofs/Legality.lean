import GeneGraph.Proofs.Alignment
import GeneGraph.Proofs.Freezing

/-!
# The rules of legal codes

`Rule` lists the rules for a code in the order in which they are checked. `Code.Keeps` says what
each of them asks of a code, and `Code.Breaks` what a violation says about the code it was found
in.

The checks decide the rules: `Code.violation?_decides` says that they find nothing exactly if a
code keeps every rule, and that a violation is one of the first rule that the code does not keep.
The order matters for one rule: the check of the sub-codes lets a primitive code have a row B
without sub-code, but the check of the presence of rows has ruled it out before.
-/

namespace GeneGraph

/-- The rules for a code, in the order in which they are checked. -/
inductive Rule where
  /-- Rows have end points only on the sides that they have. -/
  | sides
  /-- The kind of the code says which rows are present. -/
  | presence
  /-- Rows A and B have the interfaces of their sub-codes. -/
  | subs
  /-- Connections join end points that exist, in rows and of types that fit. -/
  | wires
  /-- In a row, a fixed instance stands for one type. -/
  | instances
  /-- Every destination has a source, unless the kind is exempt. -/
  | complete
  deriving DecidableEq, Repr

namespace Rule

def all : List Rule := [sides, presence, subs, wires, instances, complete]

/-- The place of a rule in the order. -/
def number : Rule → Nat
  | sides => 1
  | presence => 2
  | subs => 3
  | wires => 4
  | instances => 5
  | complete => 6

theorem mem_all (rule : Rule) : rule ∈ all := by cases rule <;> decide

/-- The rules before one of the list are those with smaller numbers. -/
theorem mem_of_number_lt {rule rule' : Rule} {l₁ l₂ : List Rule} (h : all = l₁ ++ rule :: l₂)
    (hlt : rule'.number < rule.number) : rule' ∈ l₁ := by
  have hp : all.Pairwise fun a b => a.number < b.number := by decide
  have hm := mem_all rule'
  rw [h] at hp hm
  obtain ⟨-, hp, -⟩ := List.pairwise_append.mp hp
  rcases List.mem_append.mp hm with hm | hm
  · exact hm
  · rcases List.mem_cons.mp hm with rfl | hm
    · exact absurd hlt (Nat.lt_irrefl _)
    · exact absurd hlt (Nat.lt_asymm (List.rel_of_pairwise_cons hp hm))

end Rule

/-- The rule that is broken. -/
def Violation.rule : Violation → Rule
  | .rowSide .. => .sides
  | .rowPresence .. | .asymmetric .. => .presence
  | .missingSub .. | .subMismatch .. => .subs
  | .dangling .. | .illegalPair .. | .incompatible .. => .wires
  | .instanceConflict .. => .instances
  | .incomplete .. => .complete

namespace Graph

/-- What a presence rule asks of a row. -/
def Obeys (g : Graph) (row : Row) : Presence → Prop
  | .required => g.hasRow row = true
  | .forbidden => g.hasRow row = false
  | .optional => True
  | .atLeastOneOf rows => ∃ row ∈ rows, g.hasRow row = true
  | .symmetric partner required =>
    g.hasRow row = g.hasRow partner ∧ g.interface row .dst = g.interface partner .dst ∧
      (required = true → g.hasRow row = true)

/-- A connection into the row puts the type `x` at an occurrence of fixed instance `i`. -/
def Binds (g : Graph) (row : Row) (i : Fin 8) (x : Ept) : Prop :=
  ∃ k d e, g.ept? .dst ⟨row, k⟩ = some d ∧ g.fed ⟨row, k⟩ = some e ∧
    Ept.Aligned TypeUid.instance? i x e d

end Graph

namespace Code

/-- What a rule asks of a code. -/
def Keeps (reg : Registry) (c : Code) : Rule → Prop
  | .sides => ∀ row a, row.hasSide a = false → (c.graph.interface row a).isEmpty = true
  | .presence => ∀ row, c.graph.Obeys row (c.kind.presence row)
  | .subs => ∀ row, row.isSub = true → c.graph.row? row = (c.sub? row).map Frozen.rowSides ∨
    (c.kind = .primitive ∧ row = .A ∧ c.sub? row = none)
  | .wires => ∀ dst src, c.graph.sourceOf? dst = some src → c.graph.Joins reg dst src
  | .instances => ∀ row i x y, c.graph.Binds row i x → c.graph.Binds row i y → x = y
  | .complete => c.kind.isWiringExempt = false → c.graph.Complete

/-- What a violation says about a code. -/
def Breaks (reg : Registry) (c : Code) : Violation → Prop
  | .rowSide row a => row.hasSide a = false ∧ (c.graph.interface row a).isEmpty = false
  | .rowPresence row rule => c.kind.presence row = rule ∧ ¬ c.graph.Obeys row rule
  | .asymmetric row partner => (∃ required, c.kind.presence row = .symmetric partner required) ∧
    (c.graph.hasRow row ≠ c.graph.hasRow partner ∨
      c.graph.interface row .dst ≠ c.graph.interface partner .dst)
  | .missingSub row => row.isSub = true ∧ c.graph.hasRow row = true ∧ c.sub? row = none ∧
    c.kind ≠ .primitive
  | .subMismatch row => ∃ f, c.sub? row = some f ∧ c.graph.row? row ≠ some f.rowSides
  | .dangling dst src => c.graph.sourceOf? dst = some src ∧
    ¬ (c.graph.exists? .dst dst = true ∧ c.graph.exists? .src src = true)
  | .illegalPair dst src => c.graph.sourceOf? dst = some src ∧
    c.kind.isLegal src.row dst.row = false
  | .incompatible dst src => c.graph.sourceOf? dst = some src ∧
    ∃ d e, c.graph.ept? .dst dst = some d ∧ c.graph.delivered src = some e ∧
      reg.isCompatible e d = false
  | .instanceConflict row i => ∃ x y, c.graph.Binds row i x ∧ c.graph.Binds row i y ∧ x ≠ y
  | .incomplete dst feeder => c.kind.isWiringExempt = false ∧
    c.graph.exists? .dst dst = true ∧ c.graph.sourceOf? dst = none ∧
      feeder = c.kind.requiredSource dst.row

end Code

/-! ## Conflicts -/

/-- The instance at which recording stops stands for two types. -/
theorem Choices.exists_ne_of_record {known cs : Choices} {i : Fin 8}
    (h : (known.record cs).1 = some i) :
    ∃ x y, (i, x) ∈ known ++ cs ∧ (i, y) ∈ known ++ cs ∧ x ≠ y := by
  induction cs generalizing known with
  | nil => cases h
  | cons c rest ih =>
    obtain ⟨j, e⟩ := c
    rw [record] at h
    split at h
    · rw [← List.singleton_append, ← List.append_assoc]
      exact ih h
    · rename_i e' hl
      split at h
      · rename_i he
        subst he
        obtain ⟨x, y, hx, hy, hne⟩ := ih h
        exact ⟨x, y, (mem_append_cons_of_lookup hl _).mpr hx,
          (mem_append_cons_of_lookup hl _).mpr hy, hne⟩
      · rename_i hne
        cases h
        exact ⟨e', e, List.mem_append_left _ (mem_of_lookup hl),
          List.mem_append_right _ List.mem_cons_self, hne⟩

namespace Graph

variable {r : Registry} {g : Graph} {row : Row} {dst src : EndPoint} {v : Violation} {i : Fin 8}
  {x : Ept}

theorem binds_iff : g.Binds row i x ↔ (i, x) ∈ g.rowChoices row := by
  simp only [Binds, mem_rowChoices, Ept.mem_choices_iff]

/-- The instance that is complained of stands for two types. -/
theorem exists_ne_of_instanceConflict? {known : Choices} {l : List (Ept × Nat)}
    (h : g.instanceConflict? row known l = some i) :
    ∃ x y, (i, x) ∈ known ++ l.flatMap (fun z => g.choicesAt ⟨row, z.2⟩ z.1) ∧
      (i, y) ∈ known ++ l.flatMap (fun z => g.choicesAt ⟨row, z.2⟩ z.1) ∧ x ≠ y := by
  induction l generalizing known with
  | nil => cases h
  | cons z l ih =>
    obtain ⟨d, k⟩ := z
    rw [List.flatMap_cons, ← List.append_assoc]
    rw [instanceConflict?] at h
    split at h
    · rename_i j known' hj
      cases h
      obtain ⟨x, y, hx, hy, hne⟩ := Choices.exists_ne_of_record (congrArg Prod.fst hj)
      exact ⟨x, y, List.mem_append_left _ hx, List.mem_append_left _ hy, hne⟩
    · rename_i known' hk
      have hmem (c : Fin 8 × Ept) : c ∈ known' ↔ c ∈ known ++ g.choicesAt ⟨row, k⟩ d := by
        have := Choices.mem_record (congrArg Prod.fst hk) c
        rwa [hk] at this
      obtain ⟨x, y, hx, hy, hne⟩ := ih h
      rw [List.mem_append, hmem, ← List.mem_append] at hx hy
      exact ⟨x, y, hx, hy, hne⟩

/-! ## Rows -/

theorem obeys_iff : g.Obeys row (g.kind.presence row) ↔ g.rowViolation? row = none := by
  rw [rowViolation?]
  cases g.kind.presence row with
  | required => simp [Obeys]
  | forbidden => simp [Obeys]
  | optional => simp [Obeys]
  | atLeastOneOf rows => simp [Obeys]
  | symmetric partner required =>
    by_cases hsym : g.hasRow row ≠ g.hasRow partner ∨
        g.interface row .dst ≠ g.interface partner .dst
    · simp only [Obeys, if_pos hsym, reduceCtorEq, iff_false]
      rintro ⟨hrow, hint, -⟩
      exact hsym.elim (· hrow) (· hint)
    · simp only [Obeys, if_neg hsym]
      simp only [ne_eq, not_or, not_not] at hsym
      cases required <;> simp [hsym]

end Graph

namespace Code

variable {reg : Registry} {c : Code} {row : Row} {rule : Rule} {v : Violation}

/-! ## One rule at a time -/

/-- The first violation of a rule. -/
def check (reg : Registry) (c : Code) : Rule → Option Violation
  | .sides => c.graph.sideViolation?
  | .presence => c.graph.presenceViolation?
  | .subs => c.subsViolation?
  | .wires => c.graph.wiresViolation? reg
  | .instances => c.graph.instancesViolation?
  | .complete => c.graph.completenessViolation?

theorem violation?_eq_findSome? (reg : Registry) (c : Code) :
    c.violation? reg = Rule.all.findSome? (c.check reg) := by
  have hcons (rule : Rule) (rules : List Rule) :
      (rule :: rules).findSome? (c.check reg) =
        (c.check reg rule).or (rules.findSome? (c.check reg)) := by
    rw [← List.singleton_append, List.findSome?_append, List.findSome?_singleton]
  rw [violation?_eq, Graph.rowsViolation?, Option.orElse_eq_orElse, Option.orElse_eq_or,
    Option.or_assoc]
  simp only [Rule.all, hcons, List.findSome?_nil, Option.or_none, check]

/-- The check of the sub-codes lets pass a row B that a primitive code cannot have. -/
theorem keeps_subs (hp : c.Keeps reg .presence) (hs : c.subsViolation? = none) :
    c.Keeps reg .subs := by
  intro row hrow
  rcases subsViolation?_eq_none_iff.mp hs row hrow with hfit | ⟨hk, hn⟩
  · exact Or.inl hfit
  · cases row with
    | A => exact Or.inr ⟨hk, rfl, hn⟩
    | B =>
      have hb := hp .B
      rw [hk] at hb
      rw [hn]
      exact Or.inl (Option.not_isSome_iff_eq_none.mp (Bool.eq_false_iff.mp hb))
    | _ => cases hrow

/-- A rule is kept if its check and those before it find nothing. -/
theorem keeps_of_check (h : ∀ rule', rule'.number ≤ rule.number → c.check reg rule' = none) :
    c.Keeps reg rule := by
  have hpresence (hn : c.graph.presenceViolation? = none) : c.Keeps reg .presence := fun row =>
    Graph.obeys_iff.mpr (Graph.presenceViolation?_eq_none_iff.mp hn row)
  have hn := h rule (Nat.le_refl _)
  cases rule with
  | sides => exact Graph.sideViolation?_eq_none_iff.mp hn
  | presence => exact hpresence hn
  | subs => exact keeps_subs (hpresence (h .presence (by decide))) hn
  | wires => exact Graph.wiresViolation?_eq_none_iff.mp hn
  | instances =>
    intro row i x y hx hy
    rw [Graph.binds_iff] at hx hy
    exact Graph.instancesViolation?_eq_none_iff.mp hn row i x y hx hy
  | complete =>
    intro hx
    rcases Graph.completenessViolation?_eq_none_iff.mp hn with he | hc
    · exact absurd (he.symm.trans hx) (by decide)
    · exact hc

theorem breaks_of_rowViolation? (h : c.graph.rowViolation? row = some v) :
    v.rule = .presence ∧ c.Breaks reg v := by
  have hobeys : ¬ c.graph.Obeys row (c.kind.presence row) := by
    intro ho
    rw [Graph.obeys_iff.mp ho] at h
    cases h
  have hjudge {ok : Bool}
      (h : (if ok then none else some (Violation.rowPresence row (c.kind.presence row))) = some v) :
      v.rule = .presence ∧ c.Breaks reg v := by
    split at h
    · cases h
    · cases h
      exact ⟨rfl, rfl, hobeys⟩
  rw [Graph.rowViolation?] at h
  split at h
  · exact hjudge h
  · exact hjudge h
  · cases h
  · exact hjudge h
  · split at h
    · rename_i hrule hne
      cases h
      exact ⟨rfl, ⟨_, hrule⟩, hne⟩
    · exact hjudge h

theorem breaks_of_subViolation? (hrow : row.isSub = true) (h : c.subViolation? row = some v) :
    v.rule = .subs ∧ c.Breaks reg v := by
  rw [subViolation?] at h
  split at h
  · cases h
  · rename_i s hs hn
    split at h
    · cases h
    · rename_i hk
      cases h
      exact ⟨rfl, hrow, by rw [Graph.hasRow, hs]; rfl, hn, hk⟩
  · rename_i f hn hf
    cases h
    refine ⟨rfl, f, hf, ?_⟩
    rw [hn]
    intro hf
    cases hf
  · rename_i s f hs hf
    split at h
    · cases h
    · rename_i hne
      cases h
      exact ⟨rfl, f, hf, by rw [hs]; exact fun he => hne (Option.some.inj he)⟩

theorem breaks_of_wireViolation? {dst src : EndPoint} (hs : c.graph.sourceOf? dst = some src)
    (h : c.graph.wireViolation? reg dst src = some v) : v.rule = .wires ∧ c.Breaks reg v := by
  rw [Graph.wireViolation?] at h
  split at h
  · rename_i d e hd he
    split at h
    · rename_i hl
      cases h
      exact ⟨rfl, hs, Bool.not_eq_true' _ ▸ hl⟩
    · split at h
      · rename_i hc
        cases h
        exact ⟨rfl, hs, d, e, hd, he, by simpa using hc⟩
      · cases h
  · rename_i hne
    cases h
    refine ⟨rfl, hs, ?_⟩
    rintro ⟨hd, he⟩
    rw [Graph.exists?_iff] at hd he
    rw [← Graph.isSome_delivered] at he
    obtain ⟨d, hd⟩ := Option.isSome_iff_exists.mp hd
    obtain ⟨e, he⟩ := Option.isSome_iff_exists.mp he
    exact hne d e hd he

/-- A violation that a check finds is one of its rule, and is there. -/
theorem breaks_of_check (h : c.check reg rule = some v) : v.rule = rule ∧ c.Breaks reg v := by
  cases rule with
  | sides =>
    obtain ⟨⟨row, s⟩, hrow, h⟩ := List.exists_of_findSome?_eq_some h
    obtain ⟨a, -, h⟩ := List.exists_of_findSome?_eq_some h
    split at h
    · rename_i ha
      cases h
      refine ⟨rfl, ?_⟩
      rw [Breaks, Graph.interface_of_row? (Graph.mem_rows.mp hrow)]
      simpa using ha
    · cases h
  | presence =>
    obtain ⟨row, -, h⟩ := List.exists_of_findSome?_eq_some h
    exact breaks_of_rowViolation? h
  | subs =>
    obtain ⟨row, hrow, h⟩ := List.exists_of_findSome?_eq_some h
    exact breaks_of_subViolation? (by revert hrow; cases row <;> decide) h
  | wires =>
    obtain ⟨⟨dst, src⟩, hs, h⟩ := List.exists_of_findSome?_eq_some h
    exact breaks_of_wireViolation? (Graph.mem_wires.mp hs) h
  | instances =>
    obtain ⟨⟨row, s⟩, hrow, h⟩ := List.exists_of_findSome?_eq_some h
    obtain ⟨i, hi, rfl⟩ := Option.map_eq_some_iff.mp h
    obtain ⟨x, y, hx, hy, hne⟩ := Graph.exists_ne_of_instanceConflict? hi
    refine ⟨rfl, ?_⟩
    simp only [Breaks, Graph.binds_iff, Graph.rowChoices,
      Graph.interface_of_row? (Graph.mem_rows.mp hrow)]
    exact ⟨x, y, hx, hy, hne⟩
  | complete =>
    have hx : c.kind.isWiringExempt = false := by
      rw [← Bool.not_eq_true]
      intro hx
      rw [check, Graph.completenessViolation?_eq_none_iff.mpr (Or.inl hx)] at h
      cases h
    obtain ⟨p, rfl, hp⟩ := Graph.completenessViolation?_eq_some h
    obtain ⟨hp, hs⟩ := Graph.mem_unconnected.mp hp
    exact ⟨rfl, hx, hp, hs, rfl⟩

theorem isSub_of_sub? {f : Frozen} (h : c.sub? row = some f) : row.isSub = true := by
  cases row <;> first | rfl | cases h

/-- A rule is not kept where a violation of it is. -/
theorem Breaks.not_keeps (h : c.Breaks reg v) : ¬ c.Keeps reg v.rule := by
  intro hk
  cases v with
  | rowSide row a => exact absurd ((hk row a h.1).symm.trans h.2) (by decide)
  | rowPresence row rule => exact h.2 (h.1 ▸ hk row)
  | asymmetric row partner =>
    obtain ⟨⟨required, hrule⟩, hne⟩ := h
    have ho := hk row
    rw [hrule] at ho
    exact hne.elim (· ho.1) (· ho.2.1)
  | missingSub row =>
    obtain ⟨hrow, hpresent, hn, hkind⟩ := h
    rcases hk row hrow with hfit | ⟨hp, -⟩
    · rw [hn, Option.map_none] at hfit
      rw [Graph.hasRow, hfit] at hpresent
      cases hpresent
    · exact hkind hp
  | subMismatch row =>
    obtain ⟨f, hf, hne⟩ := h
    rcases hk row (isSub_of_sub? hf) with hfit | ⟨-, -, hn⟩
    · exact hne (by rw [hfit, hf]; rfl)
    · rw [hf] at hn
      cases hn
  | dangling dst src =>
    obtain ⟨d, e, hd, he, -⟩ := hk dst src h.1
    exact h.2 ⟨Graph.exists?_iff.mpr (by rw [hd]; rfl), Graph.exists?_of_delivered he⟩
  | illegalPair dst src =>
    obtain ⟨d, e, -, -, hl, -⟩ := hk dst src h.1
    exact absurd (hl.symm.trans h.2) (by decide)
  | incompatible dst src =>
    obtain ⟨hs, d, e, hd, he, hc⟩ := h
    obtain ⟨d', e', hd', he', -, hc'⟩ := hk dst src hs
    cases hd.symm.trans hd'
    cases he.symm.trans he'
    exact absurd (hc.symm.trans hc') (by decide)
  | instanceConflict row i =>
    obtain ⟨x, y, hx, hy, hne⟩ := h
    exact hne (hk row i x y hx hy)
  | incomplete dst feeder =>
    obtain ⟨hx, hd, hn, -⟩ := h
    have hs := hk hx dst hd
    rw [hn] at hs
    cases hs

/-! ## The checks decide the rules -/

theorem violation?_eq_none_iff_keeps :
    c.violation? reg = none ↔ ∀ rule, c.Keeps reg rule := by
  rw [violation?_eq_findSome?, List.findSome?_eq_none_iff]
  constructor
  · exact fun h rule => keeps_of_check fun rule' _ => h rule' (Rule.mem_all rule')
  · intro h rule _
    cases hv : c.check reg rule with
    | none => rfl
    | some v =>
      obtain ⟨rfl, hb⟩ := breaks_of_check hv
      exact absurd (h v.rule) hb.not_keeps

/-- The checks find nothing exactly if every rule is kept; otherwise they report a violation of
the first rule that is not. -/
theorem violation?_decides (reg : Registry) (c : Code) :
    (c.violation? reg = none ↔ ∀ rule, c.Keeps reg rule) ∧
      ∀ v, c.violation? reg = some v → c.Breaks reg v ∧ ¬ c.Keeps reg v.rule ∧
        ∀ rule, rule.number < v.rule.number → c.Keeps reg rule := by
  refine ⟨violation?_eq_none_iff_keeps, fun v hv => ?_⟩
  rw [violation?_eq_findSome?] at hv
  obtain ⟨before, rule, after, hall, hv, hn⟩ := List.findSome?_eq_some_iff.mp hv
  obtain ⟨rfl, hb⟩ := breaks_of_check hv
  refine ⟨hb, hb.not_keeps, fun rule hlt => keeps_of_check fun rule' hle => ?_⟩
  exact hn rule' (Rule.mem_of_number_lt hall (Nat.lt_of_le_of_lt hle hlt))

/-- A code whose outputs have one fixed instance and are fed two types. -/
def torn : Code :=
  (pair ⟨[.plain 0 3, .plain 0 6], Nat.le_of_ble_eq_true rfl⟩
    ⟨List.replicate 2 (.plain 1 9), Nat.le_of_ble_eq_true rfl⟩
    (.codon .empty .empty) (.codon .empty .empty)).wired
      [(⟨.I, 0⟩, ⟨.O, 0⟩), (⟨.I, 1⟩, ⟨.O, 1⟩)]

theorem violation?_decides_torn :
    torn.violation? sampleRegistry = some (.instanceConflict .O 1) ∧
      (∃ x y, torn.graph.Binds .O 1 x ∧ torn.graph.Binds .O 1 y ∧ x ≠ y) ∧
        torn.Keeps sampleRegistry .wires ∧ ¬ torn.Keeps sampleRegistry .instances := by
  have hv : torn.violation? sampleRegistry = some (.instanceConflict .O 1) := by decide +kernel
  obtain ⟨hb, hn, hk⟩ := (violation?_decides sampleRegistry torn).2 _ hv
  exact ⟨hv, hb, hk .wires (by decide), hn⟩

end Code

end GeneGraph
