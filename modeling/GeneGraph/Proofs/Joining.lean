import GeneGraph.Proofs.Restructure

/-!
# What feeding one destination changes

When a destination gets a source, the rows stay as they are, and what sources deliver stays up to
the row of the destination. If that row is for a sub-code, its wildcard outputs, and those behind
it, may deliver something else from then on. `Code.joined_sound_iff` says what is left to be
checked: the fixed instances of the row itself and, for a sub-code, what the wildcard outputs
feed.
-/

namespace GeneGraph

namespace Graph

variable {g : Graph} {r : Registry} {p dst src : EndPoint} {row : Row} {d e : Ept}

/-- The graph with one more connection. -/
def joined (g : Graph) (dst src : EndPoint) : Graph := { g with wires := g.wires.insert dst src }

theorem sourceOf?_joined :
    (g.joined dst src).sourceOf? p = if p = dst then some src else g.sourceOf? p :=
  sourceOf?_insert_wire g dst src p

/-- What sources of `r` deliver does not depend on the destinations of `row`. -/
def Precedes (row r : Row) : Prop := row.isSub = true → rank r < rank row

/-- Sources before the destination depend on the same connections. -/
theorem carries_joined (hl : g.Legal) : Carries (Precedes dst.row) id g (g.joined dst src) where
  row_eq _ := rfl
  ept_eq _ _ := rfl
  inputs_eq _ _ _ := rfl
  source_eq p hp hsub := by
    have hne : p ≠ dst := fun h => by
      rw [← h] at hp
      exact Nat.lt_irrefl _ (hp hsub)
    show (g.joined dst src).sourceOf? p = _
    rw [sourceOf?_joined, if_neg hne, Option.map_id]
    rfl
  closed p s hp hsub hs hd := Nat.lt_trans (rank_lt_of_isLegal (hl p s hs) hsub) (hp hd)

theorem delivered_joined (hl : g.Legal) (hp : Precedes dst.row p.row) :
    (g.joined dst src).delivered p = g.delivered p :=
  (carries_joined hl).delivered_eq hp

/-- What may feed the row of a destination comes before it. -/
theorem precedes_of_isLegal (h : g.kind.isLegal p.row row = true) : Precedes row p.row :=
  fun hsub => rank_lt_of_isLegal h hsub

/-- The source has a type that is taken from what feeds its sub-code. -/
def Wild (g : Graph) (src : EndPoint) : Prop :=
  src.row.isSub = true ∧ ∃ e, g.ept? .src src = some e ∧ e.hasWildcard = true

theorem delivered_of_not_wild (h : ¬ g.Wild src) : g.delivered src = g.ept? .src src := by
  refine delivered_of_plain fun e he => ?_
  cases hw : e.hasWildcard with
  | false => rfl
  | true =>
    cases hs : src.row.isSub with
    | false => rfl
    | true => exact absurd ⟨hs, e, he, hw⟩ h

/-- What the sources with wildcards deliver is taken where they are connected, and in the rows
they feed no fixed instance stands for two types. -/
structure WildFits (r : Registry) (g : Graph) : Prop where
  takes : ∀ p src d e, g.sourceOf? p = some src → g.Wild src → g.ept? .dst p = some d →
    g.delivered src = some e → r.isCompatible e d = true
  agree : ∀ p src, g.sourceOf? p = some src → g.Wild src → (g.rowChoices p.row).Agree

theorem fed_joined (hl : g.Legal) (hsrc : g.kind.isLegal src.row dst.row = true)
    (hp : p.row = dst.row) :
    (g.joined dst src).fed p = if p = dst then g.delivered src else g.fed p := by
  rw [fed, sourceOf?_joined]
  split
  · exact delivered_joined hl (precedes_of_isLegal hsrc)
  · refine Option.bind_congr fun s hs => delivered_joined hl ?_
    have h := hl p s hs
    rw [hp] at h
    exact precedes_of_isLegal h

/-- The row of the destination chooses what it chose and what the new connection chooses. -/
theorem mem_rowChoices_joined (hl : g.Legal) (hsrc : g.kind.isLegal src.row dst.row = true)
    (hd : g.ept? .dst dst = some d) (he : g.delivered src = some e) {c : Fin 8 × Ept} :
    c ∈ (g.joined dst src).rowChoices dst.row ↔ c ∈ e.choices d ∨
      ∃ k d' e', k ≠ dst.index ∧ g.ept? .dst ⟨dst.row, k⟩ = some d' ∧
        g.fed ⟨dst.row, k⟩ = some e' ∧ c ∈ e'.choices d' := by
  rw [mem_rowChoices]
  constructor
  · rintro ⟨k, d', e', hd', he', hc⟩
    rw [fed_joined (p := ⟨dst.row, k⟩) hl hsrc rfl] at he'
    split at he'
    · rename_i hk
      have hd' : g.ept? .dst ⟨dst.row, k⟩ = some d' := hd'
      rw [hk, hd, Option.some.injEq] at hd'
      rw [he, Option.some.injEq] at he'
      subst hd' he'
      exact Or.inl hc
    · rename_i hk
      exact Or.inr ⟨k, d', e', fun h => hk (EndPoint.ext rfl h), hd', he', hc⟩
  · rintro (hc | ⟨k, d', e', hk, hd', he', hc⟩)
    · refine ⟨dst.index, d, e, hd, ?_, hc⟩
      rw [fed_joined hl hsrc rfl, if_pos rfl, he]
    · refine ⟨k, d', e', hd', ?_, hc⟩
      rw [fed_joined (p := ⟨dst.row, k⟩) hl hsrc rfl,
        if_neg fun h => hk (congrArg EndPoint.index h), he']

end Graph

namespace Code

variable {c : Code} {r : Registry} {dst src : EndPoint} {d e : Ept}

/-- The code with one more connection. -/
def joined (c : Code) (dst src : EndPoint) : Code := { c with graph := c.graph.joined dst src }

theorem connectAll_eq_joined (hs : c.graph.exists? .src src = true)
    (hd : c.graph.exists? .dst dst = true) :
    c.connectAll [(src, dst)] = .ok (c.joined dst src) := by
  have hg : c.graph.connectAll [(src, dst)] = .ok (c.graph.joined dst src) := by
    rw [Graph.connectAll_cons, Graph.connect_eq_ok hs hd]
    rfl
  rw [connectAll, hg]
  rfl

/-- Connecting two end points takes that they exist, and adds one connection. -/
theorem connectAll_joined {c' : Code} (h : c.connectAll [(src, dst)] = .ok c') :
    c.graph.exists? .src src = true ∧ c.graph.exists? .dst dst = true ∧ c' = c.joined dst src := by
  obtain ⟨g, hg, rfl⟩ := connectAll_ok h
  rw [Graph.connectAll_cons] at hg
  split at hg
  · cases hg
  · rename_i hw
    obtain ⟨hs, hd, rfl⟩ := Graph.connect_ok hw
    cases hg
    exact ⟨hs, hd, rfl⟩

/-- A connection that was there is still right, if what wildcards deliver is taken. -/
theorem joined_joins (hs : c.Sound r)
    (hwild : dst.row.isSub = true → (c.joined dst src).graph.WildFits r) {p s : EndPoint}
    (hp : c.graph.sourceOf? p = some s)
    (hp' : (c.joined dst src).graph.sourceOf? p = some s) :
    (c.joined dst src).graph.Joins r p s := by
  obtain ⟨d, e, hd, he, hl, hc⟩ := hs.joins p s hp
  by_cases hpre : Graph.Precedes dst.row s.row
  · refine ⟨d, e, hd, ?_, hl, hc⟩
    rw [← he]
    exact Graph.delivered_joined hs.legal hpre
  · -- the source comes behind the destination, which is then an input of a sub-code
    have hsub : dst.row.isSub = true := by
      by_contra hn
      exact hpre fun h => absurd h hn
    have hsome : ((c.joined dst src).graph.delivered s).isSome := by
      have hex := Graph.exists?_iff.mp (Graph.exists?_of_delivered he)
      rw [Graph.isSome_delivered]
      exact hex
    obtain ⟨e', he'⟩ := Option.isSome_iff_exists.mp hsome
    refine ⟨d, e', hd, he', hl, ?_⟩
    by_cases hw : c.graph.Wild s
    · exact (hwild hsub).takes p s d e' hp' hw hd he'
    · have heq : (c.joined dst src).graph.delivered s = c.graph.delivered s := by
        rw [Graph.delivered_of_not_wild hw]
        exact Graph.delivered_of_not_wild hw
      rw [heq, he, Option.some.injEq] at he'
      rw [← he']
      exact hc

/-- The fixed instances of another row still agree, if those do that wildcards feed. -/
theorem joined_agree (hs : c.Sound r)
    (hwild : dst.row.isSub = true → (c.joined dst src).graph.WildFits r) {row : Row}
    (hr : row ≠ dst.row) : ((c.joined dst src).graph.rowChoices row).Agree := by
  have hsrc : ∀ k, (c.joined dst src).graph.sourceOf? ⟨row, k⟩ = c.graph.sourceOf? ⟨row, k⟩ :=
    fun k => Graph.sourceOf?_joined.trans (if_neg fun h => hr (congrArg EndPoint.row h))
  by_cases hw : ∃ k s, c.graph.sourceOf? ⟨row, k⟩ = some s ∧ c.graph.Wild s ∧
      dst.row.isSub = true
  · obtain ⟨k, s, hk, hw, hsub⟩ := hw
    exact (hwild hsub).agree ⟨row, k⟩ s ((hsrc k).trans hk) hw
  · -- nothing that feeds the row delivers another type than before
    have hfed : ∀ k, (c.joined dst src).graph.fed ⟨row, k⟩ = c.graph.fed ⟨row, k⟩ := by
      intro k
      rw [Graph.fed, hsrc]
      refine Option.bind_congr fun s hk => ?_
      cases hsub : dst.row.isSub with
      | false =>
        refine Graph.delivered_joined hs.legal fun h => ?_
        rw [hsub] at h
        cases h
      | true =>
        have hn : ¬ c.graph.Wild s := fun h => hw ⟨k, s, hk, h, hsub⟩
        rw [Graph.delivered_of_not_wild hn]
        exact Graph.delivered_of_not_wild hn
    refine (Choices.agree_congr fun c' => ?_).mpr (hs.agree row)
    rw [Graph.mem_rowChoices, Graph.mem_rowChoices]
    simp only [hfed]
    rfl

/-- After one more connection between fitting end points, all that can be wrong is about the fixed
instances of the row that was fed, or about wildcards of a sub-code that was fed. -/
theorem joined_sound_iff (hs : c.Sound r) (hd : c.graph.ept? .dst dst = some d)
    (he : c.graph.delivered src = some e) (hl : c.graph.kind.isLegal src.row dst.row = true)
    (hc : r.isCompatible e d = true) :
    (c.joined dst src).Sound r ↔ ((c.joined dst src).graph.rowChoices dst.row).Agree ∧
      (dst.row.isSub = true → (c.joined dst src).graph.WildFits r) := by
  constructor
  · intro h
    refine ⟨h.agree dst.row, fun _ => ⟨fun p s d' e' hp _ hd' he' => ?_,
      fun p _ _ _ => h.agree p.row⟩⟩
    obtain ⟨d'', e'', hd'', he'', -, hc''⟩ := h.joins p s hp
    rw [hd', Option.some.injEq] at hd''
    rw [he', Option.some.injEq] at he''
    rw [hd'', he'']
    exact hc''
  · rintro ⟨hrow, hwild⟩
    refine ⟨hs.rows, hs.subs, fun p s hp => ?_, fun row => ?_⟩
    · have hold := hp
      rw [show (c.joined dst src).graph = c.graph.joined dst src from rfl,
        Graph.sourceOf?_joined] at hold
      split at hold
      · -- the new connection
        rename_i hpd
        cases hold
        subst hpd
        refine ⟨d, e, hd, ?_, hl, hc⟩
        rw [← he]
        exact Graph.delivered_joined hs.legal (Graph.precedes_of_isLegal hl)
      · exact joined_joins hs hwild hold hp
    · by_cases hr : row = dst.row
      · rw [hr]
        exact hrow
      · exact joined_agree hs hwild hr

theorem joined_anchored (ha : c.graph.Anchored) (hd : c.graph.exists? .dst dst = true)
    (hs : c.graph.exists? .src src = true) : (c.joined dst src).graph.Anchored := by
  intro p s hp
  have hp : (c.graph.joined dst src).sourceOf? p = some s := hp
  rw [Graph.sourceOf?_joined] at hp
  split at hp
  · rename_i hpd
    cases hp
    subst hpd
    exact ⟨hd, hs⟩
  · exact ha p s hp

theorem joined_legal (h : c.graph.Legal) (hl : c.graph.kind.isLegal src.row dst.row = true) :
    (c.joined dst src).graph.Legal := by
  intro p s hp
  have hp : (c.graph.joined dst src).sourceOf? p = some s := hp
  rw [Graph.sourceOf?_joined] at hp
  split at hp
  · rename_i hpd
    cases hp
    subst hpd
    exact hl
  · exact h p s hp

end Code

/-- The violations that are about types. -/
def Violation.IsTypeClash : Violation → Prop
  | .incompatible .. | .instanceConflict .. => True
  | _ => False

/-- Where rows, sub-codes and end points of connections are right, only types can be wrong. -/
theorem Code.sound_or_clash {c : Code} {r : Registry} (hrows : c.graph.rowsViolation? = none)
    (hsubs : c.subsViolation? = none) (ha : c.graph.Anchored) (hl : c.graph.Legal) :
    c.Sound r ∨ ∃ v, c.violation? r = some v ∧ v.IsTypeClash := by
  cases hw : c.graph.wiresViolation? r with
  | some v =>
    refine Or.inr ⟨v, by rw [Code.violation?_eq, hrows, hsubs, hw]; rfl, ?_⟩
    obtain ⟨⟨p, s⟩, hmem, hv⟩ := List.exists_of_findSome?_eq_some hw
    have hs := Graph.mem_wires.mp hmem
    obtain ⟨hd, he⟩ := ha p s hs
    rw [Graph.exists?_iff] at hd he
    rw [← Graph.isSome_delivered] at he
    obtain ⟨d, hd⟩ := Option.isSome_iff_exists.mp hd
    obtain ⟨e, he⟩ := Option.isSome_iff_exists.mp he
    have hv : c.graph.wireViolation? r p s = some v := hv
    simp only [Graph.wireViolation?, hd, he, hl p s hs, Bool.not_true, Bool.false_eq_true,
      if_false] at hv
    split at hv
    · cases hv
      trivial
    · cases hv
  | none =>
    cases hi : c.graph.instancesViolation? with
    | some v =>
      refine Or.inr ⟨v, by rw [Code.violation?_eq, hrows, hsubs, hw, hi]; rfl, ?_⟩
      obtain ⟨x, -, hv⟩ := List.exists_of_findSome?_eq_some hi
      obtain ⟨i, -, rfl⟩ := Option.map_eq_some_iff.mp hv
      trivial
    | none =>
      exact Or.inl ⟨hrows, hsubs, Graph.wiresViolation?_eq_none_iff.mp hw,
        Graph.instancesViolation?_eq_none_iff.mp hi⟩

/-! ## Known choices -/

namespace Graph

variable {g : Graph} {row : Row} {index : Nat} {known : Choices} {l : List (Ept × Nat)}

/-- The choices of the connections into a row, one destination apart. -/
def choicesBut (g : Graph) (row : Row) (index : Nat) (l : List (Ept × Nat)) : Choices :=
  l.flatMap fun x => if x.2 = index then [] else g.choicesAt ⟨row, x.2⟩ x.1

/-- Recording the choices one connection after another keeps them all, if they agree. -/
theorem record_choicesBut (hk : known.Agree)
    (h : Choices.Agree (known ++ g.choicesBut row index l)) :
    Choices.Agree (l.foldl (fun known x => if x.2 = index then known
      else (known.record (g.choicesAt ⟨row, x.2⟩ x.1)).2) known) ∧
    ∀ c, c ∈ l.foldl (fun known x => if x.2 = index then known
      else (known.record (g.choicesAt ⟨row, x.2⟩ x.1)).2) known ↔
        c ∈ known ++ g.choicesBut row index l := by
  induction l generalizing known with
  | nil => exact ⟨hk, fun c => by rw [choicesBut, List.flatMap_nil, List.append_nil]; rfl⟩
  | cons x l ih =>
    have hcons : g.choicesBut row index (x :: l) =
        (if x.2 = index then [] else g.choicesAt ⟨row, x.2⟩ x.1) ++ g.choicesBut row index l :=
      List.flatMap_cons
    by_cases hx : x.2 = index
    · simp only [List.foldl_cons, if_pos hx]
      rw [if_pos hx, List.nil_append] at hcons
      rw [hcons] at h ⊢
      exact ih hk h
    · simp only [List.foldl_cons, if_neg hx]
      rw [if_neg hx] at hcons
      rw [hcons, ← List.append_assoc] at h ⊢
      have hn := (Choices.record_eq_none_iff hk).mpr
        (h.mono fun c hc => List.mem_append_left _ hc)
      obtain ⟨ha, hm⟩ := ih (Choices.record_agree hk) ((Choices.agree_record_append hn).mpr h)
      refine ⟨ha, fun c => (hm c).trans ?_⟩
      rw [List.mem_append, Choices.mem_record hn, List.mem_append (s := known ++ _)]

theorem mem_choicesBut {c : Fin 8 × Ept} :
    c ∈ g.choicesBut row index (g.interface row .dst).epts.zipIdx ↔
      ∃ k d e, k ≠ index ∧ g.ept? .dst ⟨row, k⟩ = some d ∧ g.fed ⟨row, k⟩ = some e ∧
        c ∈ e.choices d := by
  rw [choicesBut, List.mem_flatMap]
  constructor
  · rintro ⟨⟨d, k⟩, hx, hc⟩
    split at hc
    · cases hc
    · rename_i hk
      obtain ⟨e, he, hc⟩ := mem_choicesAt.mp hc
      exact ⟨k, d, e, hk, List.mem_zipIdx_iff_getElem?.mp hx, he, hc⟩
  · rintro ⟨k, d, e, hk, hd, he, hc⟩
    refine ⟨(d, k), List.mem_zipIdx_iff_getElem?.mpr hd, ?_⟩
    rw [if_neg hk]
    exact mem_choicesAt.mpr ⟨e, he, hc⟩

/-- Where the choices of a row agree, those that are known are those of its other destinations. -/
theorem knownChoices_spec (h : (g.rowChoices row).Agree) (index : Nat) :
    (g.knownChoices row index).Agree ∧ ∀ c, c ∈ g.knownChoices row index ↔
      ∃ k d e, k ≠ index ∧ g.ept? .dst ⟨row, k⟩ = some d ∧ g.fed ⟨row, k⟩ = some e ∧
        c ∈ e.choices d := by
  have hbut : (g.choicesBut row index (g.interface row .dst).epts.zipIdx).Agree := by
    refine h.mono fun c hc => ?_
    obtain ⟨k, d, e, -, hd, he, hc⟩ := mem_choicesBut.mp hc
    exact mem_rowChoices.mpr ⟨k, d, e, hd, he, hc⟩
  obtain ⟨ha, hm⟩ := record_choicesBut Choices.agree_nil hbut
  exact ⟨ha, fun c => (hm c).trans mem_choicesBut⟩

/-- What the known choices admit keeps the choices of the row in agreement. -/
theorem rowChoices_joined_agree {dst src : EndPoint} {d e : Ept} (hl : g.Legal)
    (hrow : (g.rowChoices dst.row).Agree) (hsrc : g.kind.isLegal src.row dst.row = true)
    (hd : g.ept? .dst dst = some d) (he : g.delivered src = some e)
    (hk : ((g.knownChoices dst.row dst.index).record (e.choices d)).1 = none) :
    ((g.joined dst src).rowChoices dst.row).Agree := by
  obtain ⟨ha, hm⟩ := knownChoices_spec hrow dst.index
  refine ((Choices.record_eq_none_iff ha).mp hk).mono fun c hc => ?_
  rw [List.mem_append, hm]
  exact ((mem_rowChoices_joined hl hsrc hd he).mp hc).symm

end Graph

/-! ## New inputs -/

namespace Graph

variable {g g' : Graph} {row : Row} {k : Nat} {e : Ept} {p : EndPoint}

/-- The graph with a new input of type `e`. -/
structure Extended (g : Graph) (e : Ept) (k : Nat) (g' : Graph) : Prop where
  /-- The old inputs are renamed. -/
  renames : ∃ σ, Renames id σ g g'
  row_eq : ∀ r, r ≠ .I → g'.row? r = g.row? r
  dst_eq : ∀ r, g'.interface r .dst = g.interface r .dst
  hasRow_I : g'.hasRow .I = true
  new_ept : g'.ept? .src ⟨.I, k⟩ = some e

/-- A new input renames the old ones. -/
theorem renames_insert_input (h : g.insert .I .src e = (.ok k, g')) :
    Renames id (EndPoint.onRow .I ((g.interface .I .src).shift e)) g g' := by
  obtain ⟨i', hi, hint⟩ := interface_insert h
  obtain ⟨_, -, -, rfl⟩ := insert_ok h
  refine ⟨⟨rfl, fun _ => rfl, fun _ => EndPoint.onRow_row, fun p => ?_, fun p => ?_,
    Function.surjective_id, fun p => ?_⟩, fun _ _ => rfl⟩
  · rw [id, ept?, ept?, hint, if_neg (by simp)]
  · rw [ept?, ept?, hint, EndPoint.onRow_row]
    by_cases hp : p.row = .I
    · rw [if_pos ⟨hp, rfl⟩, EndPoint.onRow, if_pos hp, hp]
      exact Interface.get?_insert_shift hi p.index
    · rw [if_neg fun h => hp h.1, EndPoint.onRow_of_ne hp]
  · rw [id, sourceOf?_moveWires_src, Option.map_eq_bind]
    exact Option.bind_congr fun src _ => movePoint_some

theorem insert_input (h : g.insert .I .src e = (.ok k, g')) : g.Extended e k g' := by
  have hrenames := renames_insert_input h
  obtain ⟨i', hi, hint⟩ := interface_insert h
  obtain ⟨i₁, -, rfl, rfl⟩ := insert_ok h
  refine ⟨⟨_, hrenames⟩, fun r hr => ?_, fun r => ?_, ?_, ?_⟩
  · exact (row?_setSide ..).trans (if_neg hr)
  · rw [hint, if_neg (by simp)]
  · have h : ((g.setSide .I .src i₁).row? .I).isSome = true := by
      rw [row?_setSide, if_pos rfl]
      rfl
    exact h
  · rw [ept?, hint, if_pos ⟨rfl, rfl⟩]
    exact Interface.get?_insert_slot hi

theorem Extended.kind_eq (h : g.Extended e k g') : g'.kind = g.kind := by
  obtain ⟨σ, hσ⟩ := h.renames
  exact hσ.kind_eq

theorem Extended.hasRow_of_ne (h : g.Extended e k g') (hr : row ≠ .I) :
    g'.hasRow row = g.hasRow row := by
  rw [hasRow, hasRow, h.row_eq row hr]

theorem Extended.hasRow_mono (h : g.Extended e k g') (hr : g.hasRow row = true) :
    g'.hasRow row = true := by
  by_cases hI : row = .I
  · rw [hI]
    exact h.hasRow_I
  · rw [h.hasRow_of_ne hI]
    exact hr

theorem presence_symmetric {kind : GraphKind} {partner : Row} {needed : Bool}
    (h : kind.presence row = .symmetric partner needed) : row ≠ .I ∧ partner ≠ .I := by
  cases kind <;> cases row <;> cases h <;> decide

/-- A row of inputs that may be there breaks no rule. -/
theorem Extended.rowViolation?_eq_none (h : g.Extended e k g')
    (hI : g.kind.presence .I ≠ .forbidden) (hr : g.rowViolation? row = none) :
    g'.rowViolation? row = none := by
  rw [rowViolation?] at hr ⊢
  rw [h.kind_eq]
  cases hp : g.kind.presence row with
  | required =>
    simp only [hp, ite_eq_left_iff, reduceCtorEq, imp_false, not_not] at hr ⊢
    exact h.hasRow_mono hr
  | forbidden =>
    have hne : row ≠ .I := fun he => hI (he ▸ hp)
    simp only [hp] at hr ⊢
    rw [h.hasRow_of_ne hne]
    exact hr
  | optional => rfl
  | atLeastOneOf rows =>
    simp only [hp, ite_eq_left_iff, reduceCtorEq, imp_false, not_not, List.any_eq_true] at hr ⊢
    obtain ⟨r, hmem, hrow⟩ := hr
    exact ⟨r, hmem, h.hasRow_mono hrow⟩
  | symmetric partner needed =>
    obtain ⟨hrow, hpartner⟩ := presence_symmetric hp
    simp only [hp] at hr ⊢
    rw [h.hasRow_of_ne hrow, h.hasRow_of_ne hpartner, h.dst_eq, h.dst_eq]
    exact hr

theorem Extended.rowsViolation?_eq_none (h : g.Extended e k g')
    (hI : g.kind.presence .I ≠ .forbidden) (hr : g.rowsViolation? = none) :
    g'.rowsViolation? = none := by
  rw [rowsViolation?_eq_none_iff] at hr ⊢
  refine ⟨fun row a ha => ?_, fun row => h.rowViolation?_eq_none hI (hr.2 row)⟩
  by_cases hrow : row = .I
  · cases a with
    | src =>
      rw [hrow] at ha
      cases ha
    | dst =>
      rw [h.dst_eq]
      exact hr.1 row .dst ha
  · rw [interface_of_row?_eq (h.row_eq row hrow)]
    exact hr.1 row a ha

end Graph

/-- A sound code with a new input is sound. -/
theorem Code.Sound.extended {c : Code} {r : Registry} {e : Ept} {k : Nat} {g : Graph}
    (hs : c.Sound r) (h : c.graph.Extended e k g) (hI : c.kind.presence .I ≠ .forbidden) :
    ({ c with graph := g } : Code).Sound r := by
  obtain ⟨σ, hσ⟩ := h.renames
  refine ⟨h.rowsViolation?_eq_none hI hs.rows, ?_, hσ.joins_all hs.joins, hσ.agree hs.agree⟩
  refine Code.subsViolation?_eq_none_iff.mpr fun row hrow => ?_
  have hne : row ≠ .I := fun he => by
    rw [he] at hrow
    cases hrow
  refine (Code.subsViolation?_eq_none_iff.mp hs.subs row hrow).imp (fun hfit => ?_) fun hk => ?_
  · rw [Code.sub?_of_graph]
    exact (h.row_eq row hne).trans hfit
  · rw [Code.sub?_of_graph]
    exact ⟨h.kind_eq.trans hk.1, hk.2⟩

end GeneGraph
