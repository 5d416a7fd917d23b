import GeneGraph.Proofs.Checks

/-!
# What sources deliver after a change

A source delivers its type with wildcards followed back through the sub-codes. So its delivery
depends only on the rows it can be followed to: `Graph.Carries` says that a graph keeps what
matters for some rows, and `Graph.Carries.delivered_eq` that their sources then deliver what they
delivered. `Graph.Renames` says that a graph has the same connections between end points with
other names, and all checks come out alike for it.
-/

namespace GeneGraph

/-- The type with its wildcards resolved, or as it is declared if they cannot be. -/
def Ept.resolved (inputs : List Ept) (e : Ept) : Ept := (e.resolve inputs).toOption.getD e

namespace Graph

variable {r : Registry} {g g' : Graph} {row : Row} {p dst src : EndPoint}
  {δ σ : EndPoint → EndPoint} {S : Row → Prop} {n : Nat}

/-- The types that the inputs of a sub-code get, where sources deliver as `deliver` says. -/
def inputTypes (g : Graph) (deliver : EndPoint → Option Ept) (row : Row) : List Ept :=
  (g.interface row .dst).epts.zipIdx.map fun x =>
    ((g.sourceOf? ⟨row, x.2⟩).bind deliver).getD x.1

theorem deliveredWithin_zero (g : Graph) (src : EndPoint) :
    g.deliveredWithin 0 src = g.ept? .src src := rfl

theorem deliveredWithin_succ (g : Graph) (n : Nat) (src : EndPoint) :
    g.deliveredWithin (n + 1) src = (g.ept? .src src).map fun e =>
      if e.hasWildcard && src.row.isSub then
        e.resolved (g.inputTypes (g.deliveredWithin n) src.row)
      else e := rfl

/-- The types depend on the inputs and on what is delivered to them. -/
theorem inputTypes_eq {deliver deliver' : EndPoint → Option Ept}
    (hi : g'.interface row .dst = g.interface row .dst)
    (hd : ∀ k, (g'.sourceOf? ⟨row, k⟩).bind deliver' = (g.sourceOf? ⟨row, k⟩).bind deliver) :
    g'.inputTypes deliver' row = g.inputTypes deliver row := by
  unfold inputTypes
  rw [hi]
  exact List.map_congr_left fun x _ => by rw [hd x.2]

theorem inputTypes_congr {deliver deliver' : EndPoint → Option Ept}
    (h : ∀ k src, g.sourceOf? ⟨row, k⟩ = some src → deliver src = deliver' src) :
    g.inputTypes deliver row = g.inputTypes deliver' row :=
  inputTypes_eq rfl fun k => Option.bind_congr fun src hs => h k src hs

/-- A source delivers a type exactly if it exists. -/
theorem isSome_deliveredWithin : (g.deliveredWithin n src).isSome = (g.ept? .src src).isSome := by
  cases n with
  | zero => rfl
  | succ n => rw [deliveredWithin_succ, Option.isSome_map]

theorem isSome_delivered : (g.delivered src).isSome = (g.ept? .src src).isSome :=
  isSome_deliveredWithin

theorem exists?_of_delivered {e : Ept} (h : g.delivered src = some e) :
    g.exists? .src src = true := by
  rw [exists?_iff, ← isSome_delivered, h]
  rfl

/-- Where there is nothing to resolve, the declared type is delivered. -/
theorem delivered_of_plain (h : ∀ e, g.ept? .src src = some e →
    (e.hasWildcard && src.row.isSub) = false) : g.delivered src = g.ept? .src src := by
  show g.deliveredWithin (7 + 1) src = _
  rw [deliveredWithin_succ]
  cases he : g.ept? .src src with
  | none => rfl
  | some e => rw [Option.map_some, h e he]; rfl

theorem deliveredWithin_of_not_isSub (h : src.row.isSub = false) :
    g.deliveredWithin n src = g.ept? .src src := by
  cases n with
  | zero => rfl
  | succ n =>
    rw [deliveredWithin_succ]
    simp only [h, Bool.and_false, Bool.false_eq_true, if_false]
    exact Option.map_id'

/-! ## Legal graphs -/

/-- Every connection is from a row that may feed the other. -/
def Legal (g : Graph) : Prop :=
  ∀ dst src, g.sourceOf? dst = some src → g.kind.isLegal src.row dst.row = true

/-- How many sub-codes a source of the row can depend on. -/
def rank : Row → Nat
  | .A => 1
  | .B => 2
  | _ => 0

theorem rank_le_two (row : Row) : rank row ≤ 2 := by cases row <;> decide

theorem rank_pos {row : Row} (h : row.isSub = true) : 0 < rank row := by
  cases row <;> first | decide | cases h

theorem rank_lt_of_isLegal {k : GraphKind} {a b : Row} (h : k.isLegal a b = true)
    (hb : b.isSub = true) : rank a < rank b := by
  cases b with
  | A => cases k <;> cases a <;> first | decide | cases h
  | B => cases k <;> cases a <;> first | decide | cases h
  | _ => cases hb

/-- In a legal graph, wildcards need not be followed further than sub-codes can be nested. -/
theorem Legal.deliveredWithin_eq (h : g.Legal) {m : Nat} (hn : rank p.row ≤ n)
    (hm : rank p.row ≤ m) : g.deliveredWithin n p = g.deliveredWithin m p := by
  induction n generalizing m p with
  | zero =>
    have hs : p.row.isSub = false :=
      Bool.not_eq_true _ ▸ fun hs => absurd hn (Nat.not_le.mpr (rank_pos hs))
    rw [deliveredWithin_of_not_isSub hs, deliveredWithin_of_not_isSub hs]
  | succ n ih =>
    cases hs : p.row.isSub with
    | false => rw [deliveredWithin_of_not_isSub hs, deliveredWithin_of_not_isSub hs]
    | true =>
      cases m with
      | zero => exact absurd hm (Nat.not_le.mpr (rank_pos hs))
      | succ m =>
        rw [deliveredWithin_succ, deliveredWithin_succ, inputTypes_congr fun k src hsrc => ?_]
        have hlt := rank_lt_of_isLegal (h _ _ hsrc) hs
        exact ih (by simp only at hlt; omega) (by simp only at hlt; omega)

/-- In a legal graph, wildcards stand for what the inputs of their sub-code are delivered. -/
theorem Legal.delivered_eq (h : g.Legal) (src : EndPoint) :
    g.delivered src = (g.ept? .src src).map fun e =>
      if e.hasWildcard && src.row.isSub then e.resolved (g.inputTypes g.delivered src.row)
      else e := by
  show g.deliveredWithin (7 + 1) src = _
  rw [deliveredWithin_succ, inputTypes_congr fun k p _ => h.deliveredWithin_eq (m := 8) ?_ ?_]
  · rfl
  · exact Nat.le_trans (rank_le_two _) (by decide)
  · exact Nat.le_trans (rank_le_two _) (by decide)

/-! ## Deliveries that stay -/

/-- For the rows of `S`, `g'` has what their sources deliver in `g`: `σ` renames sources, and the
inputs of the sub-codes have the same types and are fed by the sources of the new names. -/
structure Carries (S : Row → Prop) (σ : EndPoint → EndPoint) (g g' : Graph) : Prop where
  row_eq : ∀ p, (σ p).row = p.row
  ept_eq : ∀ p, S p.row → g'.ept? .src (σ p) = g.ept? .src p
  inputs_eq : ∀ row, S row → row.isSub = true → g'.interface row .dst = g.interface row .dst
  source_eq : ∀ p, S p.row → p.row.isSub = true → g'.sourceOf? p = (g.sourceOf? p).map σ
  closed : ∀ p src, S p.row → p.row.isSub = true → g.sourceOf? p = some src → S src.row

theorem Carries.deliveredWithin_eq (h : Carries S σ g g') (n : Nat) (hp : S p.row) :
    g'.deliveredWithin n (σ p) = g.deliveredWithin n p := by
  induction n generalizing p with
  | zero => exact h.ept_eq p hp
  | succ n ih =>
    rw [deliveredWithin_succ, deliveredWithin_succ, h.ept_eq p hp, h.row_eq]
    cases hs : p.row.isSub with
    | false => simp only [Bool.and_false, Bool.false_eq_true, if_false]
    | true =>
      have hin : g'.inputTypes (g'.deliveredWithin n) p.row =
          g.inputTypes (g.deliveredWithin n) p.row := by
        refine inputTypes_eq (h.inputs_eq p.row hp hs) fun k => ?_
        rw [h.source_eq ⟨p.row, k⟩ hp hs, Option.bind_map]
        exact Option.bind_congr fun src hsrc => ih (h.closed ⟨p.row, k⟩ src hp hs hsrc)
      rw [hin]

/-- The sources of the rows deliver what they delivered. -/
theorem Carries.delivered_eq (h : Carries S σ g g') (hp : S p.row) :
    g'.delivered (σ p) = g.delivered p :=
  h.deliveredWithin_eq resolveDepth hp

/-! ## Renamed end points -/

/-- `g'` has the connections of `g` between end points of the same types under other names: `δ`
renames destinations and `σ` sources. -/
structure Moves (δ σ : EndPoint → EndPoint) (g g' : Graph) : Prop where
  kind_eq : g'.kind = g.kind
  dst_row : ∀ p, (δ p).row = p.row
  src_row : ∀ p, (σ p).row = p.row
  dst_ept : ∀ p, g'.ept? .dst (δ p) = g.ept? .dst p
  src_ept : ∀ p, g'.ept? .src (σ p) = g.ept? .src p
  onto : Function.Surjective δ
  source_eq : ∀ p, g'.sourceOf? (δ p) = (g.sourceOf? p).map σ

theorem Moves.complete (h : Moves δ σ g g') (hc : g.Complete) : g'.Complete := by
  intro p' hp
  obtain ⟨p, rfl⟩ := h.onto p'
  rw [exists?_iff, h.dst_ept, ← exists?_iff] at hp
  rw [h.source_eq, Option.isSome_map]
  exact hc p hp

/-- A fixed instance of a row is given a type by a destination whose source delivers as `deliver`
says. -/
def Chooses (g : Graph) (deliver : EndPoint → Option Ept) (row : Row) (c : Fin 8 × Ept) : Prop :=
  ∃ k src d e, g.ept? .dst ⟨row, k⟩ = some d ∧ g.sourceOf? ⟨row, k⟩ = some src ∧
    deliver src = some e ∧ c ∈ e.choices d

theorem mem_rowChoices_iff_chooses {c : Fin 8 × Ept} :
    c ∈ g.rowChoices row ↔ g.Chooses g.delivered row c := by
  rw [mem_rowChoices]
  constructor
  · rintro ⟨k, d, e, hd, he, hc⟩
    obtain ⟨src, hs, he⟩ := Option.bind_eq_some_iff.mp he
    exact ⟨k, src, d, e, hd, hs, he, hc⟩
  · rintro ⟨k, src, d, e, hd, hs, he, hc⟩
    exact ⟨k, d, e, hd, by rw [fed, hs, Option.bind_some, he], hc⟩

section Moved

variable {deliver : EndPoint → Option Ept} (h : Moves δ σ g g')
  (hd : ∀ p, g'.delivered (σ p) = deliver p)

include h hd

/-- A moved connection is joined as before, but for the type that its source delivers. -/
theorem Moves.joins_iff : g'.Joins r (δ dst) (σ src) ↔
    ∃ d e, g.ept? .dst dst = some d ∧ deliver src = some e ∧
      g.kind.isLegal src.row dst.row = true ∧ r.isCompatible e d = true := by
  unfold Joins
  rw [h.dst_ept, hd, h.kind_eq, h.src_row, h.dst_row]

/-- A row makes the choices that its connections make with what is delivered now. -/
theorem Moves.mem_rowChoices_iff {c : Fin 8 × Ept} :
    c ∈ g'.rowChoices row ↔ g.Chooses deliver row c := by
  rw [mem_rowChoices_iff_chooses]
  constructor
  · rintro ⟨k, src', d, e, hdst, hs, he, hc⟩
    obtain ⟨⟨row', l⟩, hl⟩ := h.onto ⟨row, k⟩
    obtain rfl : row' = row := (h.dst_row ⟨row', l⟩).symm.trans (congrArg EndPoint.row hl)
    rw [← hl, h.dst_ept] at hdst
    rw [← hl, h.source_eq] at hs
    obtain ⟨src, hsrc, rfl⟩ := Option.map_eq_some_iff.mp hs
    exact ⟨l, src, d, e, hdst, hsrc, (hd src).symm.trans he, hc⟩
  · rintro ⟨k, src, d, e, hdst, hs, he, hc⟩
    have hk : δ ⟨row, k⟩ = ⟨row, (δ ⟨row, k⟩).index⟩ := EndPoint.ext (h.dst_row ⟨row, k⟩) rfl
    refine ⟨(δ ⟨row, k⟩).index, σ src, d, e, ?_, ?_, (hd src).trans he, hc⟩
    · rw [← hk, h.dst_ept, hdst]
    · rw [← hk, h.source_eq, hs, Option.map_some]

end Moved

/-- The inputs of sub-codes keep their names, since wildcards refer to them. -/
structure Renames (δ σ : EndPoint → EndPoint) (g g' : Graph) : Prop extends Moves δ σ g g' where
  fixed : ∀ p, p.row.isSub = true → δ p = p

namespace Renames

theorem interface_eq (h : Renames δ σ g g') (hs : row.isSub = true) :
    g'.interface row .dst = g.interface row .dst := by
  refine Interface.ext (List.ext_getElem? fun k => ?_)
  have hk := h.dst_ept ⟨row, k⟩
  rw [h.fixed ⟨row, k⟩ hs] at hk
  exact hk

theorem carries (h : Renames δ σ g g') : Carries (fun _ => True) σ g g' where
  row_eq := h.src_row
  ept_eq p _ := h.src_ept p
  inputs_eq _ _ hs := h.interface_eq hs
  source_eq p _ hs := by
    have := h.source_eq p
    rwa [h.fixed p hs] at this
  closed _ _ _ _ _ := trivial

theorem delivered_eq (h : Renames δ σ g g') (p : EndPoint) : g'.delivered (σ p) = g.delivered p :=
  h.carries.delivered_eq trivial

theorem joins (h : Renames δ σ g g') (hj : g.Joins r dst src) : g'.Joins r (δ dst) (σ src) :=
  (h.joins_iff h.delivered_eq).mpr hj

/-- Legal connections stay legal. -/
theorem joins_all (h : Renames δ σ g g')
    (hj : ∀ dst src, g.sourceOf? dst = some src → g.Joins r dst src) :
    ∀ dst src, g'.sourceOf? dst = some src → g'.Joins r dst src := by
  intro dst' src' hs
  obtain ⟨dst, rfl⟩ := h.onto dst'
  rw [h.source_eq] at hs
  obtain ⟨src, hsrc, rfl⟩ := Option.map_eq_some_iff.mp hs
  exact h.joins (hj dst src hsrc)

/-- The choices for fixed instances stay the same. -/
theorem mem_rowChoices (h : Renames δ σ g g') (row : Row) (c : Fin 8 × Ept) :
    c ∈ g'.rowChoices row ↔ c ∈ g.rowChoices row :=
  (h.mem_rowChoices_iff h.delivered_eq).trans mem_rowChoices_iff_chooses.symm

theorem agree (h : Renames δ σ g g') (ha : ∀ row, (g.rowChoices row).Agree) (row : Row) :
    (g'.rowChoices row).Agree :=
  (Choices.agree_congr (h.mem_rowChoices row)).mpr (ha row)

end Renames

end Graph

theorem Code.Sound.legal {r : Registry} {c : Code} (h : c.Sound r) : c.graph.Legal := by
  intro dst src hs
  obtain ⟨d, e, -, -, hl, -⟩ := h.joins dst src hs
  exact hl

end GeneGraph
