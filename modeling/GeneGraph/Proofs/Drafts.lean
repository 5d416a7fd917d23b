import GeneGraph.Proofs.Decoding
import Mathlib.Data.Nat.Basic
import Mathlib.Order.Basic

/-!
# Drafts of documents

While a document is read, the draft has all that the entries read so far say (`Draft.Has`): their
destinations, the connections that they make, the types that row U lists, and for each source the
types of its consumers. This holds of every document that can be read (`Draft.has_of_read`), and
a document can be read if its entries are well-formed and its destinations fit (`Draft.exists_has`).
-/

namespace GeneGraph

/-! ## Room for end points -/

/-- End points whose types are given by their indices have no more elements than an interface. -/
def TypesFit (P : Nat → Ept → Prop) : Prop :=
  ∀ l : List Ept, (∀ k e, l[k]? = some e → P k e) → elementsOf l ≤ maxElements

/-- The next end point of an interface can be added. -/
theorem Graph.push_of_typesFit {g : Graph} {row : Row} {a : Side} {e : Ept}
    {P : Nat → Ept → Prop} (hfits : TypesFit P)
    (hold : ∀ k e, g.ept? a ⟨row, k⟩ = some e → P k e) (hnew : P (g.count row a) e) :
    ∃ g', g.push row a e = (.ok (g.count row a), g') := by
  have hle := hfits ((g.interface row a).epts ++ [e]) fun k e' hk => by
    rw [List.getElem?_append] at hk
    split at hk
    · exact hold k e' hk
    · rename_i hlt
      rw [List.getElem?_singleton] at hk
      split at hk
      · rename_i hzero
        cases hk
        have hcount : k = g.count row a :=
          Nat.le_antisymm (Nat.sub_eq_zero_iff_le.mp hzero) (Nat.le_of_not_lt hlt)
        exact hcount ▸ hnew
      · cases hk
  rw [elementsOf_append, elementsOf, elementsOf, Nat.add_zero] at hle
  exact push_total hle

/-! ## Entries -/

/-- The entries of a document. -/
structure Entries where
  /-- The destinations of each row that the document has. -/
  rows : Row → Option (List PointRecord)
  /-- The entries of row U. -/
  listed : List PointRecord

namespace Entries

variable {r : Registry} {es : Entries} {row : Row} {ps us : List PointRecord} {x : PointRecord}
  {p dst src : EndPoint} {e : Ept}

/-- The entry of a destination. -/
def dst? (es : Entries) (p : EndPoint) : Option PointRecord := (es.rows p.row).bind (·[p.index]?)

/-- The last entry of row U that names the source. -/
def src? (es : Entries) (src : EndPoint) : Option PointRecord :=
  es.listed.reverse.find? fun x => x.Names src

/-- The entry of the destination names the source. -/
def Feeds (es : Entries) (dst src : EndPoint) : Prop := ∃ x, es.dst? dst = some x ∧ x.Names src

/-- The source feeds a destination of the type. -/
def Consumed (r : Registry) (es : Entries) (src : EndPoint) (e : Ept) : Prop :=
  ∃ dst x, es.dst? dst = some x ∧ x.Names src ∧ x.HasType r e

/-- The end point has the type: a destination has the type of its entry, and a source that of the
last entry of row U for it, or the type of its consumers if row U does not name it. -/
def EptAt (r : Registry) (es : Entries) : Side → EndPoint → Ept → Prop
  | .dst, p, e => ∃ x, es.dst? p = some x ∧ x.HasType r e
  | .src, p, e => (∃ x, es.src? p = some x ∧ x.HasType r e) ∨ es.src? p = none ∧ es.Consumed r p e

/-- All entries have a type; those of row U name a source, and no other names half of one. -/
structure WellFormed (r : Registry) (es : Entries) : Prop where
  dst : ∀ p x, es.dst? p = some x → x.WellFormed r
  listed : ∀ x ∈ es.listed, (∃ e, x.HasType r e) ∧ ∃ src, x.Names src

theorem src?_eq_none_iff : es.src? src = none ↔ ∀ x ∈ es.listed, ¬ x.Names src := by
  simp [src?]

theorem mem_of_src? (h : es.src? src = some x) : x ∈ es.listed ∧ x.Names src := by
  have hnames := List.find?_some (show es.listed.reverse.find? _ = some x from h)
  exact ⟨List.mem_reverse.mp (List.mem_of_find?_eq_some h), of_decide_eq_true hnames⟩

/-- An entry that is not the last for its source is replaced. -/
theorem src?_append :
    src? { es with listed := us ++ [x] } src =
      if x.Names src then some x else src? { es with listed := us } src := by
  simp only [src?, List.reverse_append, List.reverse_singleton, List.singleton_append,
    List.find?_cons]
  by_cases hx : x.Names src
  · simp [hx]
  · simp [hx]

/-- The entries with those of a row instead of the ones it has. -/
def setRow (es : Entries) (row : Row) (ps : List PointRecord) : Entries :=
  { es with rows := Function.update es.rows row (some ps) }

theorem rows_setRow (row' : Row) :
    (es.setRow row ps).rows row' = if row' = row then some ps else es.rows row' :=
  Function.update_apply es.rows row (some ps) row'

theorem dst?_setRow_self (k : Nat) : (es.setRow row ps).dst? ⟨row, k⟩ = ps[k]? := by
  rw [dst?, rows_setRow, if_pos rfl, Option.bind_some]

theorem dst?_setRow_nil (h : es.rows row = none) : (es.setRow row []).dst? p = es.dst? p := by
  rw [dst?, dst?, rows_setRow]
  split
  · rename_i hrow
    rw [hrow, h]
    rfl
  · rfl

theorem dst?_setRow_append :
    (es.setRow row (ps ++ [x])).dst? p =
      if p = ⟨row, ps.length⟩ then some x else (es.setRow row ps).dst? p := by
  obtain ⟨row', k⟩ := p
  by_cases hrow : row' = row
  · subst hrow
    rw [dst?_setRow_self, dst?_setRow_self, List.getElem?_append]
    simp only [EndPoint.mk.injEq, true_and]
    split_ifs with hlt heq heq
    · omega
    · rfl
    · rw [heq, Nat.sub_self, List.getElem?_cons_zero]
    · rw [List.getElem?_eq_none (by simp; omega), List.getElem?_eq_none (by omega)]
  · rw [if_neg fun h => hrow (congrArg EndPoint.row h), dst?, dst?, rows_setRow, rows_setRow,
      if_neg hrow, if_neg hrow]

theorem eptAt_dst_append :
    (es.setRow row (ps ++ [x])).EptAt r .dst p e ↔
      if p = ⟨row, ps.length⟩ then x.HasType r e else (es.setRow row ps).EptAt r .dst p e := by
  simp only [EptAt, dst?_setRow_append]
  split <;> simp

theorem feeds_append :
    (es.setRow row (ps ++ [x])).Feeds dst src ↔
      if dst = ⟨row, ps.length⟩ then x.Names src else (es.setRow row ps).Feeds dst src := by
  simp only [Feeds, dst?_setRow_append]
  split <;> simp

theorem consumed_append :
    (es.setRow row (ps ++ [x])).Consumed r src e ↔
      (es.setRow row ps).Consumed r src e ∨ x.Names src ∧ x.HasType r e := by
  constructor
  · rintro ⟨dst, y, hy, hsrc, he⟩
    rw [dst?_setRow_append] at hy
    split at hy
    · cases hy
      exact Or.inr ⟨hsrc, he⟩
    · exact Or.inl ⟨dst, y, hy, hsrc, he⟩
  · rintro (⟨dst, y, hy, hsrc, he⟩ | ⟨hsrc, he⟩)
    · refine ⟨dst, y, ?_, hsrc, he⟩
      rw [dst?_setRow_append, if_neg, hy]
      rintro rfl
      rw [dst?_setRow_self, List.getElem?_length] at hy
      cases hy
    · exact ⟨⟨row, ps.length⟩, x, by rw [dst?_setRow_append, if_pos rfl], hsrc, he⟩

/-! ## Entries of rows with names -/

/-- The entries of rows under their names. -/
def ofRows (l : List (String × List PointRecord)) : Entries where
  rows row := if row = .U then none else l.lookup row.text
  listed := (l.lookup Row.U.text).getD []

variable {l : List (String × List PointRecord)}

@[simp] theorem dst?_ofRows_nil : (ofRows []).dst? p = none := by
  simp [dst?, ofRows]

@[simp] theorem src?_ofRows_nil : (ofRows []).src? src = none := rfl

theorem lookup_eq_none {key : String} (h : key ∉ l.map Prod.fst) : l.lookup key = none := by
  rw [List.lookup_eq_none_iff]
  rintro y hy
  rw [bne_iff_ne]
  rintro rfl
  exact h (List.mem_map_of_mem hy)

/-- The entries of another row come in. -/
theorem ofRows_append_row (ps : List PointRecord) (hkey : row.text ∉ l.map Prod.fst)
    (hu : row ≠ .U) :
    (ofRows l).rows row = none ∧ ofRows (l ++ [(row.text, ps)]) = (ofRows l).setRow row ps := by
  have hnone := lookup_eq_none hkey
  refine ⟨by simp [ofRows, hnone], ?_⟩
  have hother : Row.U.text ≠ row.text := fun h => hu (Row.text_injective h).symm
  have hrows (row' : Row) :
      (ofRows (l ++ [(row.text, ps)])).rows row' = ((ofRows l).setRow row ps).rows row' := by
    rw [rows_setRow]
    by_cases hrow : row' = row
    · simp [ofRows, hrow, hu, hnone, List.lookup_append]
    · have htext : row'.text ≠ row.text := fun h => hrow (Row.text_injective h)
      simp [ofRows, hrow, List.lookup_append, SortedMap.lookup_cons_of_ne, htext]
  have hlisted : (ofRows (l ++ [(row.text, ps)])).listed = (ofRows l).listed := by
    simp [ofRows, List.lookup_append, SortedMap.lookup_cons_of_ne, hother]
  exact congrArg₂ Entries.mk (funext hrows) hlisted

/-- The entries of row U come in. -/
theorem ofRows_append_listed (us : List PointRecord) (hkey : Row.U.text ∉ l.map Prod.fst) :
    (ofRows l).listed = [] ∧
      ofRows (l ++ [(Row.U.text, us)]) = { ofRows l with listed := us } := by
  have hnone := lookup_eq_none hkey
  refine ⟨by simp [ofRows, hnone], ?_⟩
  have hrows (row : Row) : (ofRows (l ++ [(Row.U.text, us)])).rows row = (ofRows l).rows row := by
    by_cases hu : row = .U
    · simp [ofRows, hu]
    · have htext : row.text ≠ Row.U.text := fun h => hu (Row.text_injective h)
      simp [ofRows, hu, List.lookup_append, SortedMap.lookup_cons_of_ne, htext]
  have hlisted : (ofRows (l ++ [(Row.U.text, us)])).listed = us := by
    simp [ofRows, List.lookup_append, hnone]
  exact congrArg₂ Entries.mk (funext hrows) hlisted

end Entries

/-! ## Reading entries -/

namespace Draft

variable {r : Registry} {k : GraphKind} {es : Entries} {d d' : Draft} {row : Row}
  {ps us : List PointRecord} {x : PointRecord} {p dst src : EndPoint} {e : Ept} {g' : Graph}

/-- The draft has what the entries say. -/
structure Has (r : Registry) (k : GraphKind) (es : Entries) (d : Draft) : Prop where
  kind_eq : d.graph.kind = k
  hasRow_eq : ∀ row, d.graph.hasRow row = (es.rows row).isSome
  dst_iff : ∀ p e, d.graph.ept? .dst p = some e ↔ es.EptAt r .dst p e
  src_eq : ∀ row, d.graph.interface row .src = .empty
  wire_iff : ∀ dst src, d.graph.sourceOf? dst = some src ↔ es.Feeds dst src
  listed_iff : ∀ src e, d.listed.get? src = some e ↔ ∃ x, es.src? src = some x ∧ x.HasType r e
  /-- A source is noted only with a type. -/
  implied_ne : ∀ src, d.implied.get? src ≠ some []
  mem_implied : ∀ src e, e ∈ (d.implied.get? src).getD [] ↔ es.Consumed r src e
  wellFormed : es.WellFormed r

theorem has_nil (r : Registry) (k : GraphKind) :
    Has r k (.ofRows []) ⟨.ofKind k, .empty, .empty⟩ where
  kind_eq := rfl
  hasRow_eq row := by
    simp [Entries.ofRows]
    rfl
  dst_iff p e := by
    simp only [Entries.EptAt, Entries.dst?_ofRows_nil]
    exact iff_of_false nofun nofun
  src_eq _ := rfl
  wire_iff dst src := by
    simp only [Entries.Feeds, Entries.dst?_ofRows_nil]
    exact iff_of_false nofun nofun
  listed_iff src e := by simp
  implied_ne _ := nofun
  mem_implied src e := by simp [Entries.Consumed]
  wellFormed := ⟨by simp, by simp [Entries.ofRows]⟩

section Feed

variable {source : Option EndPoint} {a : Side}

theorem hasRow_feed : (d.feed g' dst e source).graph.hasRow row = g'.hasRow row := by
  cases source <;> rfl

theorem interface_feed :
    (d.feed g' dst e source).graph.interface row a = g'.interface row a := by
  cases source <;> rfl

theorem ept?_feed : (d.feed g' dst e source).graph.ept? a p = g'.ept? a p := by
  cases source <;> rfl

end Feed

/-- The entry of row U is well-formed if it can be read, and its type is listed then. -/
theorem addSource_eq_ok_iff : d.addSource r x = .ok d' ↔
    ∃ src e, x.Names src ∧ x.HasType r e ∧ d' = { d with listed := d.listed.insert src e } := by
  constructor
  · intro h
    unfold addSource at h
    obtain ⟨source, hsource, h⟩ := bind_eq_ok.mp h
    cases source with
    | none => cases h
    | some src =>
      obtain ⟨e, he, h⟩ := bind_eq_ok.mp h
      cases h
      exact ⟨src, e, PointRecord.source?_eq_some_iff.mp hsource, PointRecord.ept_eq_ok_iff.mp he,
        rfl⟩
  · rintro ⟨src, e, hsrc, he, rfl⟩
    unfold addSource
    rw [PointRecord.source?_eq_some_iff.mpr hsrc, PointRecord.ept_eq_ok_iff.mpr he]
    rfl

theorem addDestination_ok (h : d.addDestination r row x = .ok d') :
    ∃ e source n g', x.ept r = .ok e ∧ x.source? = .ok source ∧
      d.graph.push row .dst e = (.ok n, g') ∧ d' = d.feed g' ⟨row, n⟩ e source := by
  unfold addDestination at h
  obtain ⟨e, he, h⟩ := bind_eq_ok.mp h
  split at h
  · cases h
  · rename_i n g' hpush
    obtain ⟨source, hsource, h⟩ := bind_eq_ok.mp h
    refine ⟨e, source, n, g', he, hsource, hpush, ?_⟩
    cases source <;> cases h <;> rfl

theorem addRow_of_ne (hu : row ≠ .U) : d.addRow r (row.text, ps) =
    ps.foldlM (addDestination r row) { d with graph := d.graph.addRow row } := by
  unfold Draft.addRow
  simp only [Row.named_text, bind, Except.bind, if_neg hu]

theorem addRow_listed : d.addRow r (Row.U.text, us) = us.foldlM (addSource r) d := by
  unfold Draft.addRow
  simp only [Row.named_text, bind, Except.bind, if_true]

namespace Has

/-- As many destinations are there as entries. -/
theorem count_eq (h : Has r k (es.setRow row ps) d) : d.graph.count row .dst = ps.length := by
  have hiff (n : Nat) : n < d.graph.count row .dst ↔ n < ps.length := by
    have hept : (d.graph.ept? .dst ⟨row, n⟩).isSome ↔ (ps[n]?).isSome := by
      rw [Option.isSome_iff_exists, Option.isSome_iff_exists]
      constructor
      · rintro ⟨e, he⟩
        obtain ⟨x, hx, -⟩ := (h.dst_iff _ e).mp he
        exact ⟨x, (Entries.dst?_setRow_self n).symm.trans hx⟩
      · rintro ⟨x, hx⟩
        have hx' : (es.setRow row ps).dst? ⟨row, n⟩ = some x :=
          (Entries.dst?_setRow_self n).trans hx
        obtain ⟨e, he⟩ := (h.wellFormed.dst _ x hx').1
        exact ⟨e, (h.dst_iff _ e).mpr ⟨x, hx', he⟩⟩
    rw [isSome_getElem?] at hept
    exact Interface.get?_isSome_iff.symm.trans hept
  exact eq_of_forall_lt_iff hiff

/-- Reading reaches a row. -/
theorem addRow (h : Has r k es d) (hrow : es.rows row = none) :
    Has r k (es.setRow row []) { d with graph := d.graph.addRow row } where
  kind_eq := h.kind_eq
  hasRow_eq row' := by
    rw [Graph.hasRow_addRow, h.hasRow_eq, Entries.rows_setRow]
    by_cases heq : row' = row <;> simp [heq]
  dst_iff p e := by
    rw [Graph.ept?_of_interface_eq Graph.interface_addRow, h.dst_iff]
    simp only [Entries.EptAt, Entries.dst?_setRow_nil hrow]
  src_eq row' := Graph.interface_addRow.trans (h.src_eq row')
  wire_iff dst src := by
    simp only [Entries.Feeds, Entries.dst?_setRow_nil hrow]
    exact h.wire_iff dst src
  listed_iff := h.listed_iff
  implied_ne := h.implied_ne
  mem_implied src e := by
    simp only [Entries.Consumed, Entries.dst?_setRow_nil hrow]
    exact h.mem_implied src e
  wellFormed := by
    refine ⟨fun p x hx => ?_, h.wellFormed.listed⟩
    rw [Entries.dst?_setRow_nil hrow] at hx
    exact h.wellFormed.dst p x hx

/-- The next entry of a row is read. -/
theorem feed {source : Option EndPoint} {n : Nat} (h : Has r k (es.setRow row ps) d)
    (he : x.ept r = .ok e) (hsource : x.source? = .ok source)
    (hpush : d.graph.push row .dst e = (.ok n, g')) :
    Has r k (es.setRow row (ps ++ [x])) (d.feed g' ⟨row, n⟩ e source) := by
  have htype (e' : Ept) : x.HasType r e' ↔ e = e' := by
    rw [← PointRecord.ept_eq_ok_iff, he, Except.ok.injEq]
  have hnames (src : EndPoint) : x.Names src ↔ source = some src := by
    rw [← PointRecord.source?_eq_some_iff, hsource, Except.ok.injEq]
  -- The connections so far are made by entries before this one.
  have hfree : d.graph.sourceOf? ⟨row, ps.length⟩ = none := by
    rw [Option.eq_none_iff_forall_not_mem]
    intro src hsrc
    obtain ⟨y, hy, -⟩ := (h.wire_iff _ src).mp hsrc
    rw [Entries.dst?_setRow_self, List.getElem?_length] at hy
    cases hy
  obtain ⟨i', -, hn, hg'⟩ := Graph.push_ok hpush
  obtain rfl : n = ps.length := hn.trans h.count_eq
  refine ⟨?_, fun row' => ?_, fun p e' => ?_, fun row' => ?_, fun dst src => ?_, ?_, fun src => ?_,
    fun src e' => ?_, fun p y hy => ?_, h.wellFormed.listed⟩
  · rw [kind_feed, hg']
    exact h.kind_eq
  · rw [hasRow_feed, hg', Graph.hasRow_setSide, h.hasRow_eq, Entries.rows_setRow,
      Entries.rows_setRow]
    by_cases hrow : row' = row <;> simp [hrow]
  · rw [ept?_feed, Graph.ept?_push hpush, Entries.eptAt_dst_append]
    simp only [true_and]
    split
    · rw [htype, Option.some.injEq]
    · exact h.dst_iff p e'
  · rw [interface_feed, Graph.interface_push_of_ne (b := .src) hpush fun h => nomatch h.2]
    exact h.src_eq row'
  · rw [sourceOf?_feed (hg' ▸ hfree), Entries.feeds_append]
    split
    · exact (hnames src).symm
    · rw [hg']
      exact h.wire_iff dst src
  · rw [listed_feed]
    exact h.listed_iff
  · rw [implied_feed]
    split
    · simp
    · exact h.implied_ne src
  · rw [mem_implied_feed, h.mem_implied, Entries.consumed_append, hnames, htype, @eq_comm _ e]
  · rw [Entries.dst?_setRow_append] at hy
    split at hy
    · cases hy
      exact PointRecord.wellFormed_of_ok he hsource
    · exact h.wellFormed.dst p y hy

/-- The next entry of row U is read. -/
theorem list (h : Has r k { es with listed := us } d) (hsrc : x.Names src) (he : x.HasType r e) :
    Has r k { es with listed := us ++ [x] } { d with listed := d.listed.insert src e } where
  kind_eq := h.kind_eq
  hasRow_eq := h.hasRow_eq
  dst_iff := h.dst_iff
  src_eq := h.src_eq
  wire_iff := h.wire_iff
  listed_iff src' e' := by
    rw [SortedMap.get?_insert, Entries.src?_append]
    by_cases heq : src' = src
    · rw [if_pos heq, if_pos (heq ▸ hsrc), Option.some.injEq]
      constructor
      · rintro rfl
        exact ⟨x, rfl, he⟩
      · rintro ⟨y, hy, he'⟩
        cases hy
        exact he.unique he'
    · rw [if_neg heq, if_neg fun h => heq (h.unique hsrc)]
      exact h.listed_iff src' e'
  implied_ne := h.implied_ne
  mem_implied := h.mem_implied
  wellFormed := by
    refine ⟨h.wellFormed.dst, fun y hy => ?_⟩
    rcases List.mem_append.mp hy with hy | hy
    · exact h.wellFormed.listed y hy
    · rw [List.mem_singleton.mp hy]
      exact ⟨⟨e, he⟩, src, hsrc⟩

/-- The destinations of a row are in the draft if they could all be read. -/
theorem addDestinations_ok (h : Has r k (es.setRow row []) d)
    (hfold : ps.foldlM (Draft.addDestination r row) d = .ok d') :
    Has r k (es.setRow row ps) d' := by
  refine foldlM_ok (fun pre d => Has r k (es.setRow row pre) d) h ?_ hfold
  intro pre x post d₁ d₂ _ h₁ hadd
  obtain ⟨e, source, n, g', he, hsource, hpush, rfl⟩ := addDestination_ok hadd
  exact h₁.feed he hsource hpush

/-- The destinations of a row can all be read if they are well-formed and fit. -/
theorem addDestinations_total (h : Has r k (es.setRow row []) d)
    (hwf : ∀ x ∈ ps, x.WellFormed r)
    (hfits : TypesFit fun n e => (es.setRow row ps).EptAt r .dst ⟨row, n⟩ e) :
    ∃ d', ps.foldlM (Draft.addDestination r row) d = .ok d' ∧ Has r k (es.setRow row ps) d' := by
  refine foldlM_eq_ok (fun pre d => Has r k (es.setRow row pre) d) h ?_
  intro pre x post d₁ hps h₁
  have hx : x.WellFormed r := hwf x (by simp [hps])
  obtain ⟨e, he⟩ := hx.1
  obtain ⟨source, hsource⟩ := hx.source?_ok
  have hentry (n : Nat) (y : PointRecord) (hy : (pre ++ [x])[n]? = some y) :
      (es.setRow row ps).dst? ⟨row, n⟩ = some y := by
    rw [Entries.dst?_setRow_self, hps, ← List.singleton_append, ← List.append_assoc,
      List.getElem?_append_left (List.getElem?_eq_some_iff.mp hy).1, hy]
  obtain ⟨g', hpush⟩ : ∃ g', d₁.graph.push row .dst e = (.ok (d₁.graph.count row .dst), g') := by
    refine Graph.push_of_typesFit hfits (fun n e' hn => ?_) ⟨x, hentry _ x ?_, he⟩
    · obtain ⟨y, hy, he'⟩ := (h₁.dst_iff _ e').mp hn
      rw [Entries.dst?_setRow_self] at hy
      refine ⟨y, hentry n y ?_, he'⟩
      rw [List.getElem?_append_left (List.getElem?_eq_some_iff.mp hy).1, hy]
    · rw [h₁.count_eq, List.getElem?_concat_length]
  have he' := PointRecord.ept_eq_ok_iff.mpr he
  exact ⟨_, addDestination_eq he' hpush hsource, h₁.feed he' hsource hpush⟩

/-- The sources of row U are in the draft if they could all be read. -/
theorem addSources_ok (h : Has r k { es with listed := [] } d)
    (hfold : us.foldlM (Draft.addSource r) d = .ok d') :
    Has r k { es with listed := us } d' := by
  refine foldlM_ok (fun pre d => Has r k { es with listed := pre } d) h ?_ hfold
  intro pre x post d₁ d₂ _ h₁ hadd
  obtain ⟨src, e, hsrc, he, rfl⟩ := addSource_eq_ok_iff.mp hadd
  exact h₁.list hsrc he

/-- The sources of row U can all be read if their entries are well-formed. -/
theorem addSources_total (h : Has r k { es with listed := [] } d)
    (hwf : ∀ x ∈ us, (∃ e, x.HasType r e) ∧ ∃ src, x.Names src) :
    ∃ d', us.foldlM (Draft.addSource r) d = .ok d' ∧ Has r k { es with listed := us } d' := by
  refine foldlM_eq_ok (fun pre d => Has r k { es with listed := pre } d) h ?_
  intro pre x post d₁ hus h₁
  obtain ⟨⟨e, he⟩, src, hsrc⟩ := hwf x (by simp [hus])
  exact ⟨_, addSource_eq_ok_iff.mpr ⟨src, e, hsrc, he, rfl⟩, h₁.list hsrc he⟩

end Has

end Draft

/-! ## Reading documents -/

/-- The entries of a document. -/
def GraphRecord.entries (doc : GraphRecord) : Entries := .ofRows doc.rows.toList

namespace Entries

variable {doc : GraphRecord} {row : Row} {ps : List PointRecord}

theorem ofRows_listed (h : (Row.U.text, ps) ∈ doc.rows.toList) : doc.entries.listed = ps := by
  have hps : doc.rows.toList.lookup Row.U.text = some ps := SortedMap.get?_eq_some_iff.mpr h
  simp [GraphRecord.entries, ofRows, hps]

theorem ofRows_rows (h : (row.text, ps) ∈ doc.rows.toList) (hu : row ≠ .U) :
    doc.entries.rows row = some ps := by
  have hps : doc.rows.toList.lookup row.text = some ps := SortedMap.get?_eq_some_iff.mpr h
  simp [GraphRecord.entries, ofRows, hps, hu]

end Entries

namespace Draft

variable {r : Registry} {k : GraphKind} {doc : GraphRecord} {d : Draft}

/-- If the rows of a document could be read, the draft has what its entries say. -/
theorem has_of_read
    (h : doc.rows.toList.foldlM (Draft.addRow r) ⟨.ofKind k, .empty, .empty⟩ = .ok d) :
    (∀ key ∈ doc.rows.keys, ∃ row : Row, key = row.text) ∧ Has r k doc.entries d := by
  have hfold := foldlM_ok (fun pre d =>
    (∀ key ∈ pre.map Prod.fst, ∃ row : Row, key = row.text) ∧ Has r k (.ofRows pre) d)
    ⟨nofun, has_nil r k⟩ ?_ h
  · exact hfold
  rintro pre ⟨key, ps⟩ post d₁ d₂ hl ⟨hkeys, h₁⟩ hadd
  have hkey := SortedMap.not_mem_before hl
  obtain ⟨row, hrow, -⟩ := bind_eq_ok.mp hadd
  obtain rfl : key = row.text := Row.named_eq_ok_iff.mp hrow
  refine ⟨?_, ?_⟩
  · rw [List.map_append, List.map_singleton]
    exact List.forall_mem_append.mpr ⟨hkeys, List.forall_mem_singleton.mpr ⟨row, rfl⟩⟩
  · by_cases hu : row = .U
    · subst hu
      rw [addRow_listed] at hadd
      obtain ⟨hlisted, heq⟩ := Entries.ofRows_append_listed ps hkey
      rw [heq]
      refine Has.addSources_ok ?_ hadd
      rw [← hlisted]
      exact h₁
    · rw [addRow_of_ne hu] at hadd
      obtain ⟨hnone, heq⟩ := Entries.ofRows_append_row ps hkey hu
      rw [heq]
      exact (h₁.addRow hnone).addDestinations_ok hadd

/-- The rows of a document can be read if they are known, the entries are well-formed and the
destinations fit. -/
theorem exists_has (hkeys : ∀ key ∈ doc.rows.keys, ∃ row : Row, key = row.text)
    (hwf : doc.entries.WellFormed r)
    (hfits : ∀ row, TypesFit fun n e => doc.entries.EptAt r .dst ⟨row, n⟩ e) :
    ∃ d, doc.rows.toList.foldlM (Draft.addRow r) ⟨.ofKind k, .empty, .empty⟩ = .ok d ∧
      Has r k doc.entries d := by
  refine foldlM_eq_ok (fun pre d => Has r k (.ofRows pre) d) (has_nil r k) ?_
  rintro pre ⟨key, ps⟩ post d₁ hl h₁
  have hkey := SortedMap.not_mem_before hl
  have hmem : (key, ps) ∈ doc.rows.toList := by simp [hl]
  obtain ⟨row, rfl⟩ := hkeys key (List.mem_map_of_mem hmem)
  by_cases hu : row = .U
  · subst hu
    obtain ⟨hlisted, heq⟩ := Entries.ofRows_append_listed ps hkey
    rw [addRow_listed, heq]
    refine Has.addSources_total (hlisted ▸ h₁) ?_
    rw [← Entries.ofRows_listed hmem]
    exact hwf.listed
  · obtain ⟨hnone, heq⟩ := Entries.ofRows_append_row ps hkey hu
    rw [addRow_of_ne hu, heq]
    have hrows (n : Nat) : doc.entries.dst? ⟨row, n⟩ = ps[n]? := by
      rw [Entries.dst?, Entries.ofRows_rows hmem hu, Option.bind_some]
    refine (h₁.addRow hnone).addDestinations_total (fun x hx => ?_) fun l hl => hfits row l ?_
    · obtain ⟨n, hn⟩ := List.mem_iff_getElem?.mp hx
      exact hwf.dst ⟨row, n⟩ x ((hrows n).trans hn)
    · intro n e hn
      obtain ⟨x, hx, he⟩ := hl n e hn
      rw [Entries.dst?_setRow_self] at hx
      exact ⟨x, (hrows n).trans hx, he⟩

end Draft

end GeneGraph
