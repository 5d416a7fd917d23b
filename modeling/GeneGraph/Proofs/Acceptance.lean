import GeneGraph.Proofs.Documents
import GeneGraph.Proofs.Drafts

/-!
# Which documents are read

A document is read exactly if it is `GraphRecord.Consistent`, and the graph that comes out is the
one that it describes (`GraphRecord.toGraph_iff`).

The types of all sources are found if the consumers of each source agree
(`Draft.Has.sources_total`). The sources then come in the order of their names, so each is the
next one of its row if no index is missing (`Graph.exists_supplied`).
-/

namespace GeneGraph

/-! ## Types of sources -/

namespace Entries

variable {r : Registry} {es : Entries} {src : EndPoint} {e e' : Ept}

/-- The consumers of a source that row U does not name have one type. -/
def Agree (r : Registry) (es : Entries) : Prop :=
  ∀ src e e', es.src? src = none → es.Consumed r src e → es.Consumed r src e' → e = e'

/-- Row U or a destination names the source. -/
def Names (es : Entries) (src : EndPoint) : Prop :=
  (∃ x ∈ es.listed, x.Names src) ∨ ∃ dst, es.Feeds dst src

theorem Agree.unique (ha : es.Agree r) (h : es.EptAt r .src src e)
    (h' : es.EptAt r .src src e') : e = e' := by
  rcases h with ⟨x, hx, he⟩ | ⟨hnone, he⟩
  · rcases h' with ⟨x', hx', he'⟩ | ⟨hnone', -⟩
    · rw [hx, Option.some.injEq] at hx'
      exact he.unique (hx' ▸ he')
    · rw [hx] at hnone'
      cases hnone'
  · rcases h' with ⟨x', hx', -⟩ | ⟨-, he'⟩
    · rw [hnone] at hx'
      cases hx'
    · exact ha src e e' hnone he he'

/-- The sources that are named are those that have a type. -/
theorem WellFormed.names_iff (h : es.WellFormed r) :
    es.Names src ↔ ∃ e, es.EptAt r .src src e := by
  constructor
  · intro hnames
    cases hsrc : es.src? src with
    | some x =>
      obtain ⟨e, he⟩ := (h.listed x (mem_of_src? hsrc).1).1
      exact ⟨e, Or.inl ⟨x, hsrc, he⟩⟩
    | none =>
      rcases hnames with ⟨x, hx, hxsrc⟩ | ⟨dst, x, hx, hxsrc⟩
      · exact absurd hxsrc (src?_eq_none_iff.mp hsrc x hx)
      · obtain ⟨e, he⟩ := (h.dst dst x hx).1
        exact ⟨e, Or.inr ⟨hsrc, dst, x, hx, hxsrc, he⟩⟩
  · rintro ⟨e, ⟨x, hx, -⟩ | ⟨-, dst, x, hx, hxsrc, -⟩⟩
    · exact Or.inl ⟨x, mem_of_src? hx⟩
    · exact Or.inr ⟨dst, x, hx, hxsrc⟩

/-- A map with the types of the sources has the sources that are named. -/
theorem WellFormed.isSome_iff {m : SortedMap EndPoint Ept} (h : es.WellFormed r)
    (hm : ∀ src e, m.get? src = some e ↔ es.EptAt r .src src e) :
    (m.get? src).isSome ↔ es.Names src := by
  rw [h.names_iff, Option.isSome_iff_exists]
  exact exists_congr (hm src)

end Entries

namespace Draft

variable {r : Registry} {k : GraphKind} {es : Entries} {d : Draft} {src : EndPoint} {e : Ept}
  {epts : List Ept} {m : SortedMap EndPoint Ept}

/-- A source has the type that is listed for it, or the one type of all its consumers. -/
theorem impliedEpt_eq_ok_iff : d.impliedEpt src epts = .ok e ↔
    d.listed.get? src = some e ∨
      d.listed.get? src = none ∧ epts ≠ [] ∧ ∀ e' ∈ epts, e' = e := by
  unfold impliedEpt
  cases d.listed.get? src with
  | some e' => simp
  | none =>
    cases epts with
    | nil => simp
    | cons a rest =>
      simp only
      by_cases hall : ∀ e' ∈ rest, e' = a
      · rw [if_pos (by simpa using hall), Except.ok.injEq]
        constructor
        · rintro rfl
          exact Or.inr ⟨trivial, List.cons_ne_nil a rest, List.forall_mem_cons.mpr ⟨rfl, hall⟩⟩
        · rintro (hsome | ⟨-, -, h⟩)
          · cases hsome
          · exact h a List.mem_cons_self
      · rw [if_neg (by simpa using hall)]
        refine iff_of_false nofun ?_
        rintro (hsome | ⟨-, -, h⟩)
        · cases hsome
        · obtain ⟨ha, hrest⟩ := List.forall_mem_cons.mp h
          exact hall fun e' he' => (hrest e' he').trans ha.symm

namespace Has

theorem listed_eq_none_iff (h : Has r k es d) :
    d.listed.get? src = none ↔ es.src? src = none := by
  constructor
  · intro hnone
    cases hsrc : es.src? src with
    | none => rfl
    | some x =>
      obtain ⟨e, he⟩ := (h.wellFormed.listed x (Entries.mem_of_src? hsrc).1).1
      rw [(h.listed_iff src e).mpr ⟨x, hsrc, he⟩] at hnone
      cases hnone
  · intro hnone
    cases hlisted : d.listed.get? src with
    | none => rfl
    | some e =>
      obtain ⟨x, hx, -⟩ := (h.listed_iff src e).mp hlisted
      rw [hnone] at hx
      cases hx

/-- A source with consumers is noted. -/
theorem exists_implied (h : Has r k es d) (hsrc : es.Consumed r src e) :
    ∃ epts, d.implied.get? src = some epts ∧ e ∈ epts := by
  have hmem := (h.mem_implied src e).mpr hsrc
  cases hnoted : d.implied.get? src with
  | none =>
    rw [hnoted] at hmem
    cases hmem
  | some epts =>
    rw [hnoted] at hmem
    exact ⟨epts, rfl, hmem⟩

theorem mem_implied_iff (h : Has r k es d) (hsrc : d.implied.get? src = some epts) :
    e ∈ epts ↔ es.Consumed r src e := by
  rw [← h.mem_implied, hsrc, Option.getD_some]

/-- A source that is noted gets its type if its consumers agree. -/
theorem impliedEpt_total (h : Has r k es d) (ha : es.Agree r)
    (hsrc : d.implied.get? src = some epts) :
    ∃ e, d.impliedEpt src epts = .ok e ∧ es.EptAt r .src src e := by
  cases hlisted : d.listed.get? src with
  | some e =>
    exact ⟨e, impliedEpt_eq_ok_iff.mpr (Or.inl hlisted), Or.inl ((h.listed_iff src e).mp hlisted)⟩
  | none =>
    have hnone := h.listed_eq_none_iff.mp hlisted
    obtain ⟨e, rest, rfl⟩ := List.exists_cons_of_ne_nil fun hnil => h.implied_ne src (hnil ▸ hsrc)
    have he : es.Consumed r src e := (h.mem_implied_iff hsrc).mp List.mem_cons_self
    refine ⟨e, impliedEpt_eq_ok_iff.mpr (Or.inr ⟨hlisted, List.cons_ne_nil e rest, ?_⟩),
      Or.inr ⟨hnone, he⟩⟩
    intro e' he'
    exact ha src e' e hnone ((h.mem_implied_iff hsrc).mp he') he

/-- The types of all sources are found if the consumers agree. -/
theorem sources_total (h : Has r k es d) (ha : es.Agree r) :
    ∃ m, d.sources = .ok m ∧ ∀ src e, m.get? src = some e ↔ es.EptAt r .src src e := by
  obtain ⟨m, hm, hsources⟩ := exists_sources (P := es.EptAt r .src)
    fun src epts hsrc => h.impliedEpt_total ha hsrc
  refine ⟨m, hm, fun src e => ?_⟩
  rcases hsources src with ⟨e', he', hept⟩ | ⟨hlisted, hnone⟩
  · rw [he', Option.some.injEq]
    exact ⟨fun heq => heq ▸ hept, ha.unique hept⟩
  · rw [hlisted, h.listed_iff]
    refine ⟨Or.inl, fun he => he.resolve_right fun hcons => ?_⟩
    obtain ⟨epts, hepts, -⟩ := h.exists_implied hcons.2
    rw [hnone] at hepts
    cases hepts

/-- The consumers agree if the types of all sources are found. -/
theorem agree_of_sources (h : Has r k es d) (hm : d.sources = .ok m) : es.Agree r := by
  intro src e e' hnone he he'
  rw [sources_eq] at hm
  obtain ⟨ys, hys, -⟩ := bind_eq_ok.mp hm
  obtain ⟨epts, hepts, hmem⟩ := h.exists_implied he
  obtain ⟨y, hy⟩ := exists_of_mapM_ok hys (src, epts) (SortedMap.get?_eq_some_iff.mp hepts)
  obtain ⟨e₀, hept, -⟩ := bind_eq_ok.mp hy
  rcases impliedEpt_eq_ok_iff.mp hept with hlisted | ⟨-, -, hall⟩
  · rw [h.listed_eq_none_iff.mpr hnone] at hlisted
    cases hlisted
  · exact (hall e hmem).trans (hall e' ((h.mem_implied_iff hepts).mpr he')).symm

end Has

end Draft

/-! ## Adding the sources -/

namespace Graph

variable {g g' g'' : Graph} {l : List (EndPoint × Ept)} {m : SortedMap EndPoint Ept}
  {src : EndPoint} {row : Row} {k : Nat} {e : Ept}

/-- `g'` is `g` with the sources of the list. -/
structure Supplied (g : Graph) (l : List (EndPoint × Ept)) (g' : Graph) : Prop where
  kind_eq : g'.kind = g.kind
  wires_eq : g'.wires = g.wires
  dst_eq : ∀ row, g'.interface row .dst = g.interface row .dst
  hasRow_iff : ∀ row, g'.hasRow row = true ↔
    g.hasRow row = true ∨ ∃ k, ⟨row, k⟩ ∈ l.map Prod.fst
  src_iff : ∀ p e, g'.ept? .src p = some e ↔ (p, e) ∈ l

/-- A source is added if its index is the next one. -/
theorem addSource_eq_ok_iff :
    g.addSource src e = .ok g' ↔ g.push src.row .src e = (.ok src.index, g') := by
  unfold addSource
  constructor
  · intro h
    split at h
    · rename_i hnext
      split at h
      · cases h
      · rename_i n g₁ hpush
        cases h
        obtain ⟨-, -, hn, -⟩ := push_ok hpush
        rw [hpush, hn, hnext]
    · cases h
  · intro h
    obtain ⟨-, -, hn, -⟩ := push_ok h
    rw [if_pos hn, h]

/-- Graphs with the same interfaces in a row have the same row. -/
theorem row?_eq_of_interface_eq (hrow : g.hasRow row = g'.hasRow row)
    (h : ∀ a, g.interface row a = g'.interface row a) : g.row? row = g'.row? row := by
  rw [hasRow, hasRow] at hrow
  cases hs : g.row? row with
  | none =>
    rw [hs] at hrow
    exact (Option.not_isSome_iff_eq_none.mp (Bool.eq_false_iff.mp hrow.symm)).symm
  | some s =>
    rw [hs] at hrow
    obtain ⟨s', hs'⟩ := Option.isSome_iff_exists.mp hrow.symm
    rw [hs']
    refine congrArg some (Sides.ext fun a => ?_)
    rw [← interface_of_row? hs, ← interface_of_row? hs']
    exact h a

namespace Supplied

theorem nil (h : ∀ row, g.interface row .src = .empty) : Supplied g [] g where
  kind_eq := rfl
  wires_eq := rfl
  dst_eq _ := rfl
  hasRow_iff row := by simp
  src_iff p e := by simp [ept?, h, Interface.get?, Interface.empty]

/-- Another source is added. -/
theorem addSource (h : Supplied g l g') (hadd : g'.addSource src e = .ok g'') :
    Supplied g (l ++ [(src, e)]) g'' := by
  have hpush := addSource_eq_ok_iff.mp hadd
  obtain ⟨i', -, hindex, rfl⟩ := push_ok hpush
  -- A source that was added before has a smaller index than the next one.
  have hfresh (e' : Ept) : (src, e') ∉ l := by
    intro hmem
    have hsome := Option.isSome_of_eq_some ((h.src_iff src e').mpr hmem)
    exact Nat.ne_of_lt (Interface.get?_isSome_iff.mp hsome) hindex
  refine ⟨h.kind_eq, h.wires_eq, fun row => ?_, fun row => ?_, fun p e' => ?_⟩
  · rw [interface_push_of_ne (b := .dst) hpush fun h => nomatch h.2]
    exact h.dst_eq row
  · rw [hasRow_setSide, Bool.or_eq_true, decide_eq_true_iff, h.hasRow_iff]
    have hnew : (∃ k, (⟨row, k⟩ : EndPoint) = src) ↔ row = src.row :=
      ⟨fun ⟨_, h⟩ => congrArg EndPoint.row h, fun h => ⟨src.index, EndPoint.ext h rfl⟩⟩
    simp only [List.map_append, List.mem_append, List.map_singleton, List.mem_singleton, exists_or,
      hnew]
    rw [or_left_comm, or_comm (a := row = src.row)]
  · rw [ept?_push hpush, List.mem_append, List.mem_singleton, Prod.mk.injEq]
    by_cases hp : p = src
    · subst hp
      simp [hfresh, eq_comm]
    · rw [if_neg fun h => hp h.2, h.src_iff]
      simp [hp]

/-- The next source has the index after those of its row. -/
theorem count_eq (h : Supplied g l g') (hk : ∀ n, ⟨row, n⟩ ∈ l.map Prod.fst ↔ n < k) :
    g'.count row .src = k := by
  have hiff (n : Nat) : n < g'.count row .src ↔ n < k := by
    rw [← hk, count, ← Interface.get?_isSome_iff, Option.isSome_iff_exists, List.mem_map]
    show (∃ e, g'.ept? .src ⟨row, n⟩ = some e) ↔ _
    simp only [h.src_iff]
    constructor
    · rintro ⟨e, he⟩
      exact ⟨_, he, rfl⟩
    · rintro ⟨⟨_, e⟩, he, rfl⟩
      exact ⟨e, he⟩
  exact eq_of_forall_lt_iff hiff

end Supplied

/-- If the sources could all be added, they are the sources of the graph. -/
theorem supplied_of_foldlM (h : ∀ row, g.interface row .src = .empty)
    (hfold : l.foldlM (fun g x => g.addSource x.1 x.2) g = .ok g') : Supplied g l g' :=
  foldlM_ok (Supplied g) (.nil h) (fun _ _ _ _ _ _ hs hadd => hs.addSource hadd) hfold

/-- The sources can all be added if none is missing and they fit. -/
theorem exists_supplied (h : ∀ row, g.interface row .src = .empty)
    (hbelow : ∀ row k, (m.get? ⟨row, k⟩).isSome → ∀ n < k, (m.get? ⟨row, n⟩).isSome)
    (hfits : ∀ row, TypesFit fun k e => m.get? ⟨row, k⟩ = some e) :
    ∃ g', m.toList.foldlM (fun g x => g.addSource x.1 x.2) g = .ok g' := by
  suffices hfold : ∃ g', _ ∧ Supplied g m.toList g' from hfold.imp fun _ => And.left
  refine foldlM_eq_ok (Supplied g) (.nil h) ?_
  rintro pre ⟨⟨row, k⟩, e⟩ post g₁ hl h₁
  have he : m.get? ⟨row, k⟩ = some e := by
    rw [SortedMap.get?_eq_some_iff, hl]
    simp
  -- The sources before this one in the order of the names are those before it in its row.
  have hcount : g₁.count row .src = k :=
    h₁.count_eq (mem_before_iff hl (hbelow row k (Option.isSome_of_eq_some he)))
  obtain ⟨g₂, hpush⟩ := push_of_typesFit (hfits row) (g := g₁) (a := .src) (e := e)
    (fun n e' hn => by
      rw [SortedMap.get?_eq_some_iff, hl]
      exact List.mem_append_left _ ((h₁.src_iff _ e').mp hn))
    (hcount ▸ he)
  rw [hcount] at hpush
  have hadd : g₁.addSource ⟨row, k⟩ e = .ok g₂ := addSource_eq_ok_iff.mpr hpush
  exact ⟨g₂, hadd, h₁.addSource hadd⟩

end Graph

/-! ## Consistent documents -/

namespace GraphRecord

variable {r : Registry} {doc : GraphRecord} {g g' : Graph}

/-- What a document has to be for a graph to be read from it. -/
structure Consistent (r : Registry) (doc : GraphRecord) : Prop where
  kind_known : ∃ k : GraphKind, doc.kind = k.text
  rows_known : ∀ key ∈ doc.rows.keys, ∃ row : Row, key = row.text
  wellFormed : doc.entries.WellFormed r
  /-- No side of a row has too many elements. -/
  fits : ∀ a row, TypesFit fun k e => doc.entries.EptAt r a ⟨row, k⟩ e
  agree : doc.entries.Agree r
  /-- The sources that are named have the first indices of their rows. -/
  contiguous : ∀ row, ∃ n, ∀ k, doc.entries.Names ⟨row, k⟩ ↔ k < n

/-- The graph has what the document says, and nothing else. -/
structure Describes (r : Registry) (doc : GraphRecord) (g : Graph) : Prop where
  kind_eq : doc.kind = g.kind.text
  /-- The rows of the document but U, and the rows of the sources. -/
  hasRow_iff : ∀ row, g.hasRow row = true ↔
    (doc.entries.rows row).isSome ∨ ∃ k, doc.entries.Names ⟨row, k⟩
  ept_iff : ∀ a p e, g.ept? a p = some e ↔ doc.entries.EptAt r a p e
  wire_iff : ∀ dst src, g.sourceOf? dst = some src ↔ doc.entries.Feeds dst src
  anchored : g.Anchored

namespace Describes

/-- A document describes one graph only. -/
theorem unique (h : doc.Describes r g) (h' : doc.Describes r g') : g = g' := by
  have hkind : g.kind = g'.kind := GraphKind.text_injective (h.kind_eq.symm.trans h'.kind_eq)
  have hinterface (row : Row) (a : Side) : g.interface row a = g'.interface row a := by
    refine Interface.ext (List.ext_getElem? fun k => Option.ext fun e => ?_)
    exact (h.ept_iff a ⟨row, k⟩ e).trans (h'.ept_iff a ⟨row, k⟩ e).symm
  have hrows : g.rows = g'.rows := by
    refine SortedMap.ext fun row => Graph.row?_eq_of_interface_eq ?_ (hinterface row)
    exact Bool.eq_iff_iff.mpr ((h.hasRow_iff row).trans (h'.hasRow_iff row).symm)
  have hwires : g.wires = g'.wires := by
    refine SortedMap.ext fun dst => Option.ext fun src => ?_
    exact (h.wire_iff dst src).trans (h'.wire_iff dst src).symm
  exact Graph.ext_iff.mpr ⟨hkind, hrows, hwires⟩

/-- The interfaces of the graph are those of the document, so these fit. -/
theorem fits (h : doc.Describes r g) (a : Side) (row : Row) :
    TypesFit fun k e => doc.entries.EptAt r a ⟨row, k⟩ e := by
  intro l hl
  -- The types of the document are the front of the interface that the graph has.
  have htake : l = (g.interface row a).epts.take l.length := by
    refine List.ext_getElem? fun k => ?_
    rw [List.getElem?_take]
    split
    · rename_i hk
      have hlk : l[k]? = some l[k] := List.getElem?_eq_getElem hk
      rw [hlk]
      exact ((h.ept_iff a ⟨row, k⟩ l[k]).mpr (hl k l[k] hlk)).symm
    · rename_i hk
      exact List.getElem?_eq_none (Nat.le_of_not_lt hk)
  rw [htake]
  exact Nat.le_trans (Interface.elementsOf_take_le _ _) (g.interface row a).fits

/-- The sources that are named are those of the graph. -/
theorem names_iff (h : doc.Describes r g) (hwf : doc.entries.WellFormed r) {src : EndPoint} :
    doc.entries.Names src ↔ g.exists? .src src = true := by
  rw [hwf.names_iff, Graph.exists?_iff, Option.isSome_iff_exists]
  exact exists_congr fun e => (h.ept_iff .src src e).symm

theorem contiguous (h : doc.Describes r g) (hwf : doc.entries.WellFormed r) (row : Row) :
    ∃ n, ∀ k, doc.entries.Names ⟨row, k⟩ ↔ k < n :=
  ⟨g.count row .src, fun _ => (h.names_iff hwf).trans decide_eq_true_iff⟩

end Describes

/-- A draft of the document with all the sources is the graph that the document describes. -/
theorem describes_of_supplied {k : GraphKind} {d : Draft} {m : SortedMap EndPoint Ept}
    (hd : d.Has r k doc.entries) (hk : doc.kind = k.text)
    (hget : ∀ src e, m.get? src = some e ↔ doc.entries.EptAt r .src src e)
    (hg : d.graph.Supplied m.toList g) : doc.Describes r g := by
  have hnames (src : EndPoint) : src ∈ m.toList.map Prod.fst ↔ doc.entries.Names src :=
    SortedMap.mem_keys.trans (hd.wellFormed.isSome_iff hget)
  have hept (a : Side) (p : EndPoint) (e : Ept) :
      g.ept? a p = some e ↔ doc.entries.EptAt r a p e := by
    cases a with
    | dst =>
      rw [Graph.ept?_of_interface_eq (hg.dst_eq p.row)]
      exact hd.dst_iff p e
    | src => rw [hg.src_iff, ← SortedMap.get?_eq_some_iff, hget]
  have hwire (dst src : EndPoint) : g.sourceOf? dst = some src ↔ doc.entries.Feeds dst src := by
    rw [Graph.sourceOf?, hg.wires_eq]
    exact hd.wire_iff dst src
  refine ⟨?_, fun row => ?_, hept, hwire, fun dst src hsrc => ?_⟩
  · rw [hg.kind_eq, hd.kind_eq, hk]
  · rw [hg.hasRow_iff, hd.hasRow_eq]
    simp only [hnames]
  · obtain ⟨x, hx, hxsrc⟩ := (hwire dst src).mp hsrc
    obtain ⟨e, he⟩ := (hd.wellFormed.dst dst x hx).1
    obtain ⟨e', he'⟩ := hd.wellFormed.names_iff.mp (Or.inr ⟨dst, x, hx, hxsrc⟩)
    rw [Graph.exists?_iff, Graph.exists?_iff, (hept .dst dst e).mpr ⟨x, hx, he⟩,
      (hept .src src e').mpr he']
    exact ⟨rfl, rfl⟩

/-- A graph can be read from a consistent document. -/
theorem Consistent.exists_graph (h : doc.Consistent r) : ∃ g, doc.toGraph r = .ok g := by
  obtain ⟨k, hk⟩ := h.kind_known
  obtain ⟨d, hfold, hd⟩ :=
    Draft.exists_has (k := k) h.rows_known h.wellFormed (h.fits .dst)
  obtain ⟨m, hm, hget⟩ := hd.sources_total h.agree
  have hbelow (row : Row) (k : Nat) (hsome : (m.get? ⟨row, k⟩).isSome) (n : Nat) (hn : n < k) :
      (m.get? ⟨row, n⟩).isSome := by
    obtain ⟨c, hc⟩ := h.contiguous row
    rw [h.wellFormed.isSome_iff hget, hc] at hsome ⊢
    exact Nat.lt_trans hn hsome
  have hfits (row : Row) : TypesFit fun k e => m.get? ⟨row, k⟩ = some e := by
    simp only [hget]
    exact h.fits .src row
  obtain ⟨g, hg⟩ := Graph.exists_supplied hd.src_eq hbelow hfits
  refine ⟨g, ?_⟩
  unfold toGraph
  simp only [hk, GraphKind.named_text, bind, Except.bind, hfold, hm]
  exact hg

/-- A graph that is read from a document is the one it describes, and the document is consistent. -/
theorem of_toGraph (h : doc.toGraph r = .ok g) : doc.Consistent r ∧ doc.Describes r g := by
  unfold toGraph at h
  obtain ⟨k, hk, h⟩ := bind_eq_ok.mp h
  obtain ⟨d, hfold, h⟩ := bind_eq_ok.mp h
  obtain ⟨m, hm, h⟩ := bind_eq_ok.mp h
  obtain ⟨hkeys, hd⟩ := Draft.has_of_read hfold
  have hagree := hd.agree_of_sources hm
  obtain ⟨m', hm', hget⟩ := hd.sources_total hagree
  obtain rfl : m = m' := Except.ok.inj (hm.symm.trans hm')
  have hg := Graph.supplied_of_foldlM hd.src_eq h
  have hdescribes := describes_of_supplied hd (GraphKind.named_eq_ok_iff.mp hk) hget hg
  exact ⟨⟨⟨k, GraphKind.named_eq_ok_iff.mp hk⟩, hkeys, hd.wellFormed, hdescribes.fits, hagree,
    hdescribes.contiguous hd.wellFormed⟩, hdescribes⟩

/-- A graph is read from exactly the consistent documents, and it is the graph that the document
describes. -/
theorem toGraph_iff (doc : GraphRecord) (r : Registry) :
    ((∃ g, doc.toGraph r = .ok g) ↔ doc.Consistent r) ∧
      ∀ g, doc.toGraph r = .ok g ↔ doc.Consistent r ∧ doc.Describes r g := by
  refine ⟨⟨fun ⟨g, hg⟩ => (of_toGraph hg).1, Consistent.exists_graph⟩, fun g => ⟨of_toGraph, ?_⟩⟩
  rintro ⟨hdoc, hg⟩
  obtain ⟨g', hg'⟩ := hdoc.exists_graph
  rw [hg', hg.unique (of_toGraph hg').2]

end GraphRecord

end GeneGraph
