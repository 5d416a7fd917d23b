import GeneGraph.Proofs.Checks
import GeneGraph.Proofs.Freezing
import GeneGraph.Proofs.Records

/-!
# Reading the document of a graph

While the document of a graph is read, each row of the draft has the first destinations of the
row of the graph, connected as they are there (`Draft.Reads`). The rows come in the order of
their names. At the end the draft has all rows, destinations and connections, and it knows which
types the consumers of a source have (`Draft.read_toRecord`); what is missing are the sources.
-/

namespace GeneGraph

/-! ## Names -/

namespace Row

theorem named_text (row : Row) : named row.text = .ok row := by cases row <;> rfl

theorem text_injective {row row' : Row} (h : row.text = row'.text) : row = row' := by
  have hnamed := row.named_text
  rw [h, row'.named_text] at hnamed
  exact (Except.ok.inj hnamed).symm

end Row

namespace GraphKind

theorem named_text (k : GraphKind) : named k.text = .ok k := by cases k <;> rfl

theorem text_injective {k k' : GraphKind} (h : k.text = k'.text) : k = k' := by
  have hnamed := k.named_text
  rw [h, k'.named_text] at hnamed
  exact (Except.ok.inj hnamed).symm

end GraphKind

/-! ## Types -/

namespace Registry

variable {r : Registry} {us : List TypeUid} {e : Ept}

theorem checkAll_eq_ok (h : ∀ u ∈ us, r.contains u = true) : r.checkAll us = .ok () := by
  induction us with
  | nil => rfl
  | cons u us ih =>
    rw [checkAll, if_pos (h u List.mem_cons_self), ih fun v hv => h v (List.mem_cons_of_mem u hv)]

/-- The flat form of a registered type is read back. -/
theorem decode_flat (h : ∀ u ∈ e.flat, r.contains u = true) : r.decode e.flat = .ok e := by
  have hread := Ept.readOne_flat_append e []
  rw [List.append_nil] at hread
  unfold decode decodeFirst check
  rw [hread]
  simp only [checkAll_eq_ok h]
  rfl

end Registry

/-! ## The first end points of an interface -/

namespace Interface

variable {i : Interface} {n : Nat} {e : Ept}

theorem elementsOf_take_le (l : List Ept) (n : Nat) : elementsOf (l.take n) ≤ elementsOf l := by
  have h := elementsOf_append (l.take n) (l.drop n)
  rw [List.take_append_drop] at h
  omega

/-- The interface of the first `n` end points. -/
def take (i : Interface) (n : Nat) : Interface :=
  ⟨i.epts.take n, Nat.le_trans (elementsOf_take_le i.epts n) i.fits⟩

theorem take_length (i : Interface) : i.take i.length = i := ext (List.take_length)

theorem length_take (i : Interface) (n : Nat) : (i.take n).length = min n i.length :=
  List.length_take

/-- The next end point can be added, since the whole interface fits. -/
theorem push_take (h : i.get? n = some e) : (i.take n).push e = .ok (i.take (n + 1)) := by
  have hnext : i.epts.take (n + 1) = i.epts.take n ++ [e] := by
    rw [List.take_add_one, show i.epts[n]? = some e from h, Option.toList_some]
  have hfits : (i.take n).elements + e.length ≤ maxElements := by
    have hle := (i.take (n + 1)).fits
    have happend := elementsOf_append (i.epts.take n) [e]
    rw [← hnext] at happend
    simp only [elementsOf, Nat.add_zero] at happend
    unfold elements
    exact happend ▸ hle
  unfold push grow
  rw [dif_pos hfits]
  exact congrArg Except.ok (ext hnext.symm)

end Interface

/-- The next end point is added to a side that has the first ones of an interface. -/
theorem Graph.push_take {g : Graph} {row : Row} {a : Side} {e : Ept} {i : Interface} {k : Nat}
    (h : g.interface row a = i.take k) (he : i.get? k = some e) :
    g.push row a e = (.ok k, g.setSide row a (i.take (k + 1))) := by
  have hlt : k < i.length := Interface.get?_isSome_iff.mp (Option.isSome_of_eq_some he)
  have hlength : (i.take k).length = k := by
    rw [Interface.length_take]
    omega
  unfold push
  simp only [h, Interface.push_take he, hlength]

/-! ## Destinations -/

section Destinations

variable {r : Registry} {g g' : Graph} {n : Row → Option Nat} {d : Draft} {row : Row} {k : Nat}
  {e : Ept} {dst src : EndPoint}

/-- All identifiers of the graph are registered. -/
def Graph.Known (r : Registry) (g : Graph) : Prop :=
  ∀ a p e, g.ept? a p = some e → ∀ u ∈ e.flat, r.contains u = true

theorem Graph.known_of_rows (h : ∀ x ∈ g.rows.toList, ∀ a ∈ [Side.src, Side.dst],
    ∀ e ∈ (x.2.side a).epts, ∀ u ∈ e.flat, r.contains u = true) : g.Known r := by
  intro a p e he
  have ha : a ∈ [Side.src, Side.dst] := by cases a <;> decide
  cases hrow : g.row? p.row with
  | none =>
    rw [ept?, interface_eq, hrow] at he
    cases a <;> cases he
  | some s =>
    rw [ept?, interface_of_row? hrow] at he
    exact h (p.row, s) (mem_rows.mpr hrow) a ha e (List.mem_of_getElem? he)

theorem Graph.Known.ept_eq (h : g.Known r) {a : Side} {p : EndPoint} {x : PointRecord}
    (he : g.ept? a p = some e) (hx : x.uids = e.flat) : x.ept r = .ok e := by
  unfold PointRecord.ept
  rw [hx, Registry.decode_flat (h a p e he)]
  rfl

/-- The end point is among the first `n` of its row. -/
def Reached (n : Row → Option Nat) (p : EndPoint) : Prop := p.index < (n p.row).getD 0

instance (n : Row → Option Nat) (p : EndPoint) : Decidable (Reached n p) :=
  inferInstanceAs (Decidable (_ < _))

/-- Reading goes on to the next end point of a row. -/
theorem reached_next (h : n row = some k) :
    Reached (Function.update n row (some (k + 1))) dst ↔ Reached n dst ∨ dst = ⟨row, k⟩ := by
  unfold Reached
  by_cases hrow : dst.row = row
  · subst hrow
    have hdst : dst = ⟨dst.row, k⟩ ↔ dst.index = k :=
      ⟨fun heq => congrArg EndPoint.index heq, fun heq => EndPoint.ext rfl heq⟩
    rw [Function.update_self, h, hdst, Option.getD_some, Option.getD_some]
    omega
  · rw [Function.update_of_ne hrow, or_iff_left]
    rintro rfl
    exact hrow rfl

/-- Reading goes on to a row. -/
theorem reached_row (h : n row = none) :
    Reached (Function.update n row (some 0)) dst ↔ Reached n dst := by
  unfold Reached
  by_cases hrow : dst.row = row
  · rw [hrow, Function.update_self, h]
    rfl
  · rw [Function.update_of_ne hrow]

/-- The draft has the first `n` destinations of each row of `g`, as they are connected there, and
the sources of these with the types that their consumers show. -/
structure Draft.Reads (g : Graph) (n : Row → Option Nat) (d : Draft) : Prop where
  kind_eq : d.graph.kind = g.kind
  row?_eq : ∀ row, d.graph.row? row = (n row).map fun k => .ofDst ((g.interface row .dst).take k)
  sourceOf?_eq : ∀ dst, d.graph.sourceOf? dst = if Reached n dst then g.sourceOf? dst else none
  /-- A source is noted only with a type. -/
  implied_ne : ∀ src, d.implied.get? src ≠ some []
  mem_implied : ∀ src e, e ∈ (d.implied.get? src).getD [] ↔
    ∃ dst, Reached n dst ∧ g.sourceOf? dst = some src ∧ g.ept? .dst dst = some e

namespace Graph

theorem uids_dstRecord (g : Graph) (row : Row) (x : Ept × Nat) :
    (g.dstRecord row x).uids = x.1.flat := by
  unfold dstRecord
  split <;> rfl

theorem source?_ofPoint (p : EndPoint) (e : Ept) : (PointRecord.ofPoint p e).source? = .ok p := by
  unfold PointRecord.source? PointRecord.ofPoint
  simp only [Row.named_text]
  rfl

/-- The entry of a destination names its source. -/
theorem source?_dstRecord (g : Graph) (row : Row) (x : Ept × Nat) :
    (g.dstRecord row x).source? = .ok (g.sourceOf? ⟨row, x.2⟩) := by
  unfold dstRecord
  split
  · rename_i hsrc
    rw [hsrc]
    rfl
  · rename_i src hsrc
    rw [hsrc]
    exact source?_ofPoint src x.1

end Graph

namespace Draft

/-- The draft after a destination of type `e` has been added to its graph, which makes `g'` of it:
the destination is connected to its source, if it has one. -/
def feed (d : Draft) (g' : Graph) (dst : EndPoint) (e : Ept) : Option EndPoint → Draft
  | none => { d with graph := g' }
  | some src => imply { d with graph := { g' with wires := g'.wires.insert dst src } } src e

theorem addDestination_eq {p : PointRecord} {source : Option EndPoint} (he : p.ept r = .ok e)
    (hpush : d.graph.push row .dst e = (.ok k, g')) (hsource : p.source? = .ok source) :
    d.addDestination r row p = .ok (d.feed g' ⟨row, k⟩ e source) := by
  unfold addDestination
  simp only [he, hpush, hsource, bind, Except.bind]
  cases source <;> rfl

variable {source : Option EndPoint}

theorem kind_feed : (d.feed g' dst e source).graph.kind = g'.kind := by cases source <;> rfl

theorem row?_feed : (d.feed g' dst e source).graph.row? row = g'.row? row := by
  cases source <;> rfl

theorem listed_feed : (d.feed g' dst e source).listed = d.listed := by cases source <;> rfl

theorem sourceOf?_feed {p : EndPoint} (h : g'.sourceOf? dst = none) :
    (d.feed g' dst e source).graph.sourceOf? p =
      if p = dst then source else g'.sourceOf? p := by
  cases source with
  | none =>
    show g'.sourceOf? p = _
    split
    · rename_i hp
      rw [hp, h]
    · rfl
  | some src => exact SortedMap.get?_insert g'.wires dst p src

theorem implied_feed : (d.feed g' dst e source).implied.get? src =
    if source = some src then some ((d.implied.get? src).getD [] ++ [e])
    else d.implied.get? src := by
  cases source with
  | none => exact (if_neg nofun).symm
  | some src' =>
    show SortedMap.get? (d.implied.insert src' _) src = _
    rw [SortedMap.get?_insert]
    by_cases hsrc : src' = src
    · rw [if_pos hsrc.symm, if_pos (congrArg some hsrc), hsrc]
    · rw [if_neg (Ne.symm hsrc), if_neg fun h => hsrc (Option.some.inj h)]

theorem mem_implied_feed {e' : Ept} :
    e' ∈ ((d.feed g' dst e source).implied.get? src).getD [] ↔
      e' ∈ (d.implied.get? src).getD [] ∨ source = some src ∧ e' = e := by
  rw [implied_feed]
  split
  · rename_i hsource
    simp [hsource]
  · rename_i hsource
    simp [hsource]

theorem reads_nil (g : Graph) : Reads g (fun _ => none) ⟨.ofKind g.kind, .empty, .empty⟩ where
  kind_eq := rfl
  row?_eq _ := rfl
  sourceOf?_eq dst := (if_neg (Nat.not_lt_zero dst.index)).symm
  implied_ne _ := nofun
  mem_implied src e := by
    simp [Reached]

namespace Reads

theorem interface_eq (h : Reads g n d) (hrow : n row = some k) :
    d.graph.interface row .dst = (g.interface row .dst).take k := by
  have heq := h.row?_eq row
  rw [hrow] at heq
  exact Graph.interface_of_row? heq

/-- Reading reaches a row. -/
theorem addRow (h : Reads g n d) (hrow : n row = none) :
    Reads g (Function.update n row (some 0)) { d with graph := d.graph.addRow row } where
  kind_eq := h.kind_eq
  row?_eq row' := by
    rw [Graph.row?_addRow, h.row?_eq, Function.update_apply]
    split
    · rw [hrow]
      rfl
    · exact h.row?_eq row'
  sourceOf?_eq dst := by
    simp only [reached_row hrow]
    exact h.sourceOf?_eq dst
  implied_ne := h.implied_ne
  mem_implied := by
    simp only [reached_row hrow]
    exact h.mem_implied

/-- The next destination of a row is read, with its connection. -/
theorem addDestination (h : Reads g n d) (hg : g.Known r) (hrow : n row = some k)
    (he : g.ept? .dst ⟨row, k⟩ = some e) :
    ∃ d', d.addDestination r row (g.dstRecord row (e, k)) = .ok d' ∧
      Reads g (Function.update n row (some (k + 1))) d' ∧ d'.listed = d.listed := by
  refine ⟨_, addDestination_eq (hg.ept_eq he (g.uids_dstRecord row (e, k)))
    (Graph.push_take (h.interface_eq hrow) he) (g.source?_dstRecord row (e, k)),
    ⟨kind_feed.trans h.kind_eq, ?_, ?_, ?_, ?_⟩, listed_feed⟩
  · intro row'
    rw [row?_feed, Graph.row?_setSide, Function.update_apply]
    split
    · rename_i heq
      rw [h.row?_eq, hrow, heq]
      rfl
    · exact h.row?_eq row'
  · intro p
    rw [sourceOf?_feed]
    · by_cases hp : p = ⟨row, k⟩
      · rw [if_pos hp, if_pos ((reached_next hrow).mpr (Or.inr hp)), hp]
      · simp only [reached_next hrow, hp, if_false, or_false]
        exact h.sourceOf?_eq p
    · -- The new destination has no connection from before.
      show d.graph.sourceOf? ⟨row, k⟩ = none
      rw [h.sourceOf?_eq, if_neg]
      unfold Reached
      simp [hrow]
  · intro src
    rw [implied_feed]
    split
    · simp
    · exact h.implied_ne src
  · intro src e'
    rw [mem_implied_feed, h.mem_implied]
    constructor
    · rintro (⟨dst, hdst, hmem⟩ | ⟨hsrc, rfl⟩)
      · exact ⟨dst, (reached_next hrow).mpr (Or.inl hdst), hmem⟩
      · exact ⟨⟨row, k⟩, (reached_next hrow).mpr (Or.inr rfl), hsrc, he⟩
    · rintro ⟨dst, hdst, hsrc, hept⟩
      rcases (reached_next hrow).mp hdst with hdst | rfl
      · exact Or.inl ⟨dst, hdst, hsrc, hept⟩
      · rw [he, Option.some.injEq] at hept
        exact Or.inr ⟨hsrc, hept.symm⟩

/-- All destinations of a row are read. -/
theorem addDestinations (h : Reads g n d) (hg : g.Known r) (hrow : n row = some 0) :
    ∃ d', ((g.interface row .dst).epts.zipIdx.map (g.dstRecord row)).foldlM
        (Draft.addDestination r row) d = .ok d' ∧
      Reads g (Function.update n row (some (g.count row .dst))) d' ∧ d'.listed = d.listed := by
  have hlength : ((g.interface row .dst).epts.zipIdx.map (g.dstRecord row)).length =
      g.count row .dst := by
    rw [List.length_map, List.length_zipIdx]
    rfl
  rw [← hlength]
  apply foldlM_eq_ok fun pre d' =>
    Reads g (Function.update n row (some pre.length)) d' ∧ d'.listed = d.listed
  · refine ⟨?_, rfl⟩
    rw [List.length_nil, ← hrow, Function.update_eq_self]
    exact h
  · rintro pre x post d₁ hl ⟨h₁, hlisted⟩
    have hx : ((g.interface row .dst).epts.zipIdx.map (g.dstRecord row))[pre.length]? = some x := by
      rw [hl, List.getElem?_append_right (Nat.le_refl _), Nat.sub_self, List.getElem?_cons_zero]
    rw [List.getElem?_map, List.getElem?_zipIdx, Option.map_map, Option.map_eq_some_iff] at hx
    obtain ⟨e, he, rfl⟩ := hx
    rw [Nat.zero_add]
    obtain ⟨d', hadd, h', hlisted'⟩ := h₁.addDestination hg (Function.update_self ..) he
    rw [Function.update_idem] at h'
    refine ⟨d', hadd, ?_, hlisted'.trans hlisted⟩
    rw [List.length_append, List.length_singleton]
    exact h'

end Reads

end Draft

end Destinations

/-! ## Listed sources -/

theorem Draft.foldlM_addSource {r : Registry} {l : List (EndPoint × Ept)} {d : Draft}
    (hl : ∀ x ∈ l, ∀ u ∈ x.2.flat, r.contains u = true) :
    (l.map fun x => .ofPoint x.1 x.2).foldlM (addSource r) d =
      .ok { d with listed := d.listed.insertAll l } := by
  induction l generalizing d with
  | nil => rfl
  | cons x l ih =>
    have hx : d.addSource r (.ofPoint x.1 x.2) =
        .ok { d with listed := d.listed.insert x.1 x.2 } := by
      unfold addSource PointRecord.ept
      rw [Graph.source?_ofPoint]
      simp only [bind, Except.bind]
      rw [show (PointRecord.ofPoint x.1 x.2).uids = x.2.flat from rfl,
        Registry.decode_flat (hl x List.mem_cons_self)]
      rfl
    rw [List.map_cons, List.foldlM_cons, hx]
    exact ih fun y hy => hl y (List.mem_cons_of_mem x hy)

namespace Graph

variable {r : Registry} {g : Graph} {a : Side} {d : Draft} {src : EndPoint} {e : Ept}

/-- The sources of row U, with their types. -/
def listedSources (g : Graph) : List (EndPoint × Ept) :=
  g.rows.toList.flatMap fun (row, s) =>
    s.src.epts.zipIdx.filterMap fun (e, k) =>
      if g.firstConsumerEpt? ⟨row, k⟩ = some e then none else some (⟨row, k⟩, e)

theorem listedRecords_eq (g : Graph) :
    g.listedRecords = g.listedSources.map fun x => .ofPoint x.1 x.2 := by
  unfold listedRecords listedSources
  rw [List.map_flatMap]
  apply List.flatMap_congr
  rintro ⟨row, s⟩ -
  rw [List.map_filterMap]
  apply List.filterMap_congr
  rintro ⟨e, k⟩ -
  simp only
  split <;> rfl

theorem mem_listedSources :
    (src, e) ∈ g.listedSources ↔ g.ept? .src src = some e ∧ g.firstConsumerEpt? src ≠ some e := by
  unfold listedSources
  rw [List.mem_flatMap]
  constructor
  · rintro ⟨⟨row, s⟩, hrow, hmem⟩
    obtain ⟨⟨e', k⟩, hk, heq⟩ := List.mem_filterMap.mp hmem
    simp only at heq
    split at heq
    · cases heq
    · rename_i hfirst
      cases heq
      refine ⟨?_, hfirst⟩
      rw [ept?, interface_of_row? (mem_rows.mp hrow)]
      exact List.mem_zipIdx_iff_getElem?.mp hk
  · rintro ⟨hept, hfirst⟩
    cases hrow : g.row? src.row with
    | none =>
      rw [ept?, interface_eq, hrow] at hept
      cases hept
    | some s =>
      rw [ept?, interface_of_row? hrow] at hept
      refine ⟨(src.row, s), mem_rows.mpr hrow, List.mem_filterMap.mpr ⟨(e, src.index), ?_, ?_⟩⟩
      · exact List.mem_zipIdx_iff_getElem?.mpr hept
      · exact if_neg hfirst

theorem listedSources_nodup (g : Graph) : (g.listedSources.map Prod.fst).Nodup := by
  suffices h : (g.listedSources.map Prod.fst).Pairwise Before from h.imp Before.ne
  unfold listedSources
  rw [List.map_flatMap]
  apply ascending_flatMap
  · intro x _ p hp
    obtain ⟨y, hy, rfl⟩ := List.mem_map.mp hp
    obtain ⟨⟨e, k⟩, -, hz⟩ := List.mem_filterMap.mp hy
    simp only at hz
    split at hz
    · cases hz
    · cases hz
      rfl
  · intro x _
    have hindex : x.2.src.epts.zipIdx.Pairwise fun y z => y.2 < z.2 := by
      rw [← List.pairwise_map, List.zipIdx_map_snd]
      exact List.pairwise_lt_range'
    rw [List.pairwise_map]
    refine hindex.filterMap _ fun ⟨e, k⟩ ⟨e', k'⟩ hyz p hp q hq => ?_
    simp only at hp hq
    split at hp
    · cases hp
    · split at hq
      · cases hq
      · cases hp
        cases hq
        exact EndPoint.before_iff.mpr (Or.inr ⟨rfl, hyz⟩)

/-- The entries of all rows, under their names. -/
def rowRecords (g : Graph) : List (String × List PointRecord) :=
  g.rows.toList.map fun (row, s) => (row.text, s.dst.epts.zipIdx.map (g.dstRecord row))

theorem get?_rowRecords {key : String} {ps : List PointRecord} :
    (SortedMap.ofList g.rowRecords).get? key = some ps ↔
      ∃ row s, g.row? row = some s ∧
        (key, ps) = (row.text, s.dst.epts.zipIdx.map (g.dstRecord row)) := by
  have hkeys : (g.rowRecords.map Prod.fst).Nodup := by
    have htext : g.rowRecords.map Prod.fst = g.rows.keys.map Row.text := by
      unfold rowRecords SortedMap.keys
      rw [List.map_map, List.map_map]
      rfl
    rw [htext]
    exact g.rows.nodup_keys.map fun _ _ => Row.text_injective
  rw [SortedMap.get?_ofList_eq_some_iff hkeys, rowRecords, List.mem_map]
  constructor
  · rintro ⟨⟨row, s⟩, hmem, heq⟩
    exact ⟨row, s, mem_rows.mp hmem, heq.symm⟩
  · rintro ⟨row, s, hmem, heq⟩
    exact ⟨(row, s), mem_rows.mpr hmem, heq.symm⟩

/-- The rows of the document: those of the graph, and row U if sources are listed. -/
theorem mem_toRecord (hu : g.hasRow .U = false) {x : String × List PointRecord} :
    x ∈ g.toRecord.rows.toList ↔
      (∃ row s, g.row? row = some s ∧
        x = (row.text, s.dst.epts.zipIdx.map (g.dstRecord row))) ∨
      g.listedSources ≠ [] ∧ x = (Row.U.text, g.listedRecords) := by
  obtain ⟨key, ps⟩ := x
  have hlisted : g.listedRecords.isEmpty = true ↔ g.listedSources = [] := by
    rw [List.isEmpty_iff, listedRecords_eq, List.map_eq_nil_iff]
  rw [← SortedMap.get?_eq_some_iff, ← get?_rowRecords]
  show (if g.listedRecords.isEmpty then SortedMap.ofList g.rowRecords
    else (SortedMap.ofList g.rowRecords).insert Row.U.text g.listedRecords).get? key = some ps ↔ _
  split
  · rename_i hempty
    simp [hlisted.mp hempty]
  · rename_i hempty
    have hne : g.listedSources ≠ [] := fun h => hempty (hlisted.mpr h)
    have habsent : (SortedMap.ofList g.rowRecords).get? Row.U.text ≠ some ps := by
      intro h
      obtain ⟨row, s, hs, heq⟩ := get?_rowRecords.mp h
      rw [hasRow, Row.text_injective (congrArg Prod.fst heq), hs] at hu
      cases hu
    rw [SortedMap.get?_insert]
    by_cases hkey : key = Row.U.text
    · subst hkey
      simp [habsent, hne, eq_comm]
    · simp [hkey]

end Graph

/-! ## The whole document -/

namespace Draft

variable {r : Registry} {g : Graph} {d : Draft}

/-- How far each row is read when the rows with these names are. -/
def reach (g : Graph) (keys : List String) (row : Row) : Option Nat :=
  if g.hasRow row = true ∧ row.text ∈ keys then some (g.count row .dst) else none

/-- What the draft is when the rows with these names are read. -/
def Holds (g : Graph) (keys : List String) (d : Draft) : Prop :=
  d.Reads g (reach g keys) ∧
    d.listed = if Row.U.text ∈ keys then .ofList g.listedSources else .empty

theorem holds_nil (g : Graph) : Holds g [] ⟨.ofKind g.kind, .empty, .empty⟩ := by
  have hreach : reach g [] = fun _ => none := by
    funext row
    exact if_neg fun h => nomatch h.2
  refine ⟨?_, rfl⟩
  rw [hreach]
  exact reads_nil g

/-- A row of the graph is read. -/
theorem Holds.addRow {keys : List String} {row : Row} {s : Sides} (h : Holds g keys d)
    (hg : g.Known r) (hrow : g.row? row = some s) (hu : row ≠ .U) (hkey : row.text ∉ keys) :
    ∃ d', d.addRow r (row.text, s.dst.epts.zipIdx.map (g.dstRecord row)) = .ok d' ∧
      Holds g (keys ++ [row.text]) d' := by
  have hrow' : reach g keys row = none := if_neg fun h => hkey h.2
  obtain ⟨d', hfold, hreads, hlisted⟩ :=
    (h.1.addRow hrow').addDestinations hg (Function.update_self ..)
  have hreach : reach g (keys ++ [row.text]) =
      Function.update (reach g keys) row (some (g.count row .dst)) := by
    funext row'
    rw [Function.update_apply]
    unfold reach
    by_cases heq : row' = row
    · rw [if_pos heq, heq, if_pos]
      exact ⟨Option.isSome_of_eq_some hrow, List.mem_append_right _ List.mem_cons_self⟩
    · have htext : row'.text ≠ row.text := fun h => heq (Row.text_injective h)
      simp [heq, htext]
  have hother : Row.U.text ≠ row.text := fun h => hu (Row.text_injective h).symm
  refine ⟨d', ?_, ?_, ?_⟩
  · unfold Draft.addRow
    rw [Graph.interface_of_row? hrow] at hfold
    simp only [Row.named_text, bind, Except.bind, if_neg hu]
    exact hfold
  · rw [hreach]
    rw [Function.update_idem] at hreads
    exact hreads
  · rw [hlisted, h.2]
    simp [hother]

/-- Row U is read. -/
theorem Holds.addListed {keys : List String} (h : Holds g keys d) (hg : g.Known r)
    (hu : g.hasRow .U = false) (hkey : Row.U.text ∉ keys) :
    ∃ d', d.addRow r (Row.U.text, g.listedRecords) = .ok d' ∧
      Holds g (keys ++ [Row.U.text]) d' := by
  have hreach : reach g (keys ++ [Row.U.text]) = reach g keys := by
    funext row
    unfold reach
    by_cases hrow : row = .U
    · rw [hrow, hu]
      simp
    · have htext : row.text ≠ Row.U.text := fun h => hrow (Row.text_injective h)
      simp [htext]
  refine ⟨{ d with listed := .ofList g.listedSources }, ?_, ?_, ?_⟩
  · have hempty := h.2
    rw [if_neg hkey] at hempty
    unfold Draft.addRow
    simp only [Row.named_text, bind, Except.bind, if_true]
    rw [g.listedRecords_eq, foldlM_addSource fun x hx => ?_, hempty]
    · rfl
    · exact hg .src x.1 x.2 (Graph.mem_listedSources.mp hx).1
  · rw [hreach]
    exact ⟨h.1.kind_eq, h.1.row?_eq, h.1.sourceOf?_eq, h.1.implied_ne, h.1.mem_implied⟩
  · simp

/-- The document has the rows of the graph. -/
theorem reach_toRecord (hu : g.hasRow .U = false) (row : Row) :
    reach g g.toRecord.rows.keys row =
      if g.hasRow row = true then some (g.count row .dst) else none := by
  unfold reach
  by_cases hrow : g.hasRow row = true
  · obtain ⟨s, hs⟩ := Option.isSome_iff_exists.mp hrow
    have hmem : row.text ∈ g.toRecord.rows.keys :=
      List.mem_map.mpr ⟨_, (Graph.mem_toRecord hu).mpr (Or.inl ⟨row, s, hs, rfl⟩), rfl⟩
    rw [if_pos ⟨hrow, hmem⟩, if_pos hrow]
  · rw [if_neg fun h => hrow h.1, if_neg hrow]

/-- The document has row U if sources are listed. -/
theorem listedSources_of_not_mem (hu : g.hasRow .U = false)
    (h : Row.U.text ∉ g.toRecord.rows.keys) : g.listedSources = [] := by
  by_contra hne
  exact h (List.mem_map.mpr ⟨_, (Graph.mem_toRecord hu).mpr (Or.inr ⟨hne, rfl⟩), rfl⟩)

/-- The document of a graph is read up to its sources. -/
theorem read_toRecord (hg : g.Known r) (hu : g.hasRow .U = false) :
    ∃ d, g.toRecord.rows.toList.foldlM (Draft.addRow r) ⟨.ofKind g.kind, .empty, .empty⟩ = .ok d ∧
      d.Reads g (fun row => if g.hasRow row = true then some (g.count row .dst) else none) ∧
      d.listed = .ofList g.listedSources := by
  have hstep : ∀ pre x post d, g.toRecord.rows.toList = pre ++ x :: post →
      Holds g (pre.map Prod.fst) d →
      ∃ d', d.addRow r x = .ok d' ∧ Holds g ((pre ++ [x]).map Prod.fst) d' := by
    intro pre x post d hl h
    have hkey := SortedMap.not_mem_before hl
    have hx : x ∈ g.toRecord.rows.toList := by simp [hl]
    rw [List.map_append, List.map_singleton]
    rcases (Graph.mem_toRecord hu).mp hx with ⟨row, s, hrow, rfl⟩ | ⟨-, rfl⟩
    · apply h.addRow hg hrow _ hkey
      rintro rfl
      rw [Graph.hasRow, hrow] at hu
      cases hu
    · exact h.addListed hg hu hkey
  obtain ⟨d, hfold, hreads, hlisted⟩ :=
    foldlM_eq_ok (fun pre d => Holds g (pre.map Prod.fst) d) (holds_nil g) hstep
  refine ⟨d, hfold, ?_, ?_⟩
  · rw [← funext (reach_toRecord hu)]
    exact hreads
  · rw [hlisted]
    split
    · rfl
    · rename_i hkey
      rw [listedSources_of_not_mem hu hkey]
      rfl

end Draft

end GeneGraph
