import GeneGraph.Proofs.Reading
import GeneGraph.Samples

/-!
# Which graphs are read back

A document does not tell the type of a source whose first consumer shows it. Its reader takes
such a source for ambiguous if the consumers do not all have the same type, so a graph is read
back from what is written for it exactly if it has no `Graph.Ambiguous` source
(`Graph.ofText_toText_iff`).
-/

namespace GeneGraph

/-! ## Consumers -/

namespace Graph

variable {g : Graph} {dst src : EndPoint} {e : Ept}

/-- The first consumer shows the type of the source, but another consumer does not. -/
def Ambiguous (g : Graph) (src : EndPoint) : Prop :=
  g.firstConsumerEpt? src = g.ept? .src src ∧
    ∃ dst ∈ g.consumers src, g.ept? .dst dst ≠ g.ept? .src src

instance (g : Graph) (src : EndPoint) : Decidable (g.Ambiguous src) :=
  inferInstanceAs (Decidable (_ ∧ _))

/-- The type that the first consumer shows is the type of a consumer. -/
theorem exists_of_firstConsumerEpt? (h : g.firstConsumerEpt? src = some e) :
    ∃ dst, g.sourceOf? dst = some src ∧ g.ept? .dst dst = some e := by
  unfold firstConsumerEpt? at h
  obtain ⟨dst, hdst, he⟩ := Option.bind_eq_some_iff.mp h
  exact ⟨dst, mem_consumers.mp (List.mem_of_head? hdst), he⟩

theorem firstConsumerEpt?_eq_none (h : ∀ dst, g.sourceOf? dst ≠ some src) :
    g.firstConsumerEpt? src = none := by
  cases hfirst : g.firstConsumerEpt? src with
  | none => rfl
  | some e =>
    obtain ⟨dst, hdst, -⟩ := exists_of_firstConsumerEpt? hfirst
    exact absurd hdst (h dst)

theorem Anchored.exists_ept (h : g.Anchored) (hsrc : g.sourceOf? dst = some src) :
    (∃ e, g.ept? .dst dst = some e) ∧ ∃ e, g.ept? .src src = some e := by
  obtain ⟨hd, hs⟩ := h dst src hsrc
  exact ⟨Option.isSome_iff_exists.mp (exists?_iff.mp hd),
    Option.isSome_iff_exists.mp (exists?_iff.mp hs)⟩

end Graph

/-! ## The draft of a whole document -/

namespace Draft

variable {r : Registry} {g : Graph} {d : Draft} {src : EndPoint} {e : Ept} {epts : List Ept}

/-- The draft has everything of the graph but its sources. -/
structure Whole (g : Graph) (d : Draft) : Prop where
  kind_eq : d.graph.kind = g.kind
  row?_eq : ∀ row, d.graph.row? row = (g.row? row).map fun s => .ofDst s.dst
  wires_eq : d.graph.wires = g.wires
  /-- The sources are listed whose types their first consumers do not show. -/
  listed_iff : ∀ src e, d.listed.get? src = some e ↔
    g.ept? .src src = some e ∧ g.firstConsumerEpt? src ≠ some e
  implied_ne : ∀ src, d.implied.get? src ≠ some []
  mem_implied : ∀ src e, e ∈ (d.implied.get? src).getD [] ↔
    ∃ dst, g.sourceOf? dst = some src ∧ g.ept? .dst dst = some e

/-- When all rows are read to their ends, all destinations are reached. -/
theorem reached_count (g : Graph) (p : EndPoint) :
    Reached (fun row => if g.hasRow row = true then some (g.count row .dst) else none) p ↔
      g.exists? .dst p = true := by
  unfold Reached Graph.exists?
  rw [decide_eq_true_iff]
  simp only
  split
  · rfl
  · rename_i hrow
    rw [Graph.hasRow, Option.not_isSome_iff_eq_none] at hrow
    rw [Graph.count, Graph.interface_eq, hrow]
    rfl

/-- The document of a graph is read up to its sources. -/
theorem exists_whole (hg : g.Known r) (ha : g.Anchored) (hu : g.hasRow .U = false) :
    ∃ d, g.toRecord.rows.toList.foldlM (Draft.addRow r) ⟨.ofKind g.kind, .empty, .empty⟩ = .ok d ∧
      d.Whole g := by
  obtain ⟨d, hfold, hreads, hlisted⟩ := read_toRecord hg hu
  refine ⟨d, hfold, hreads.kind_eq, ?_, ?_, ?_, hreads.implied_ne, ?_⟩
  · intro row
    rw [hreads.row?_eq]
    cases hrow : g.row? row with
    | none => simp [Graph.hasRow, hrow]
    | some s =>
      have hdst : g.interface row .dst = s.dst := Graph.interface_of_row? hrow
      simp [Graph.hasRow, hrow, Graph.count, hdst, Interface.take_length]
  · apply SortedMap.ext
    intro dst
    show d.graph.sourceOf? dst = g.sourceOf? dst
    rw [hreads.sourceOf?_eq]
    split
    · rfl
    · rename_i hreached
      symm
      by_contra hne
      obtain ⟨src, hsrc⟩ := Option.ne_none_iff_exists'.mp hne
      exact hreached ((reached_count g dst).mpr (ha dst src hsrc).1)
  · intro src e
    rw [hlisted, SortedMap.get?_ofList_eq_some_iff g.listedSources_nodup, Graph.mem_listedSources]
  · intro src e
    rw [hreads.mem_implied]
    constructor
    · rintro ⟨dst, -, hmem⟩
      exact ⟨dst, hmem⟩
    · rintro ⟨dst, hsrc, he⟩
      exact ⟨dst, (reached_count g dst).mpr (ha dst src hsrc).1, hsrc, he⟩

theorem sources_eq (d : Draft) : d.sources = do
    let implied ← d.implied.toList.mapM fun x => do return (x.1, ← d.impliedEpt x.1 x.2)
    return d.listed.insertAll implied := rfl

/-- If all sources that are noted get a type, the types of the sources are these and the listed
ones. -/
theorem exists_sources {P : EndPoint → Ept → Prop}
    (h : ∀ src epts, d.implied.get? src = some epts →
      ∃ e, d.impliedEpt src epts = .ok e ∧ P src e) :
    ∃ m, d.sources = .ok m ∧ ∀ src,
      (∃ e, m.get? src = some e ∧ P src e) ∨
        m.get? src = d.listed.get? src ∧ d.implied.get? src = none := by
  obtain ⟨ys, hys, hkeys, hP⟩ : ∃ ys,
      (d.implied.toList.mapM fun x => do return (x.1, ← d.impliedEpt x.1 x.2)) =
        .ok ys ∧ ys.map Prod.fst = d.implied.keys ∧ ∀ y ∈ ys, P y.1 y.2 := by
    apply mapM_eq_ok
    rintro ⟨src, epts⟩ hx
    obtain ⟨e, heq, he⟩ := h src epts (SortedMap.get?_eq_some_iff.mpr hx)
    refine ⟨(src, e), ?_, rfl, he⟩
    simp only [heq]
    rfl
  refine ⟨d.listed.insertAll ys, ?_, fun src => ?_⟩
  · rw [sources_eq, hys]
    rfl
  · by_cases hsrc : src ∈ ys.map Prod.fst
    · obtain ⟨y, hy, rfl⟩ := List.mem_map.mp hsrc
      refine Or.inl ⟨y.2, ?_, hP y hy⟩
      exact SortedMap.get?_insertAll_of_mem _ (hkeys ▸ d.implied.nodup_keys) hy
    · refine Or.inr ⟨SortedMap.get?_insertAll_of_not_mem _ hsrc, ?_⟩
      rwa [hkeys, SortedMap.mem_keys, Option.not_isSome_iff_eq_none] at hsrc

namespace Whole

/-- What is noted for a source are the types of its consumers. -/
theorem mem_of_get? (h : Whole g d) (hsrc : d.implied.get? src = some epts) :
    e ∈ epts ↔ ∃ dst, g.sourceOf? dst = some src ∧ g.ept? .dst dst = some e := by
  rw [← h.mem_implied, hsrc, Option.getD_some]

/-- A source whose first consumer shows its type is ambiguous if another type is noted for it. -/
theorem ambiguous_iff (h : Whole g d) (ha : g.Anchored) (hsrc : d.implied.get? src = some epts)
    (he : g.ept? .src src = some e) (hfirst : g.firstConsumerEpt? src = some e) :
    g.Ambiguous src ↔ ∃ e' ∈ epts, e' ≠ e := by
  have hmem := fun e' => h.mem_of_get? (e := e') hsrc
  constructor
  · rintro ⟨-, dst, hdst, hne⟩
    have hfed := Graph.mem_consumers.mp hdst
    obtain ⟨e', he'⟩ := (ha.exists_ept hfed).1
    refine ⟨e', (hmem e').mpr ⟨dst, hfed, he'⟩, ?_⟩
    rintro rfl
    exact hne (he'.trans he.symm)
  · rintro ⟨e', hmem', hne⟩
    obtain ⟨dst, hfed, he'⟩ := (hmem e').mp hmem'
    refine ⟨hfirst.trans he.symm, dst, Graph.mem_consumers.mpr hfed, ?_⟩
    rw [he', he]
    exact fun h => hne (Option.some.inj h)

/-- A source that is noted has its own type, unless it is ambiguous. -/
theorem impliedEpt_eq (h : Whole g d) (ha : g.Anchored) (hsrc : d.implied.get? src = some epts) :
    ∃ e, g.ept? .src src = some e ∧ d.impliedEpt src epts =
      if g.Ambiguous src then .error (.document (.ambiguous src)) else .ok e := by
  obtain ⟨a, rest, rfl⟩ : ∃ a rest, epts = a :: rest := by
    cases epts with
    | nil => exact absurd hsrc (h.implied_ne src)
    | cons a rest => exact ⟨a, rest, rfl⟩
  obtain ⟨dst, hdst, -⟩ := (h.mem_of_get? hsrc).mp List.mem_cons_self
  obtain ⟨e, he⟩ := (ha.exists_ept hdst).2
  refine ⟨e, he, ?_⟩
  unfold impliedEpt
  -- A listed source has its type from row U; of another the first consumer shows it.
  cases hlisted : d.listed.get? src with
  | some e' =>
    obtain ⟨he', hfirst⟩ := (h.listed_iff src e').mp hlisted
    have hclear : ¬ g.Ambiguous src := fun hamb => hfirst (hamb.1.trans he')
    rw [he, Option.some.injEq] at he'
    rw [if_neg hclear, he']
  | none =>
    have hfirst : g.firstConsumerEpt? src = some e := by
      by_contra hne
      rw [(h.listed_iff src e).mpr ⟨he, hne⟩] at hlisted
      cases hlisted
    have hin : e ∈ a :: rest := (h.mem_of_get? hsrc).mpr (Graph.exists_of_firstConsumerEpt? hfirst)
    have hamb := h.ambiguous_iff ha hsrc he hfirst
    simp only
    -- The types are compared with the first one read, and that is not the one of the first
    -- consumer: the rows were read in the order of their names.
    by_cases hall : ∀ e' ∈ rest, e' = a
    · have heq : ∀ e' ∈ a :: rest, e' = a := List.forall_mem_cons.mpr ⟨rfl, hall⟩
      rw [if_pos (by simpa using hall), if_neg, heq e hin]
      rw [hamb]
      rintro ⟨e', he', hne⟩
      exact hne ((heq e' he').trans (heq e hin).symm)
    · rw [if_neg (by simpa using hall), if_pos]
      rw [hamb]
      obtain ⟨e', he', hne⟩ := not_forall₂.mp hall
      by_cases hae : a = e
      · exact ⟨e', List.mem_cons_of_mem a he', hae ▸ hne⟩
      · exact ⟨a, List.mem_cons_self, hae⟩

theorem impliedEpt_ok (h : Whole g d) (ha : g.Anchored) (hsrc : d.implied.get? src = some epts)
    (hclear : ¬ g.Ambiguous src) :
    ∃ e, d.impliedEpt src epts = .ok e ∧ g.ept? .src src = some e := by
  obtain ⟨e, he, heq⟩ := h.impliedEpt_eq ha hsrc
  rw [if_neg hclear] at heq
  exact ⟨e, heq, he⟩

/-- The sources with consumers are noted. -/
theorem isSome_implied (h : Whole g d) (ha : g.Anchored) {dst : EndPoint}
    (hsrc : g.sourceOf? dst = some src) : (d.implied.get? src).isSome := by
  obtain ⟨e, he⟩ := (ha.exists_ept hsrc).1
  have hmem := (h.mem_implied src e).mpr ⟨dst, hsrc, he⟩
  cases hnoted : d.implied.get? src with
  | none =>
    rw [hnoted] at hmem
    cases hmem
  | some epts => rfl

/-- Without ambiguous sources, the types of all sources are known. -/
theorem sources_eq_ok (h : Whole g d) (ha : g.Anchored) (hclear : ∀ src, ¬ g.Ambiguous src) :
    ∃ m, d.sources = .ok m ∧ ∀ src, m.get? src = g.ept? .src src := by
  obtain ⟨m, hm, hsources⟩ := exists_sources (P := fun src e => g.ept? .src src = some e)
    fun src epts hsrc => h.impliedEpt_ok ha hsrc (hclear src)
  refine ⟨m, hm, fun src => ?_⟩
  rcases hsources src with ⟨e, he, hept⟩ | ⟨hlisted, hnone⟩
  · rw [he, hept]
  · have hfree : ∀ dst, g.sourceOf? dst ≠ some src := by
      intro dst hdst
      have hsome := h.isSome_implied ha hdst
      rw [hnone] at hsome
      cases hsome
    apply Option.ext
    intro e
    rw [hlisted, h.listed_iff, Graph.firstConsumerEpt?_eq_none hfree]
    simp

/-- The first ambiguous source is complained of. -/
theorem sources_eq_error (h : Whole g d) (ha : g.Anchored)
    (hsrc : (g.points .src).find? (fun src => g.Ambiguous src) = some src) :
    d.sources = .error (.document (.ambiguous src)) := by
  have hkeys : d.implied.keys.find? (fun src => g.Ambiguous src) = some src := by
    rw [← hsrc]
    apply find?_eq_of_ascending
    · exact d.implied.pairwise_keys
    · exact g.points_ascending .src
    · intro src hamb
      obtain ⟨-, dst, hdst, -⟩ := of_decide_eq_true hamb
      have hfed := Graph.mem_consumers.mp hdst
      rw [SortedMap.mem_keys, Graph.mem_points]
      exact iff_of_true (h.isSome_implied ha hfed) (ha dst src hfed).2
  rw [SortedMap.keys, List.find?_map, Option.map_eq_some_iff] at hkeys
  obtain ⟨⟨src', epts⟩, hfind, hsrc'⟩ := hkeys
  obtain rfl : src' = src := hsrc'
  have herror : (d.implied.toList.mapM fun x => do return (x.1, ← d.impliedEpt x.1 x.2)) =
      .error (.document (.ambiguous src')) := by
    refine mapM_eq_error (fun x => GraphError.document (.ambiguous x.1)) ?_ ?_ hfind
    · rintro ⟨src, epts⟩ hx hamb
      obtain ⟨e, -, heq⟩ := h.impliedEpt_eq ha (SortedMap.get?_eq_some_iff.mpr hx)
      rw [if_pos (of_decide_eq_true hamb)] at heq
      simp only [heq]
      rfl
    · rintro ⟨src, epts⟩ hx hclear
      obtain ⟨e, heq, -⟩ := h.impliedEpt_ok ha (SortedMap.get?_eq_some_iff.mpr hx)
        (of_decide_eq_false hclear)
      refine ⟨(src, e), ?_⟩
      simp only [heq]
      rfl
  rw [sources_eq, herror]
  rfl

end Whole

end Draft

/-! ## Adding the sources -/

namespace Graph

variable {g g' : Graph} {keys : List EndPoint} {row : Row} {k : Nat} {e : Ept}
  {m : SortedMap EndPoint Ept}

/-- `g'` has of the sources of `g` only those with the given names, and all the rest of `g`. -/
structure Filled (g : Graph) (keys : List EndPoint) (g' : Graph) : Prop where
  kind_eq : g'.kind = g.kind
  wires_eq : g'.wires = g.wires
  row?_eq : ∀ row, ∃ n, g'.row? row = (g.row? row).map (fun s => ⟨s.dst, s.src.take n⟩) ∧
    ∀ k, ⟨row, k⟩ ∈ keys ↔ k < n

/-- The next source of a row is added. -/
theorem Filled.addSource (h : Filled g keys g') (he : g.ept? .src ⟨row, k⟩ = some e)
    (hk : ∀ l, ⟨row, l⟩ ∈ keys ↔ l < k) :
    ∃ g'', g'.addSource ⟨row, k⟩ e = .ok g'' ∧ Filled g (keys ++ [⟨row, k⟩]) g'' := by
  obtain ⟨n, hrow, hn⟩ := h.row?_eq row
  obtain rfl : n = k := by
    have hnk := (hn k).symm.trans (hk k)
    have hnn := (hn n).symm.trans (hk n)
    omega
  cases hs : g.row? row with
  | none =>
    rw [ept?, interface_eq, hs] at he
    cases he
  | some s =>
    rw [hs, Option.map_some] at hrow
    rw [ept?, interface_of_row? hs] at he
    have hpush := push_take (interface_of_row? (a := .src) hrow) he
    have hcount : g'.count row .src = n := by
      have hlt : n < s.src.length := Interface.get?_isSome_iff.mp (Option.isSome_of_eq_some he)
      have hsrc : g'.interface row .src = s.src.take n := interface_of_row? hrow
      rw [count, hsrc, Interface.length_take]
      omega
    refine ⟨g'.setSide row .src (s.src.take (n + 1)), ?_, h.kind_eq, h.wires_eq, fun row' => ?_⟩
    · unfold Graph.addSource
      simp only [hcount, if_true, hpush]
    · by_cases heq : row' = row
      · refine ⟨n + 1, ?_, fun l => ?_⟩
        · rw [row?_setSide, if_pos heq, heq, hs, hrow]
          rfl
        · rw [heq, List.mem_append, hk, List.mem_singleton, EndPoint.mk.injEq]
          simp only [true_and]
          omega
      · obtain ⟨n', hrow', hn'⟩ := h.row?_eq row'
        refine ⟨n', ?_, fun l => ?_⟩
        · rw [row?_setSide, if_neg heq]
          exact hrow'
        · rw [List.mem_append, hn', List.mem_singleton, EndPoint.mk.injEq]
          simp [heq]

/-- A graph that has all sources is the whole graph. -/
theorem Filled.eq (h : Filled g m.keys g') (hm : ∀ src, m.get? src = g.ept? .src src) : g' = g := by
  rw [ext_iff]
  refine ⟨h.kind_eq, SortedMap.ext fun row => ?_, h.wires_eq⟩
  obtain ⟨n, hrow, hn⟩ := h.row?_eq row
  show g'.row? row = g.row? row
  rw [hrow]
  cases hs : g.row? row with
  | none => rfl
  | some s =>
    have hlength : ∀ k, k < s.src.length ↔ k < n := by
      intro k
      rw [← hn, SortedMap.mem_keys, hm, ept?, interface_of_row? hs]
      exact Interface.get?_isSome_iff.symm
    obtain rfl : s.src.length = n := by
      have h₁ := hlength n
      have h₂ := hlength s.src.length
      omega
    rw [Option.map_some, Interface.take_length]

/-- In its row, the sources before a source are those with smaller indices, if none is missing. -/
theorem mem_before_iff {pre post : List (EndPoint × Ept)}
    (hl : m.toList = pre ++ (⟨row, k⟩, e) :: post) (hbelow : ∀ l < k, (m.get? ⟨row, l⟩).isSome)
    (l : Nat) : ⟨row, l⟩ ∈ pre.map Prod.fst ↔ l < k := by
  have hasc := m.ascending
  rw [hl, List.pairwise_append, List.pairwise_cons] at hasc
  obtain ⟨-, ⟨hpost, -⟩, hpre⟩ := hasc
  constructor
  · intro hmem
    obtain ⟨y, hy, hkey⟩ := List.mem_map.mp hmem
    have hbefore := hpre y hy _ List.mem_cons_self
    rw [hkey, EndPoint.before_iff] at hbefore
    rcases hbefore with hbefore | ⟨-, hlt⟩
    · exact absurd hbefore (Before.irrefl row)
    · exact hlt
  · intro hlt
    obtain ⟨e', he'⟩ := Option.isSome_iff_exists.mp (hbelow l hlt)
    rw [SortedMap.get?_eq_some_iff, hl, List.mem_append, List.mem_cons] at he'
    rcases he' with hmem | heq | hmem
    · exact List.mem_map.mpr ⟨_, hmem, rfl⟩
    · rw [(EndPoint.mk.inj (Prod.mk.inj heq).1).2] at hlt
      exact absurd hlt (Nat.lt_irrefl k)
    · have hbefore : Before (⟨row, l⟩ : EndPoint) ⟨row, k⟩ :=
        EndPoint.before_iff.mpr (Or.inr ⟨rfl, hlt⟩)
      exact absurd (hpost _ hmem) hbefore.asymm

/-- Sources are added in the order of their names, so each comes when it is the next one. -/
theorem addSources_eq_ok (h : Filled g [] g') (hm : ∀ src, m.get? src = g.ept? .src src) :
    m.toList.foldlM (fun g e => g.addSource e.1 e.2) g' = .ok g := by
  have hstep : ∀ pre x post g', m.toList = pre ++ x :: post → Filled g (pre.map Prod.fst) g' →
      ∃ g'', g'.addSource x.1 x.2 = .ok g'' ∧ Filled g ((pre ++ [x]).map Prod.fst) g'' := by
    rintro pre ⟨⟨row, k⟩, e⟩ post g' hl hfilled
    have he : g.ept? .src ⟨row, k⟩ = some e := by
      rw [← hm, SortedMap.get?_eq_some_iff, hl]
      simp
    have hbelow (l : Nat) (hlt : l < k) : (m.get? ⟨row, l⟩).isSome := by
      have hk : (g.ept? .src ⟨row, k⟩).isSome := Option.isSome_of_eq_some he
      rw [hm]
      exact Interface.get?_isSome_iff.mpr (Nat.lt_trans hlt (Interface.get?_isSome_iff.mp hk))
    rw [List.map_append, List.map_singleton]
    exact hfilled.addSource he (mem_before_iff hl hbelow)
  obtain ⟨g'', hfold, hfilled⟩ :=
    foldlM_eq_ok (fun pre g' => Filled g (pre.map Prod.fst) g') h hstep
  rw [hfold, Filled.eq hfilled hm]

end Graph

/-! ## Reading back -/

namespace Graph

variable {r : Registry} {g : Graph} {src : EndPoint}

theorem find?_ambiguous_eq_none (ha : g.Anchored) :
    (g.points .src).find? (fun src => g.Ambiguous src) = none ↔ ∀ src, ¬ g.Ambiguous src := by
  rw [List.find?_eq_none]
  constructor
  · intro h src hamb
    obtain ⟨dst, hdst, -⟩ := hamb.2
    have hmem := mem_points.mpr (ha dst src (mem_consumers.mp hdst)).2
    exact h src hmem (decide_eq_true hamb)
  · intro h src _ hamb
    exact h src (of_decide_eq_true hamb)

/-- What is made of the document of a graph. -/
theorem toGraph_toRecord (hg : g.Known r) (ha : g.Anchored) (hu : g.hasRow .U = false) :
    g.toRecord.toGraph r =
      match (g.points .src).find? (fun src => g.Ambiguous src) with
      | none => .ok g
      | some src => .error (.document (.ambiguous src)) := by
  obtain ⟨d, hfold, hwhole⟩ := Draft.exists_whole hg ha hu
  have hgraph : g.toRecord.toGraph r = (do
      let sources ← d.sources
      sources.toList.foldlM (fun g e => g.addSource e.1 e.2) d.graph) := by
    unfold GraphRecord.toGraph
    rw [show g.toRecord.kind = g.kind.text from rfl, GraphKind.named_text]
    simp only [bind, Except.bind, hfold]
  rw [hgraph]
  cases hfind : (g.points .src).find? (fun src => g.Ambiguous src) with
  | none =>
    obtain ⟨m, hm, hget⟩ := hwhole.sources_eq_ok ha ((find?_ambiguous_eq_none ha).mp hfind)
    rw [hm]
    apply addSources_eq_ok _ hget
    refine ⟨hwhole.kind_eq, hwhole.wires_eq, fun row => ⟨0, ?_, ?_⟩⟩
    · exact hwhole.row?_eq row
    · simp
  | some src =>
    rw [hwhole.sources_eq_error ha hfind]
    rfl

/-- The indices in the document of a graph are machine integers. -/
theorem toRecord_writable (ha : g.Anchored) (hu : g.hasRow .U = false) : g.toRecord.Writable := by
  have hindex : ∀ src e, g.exists? .src src = true → (PointRecord.ofPoint src e).Writable := by
    intro src e hsrc index hi
    have hlt : src.index < (g.interface src.row .src).length := of_decide_eq_true hsrc
    have hle := (g.interface src.row .src).length_le
    obtain rfl := Option.some.inj hi
    unfold maxElements at hle
    unfold Json.maxWord
    omega
  intro x hx p hp
  rcases (mem_toRecord hu).mp hx with ⟨row, s, -, rfl⟩ | ⟨-, rfl⟩
  · obtain ⟨⟨e, k⟩, -, rfl⟩ := List.mem_map.mp hp
    unfold dstRecord
    split
    · exact nofun
    · rename_i src hsrc
      exact hindex src e (ha _ src hsrc).2
  · simp only [listedRecords_eq] at hp
    obtain ⟨⟨src, e⟩, hmem, rfl⟩ := List.mem_map.mp hp
    exact hindex src e (exists?_iff.mpr (Option.isSome_of_eq_some (mem_listedSources.mp hmem).1))

theorem ofText_toText (hg : g.Known r) (ha : g.Anchored) (hu : g.hasRow .U = false) :
    ofText r g.toText =
      match (g.points .src).find? (fun src => g.Ambiguous src) with
      | none => .ok g
      | some src => .error (.document (.ambiguous src)) := by
  unfold ofText toText
  rw [GraphRecord.ofText?_toText (toRecord_writable ha hu)]
  exact toGraph_toRecord hg ha hu

/-- A graph is read back from its text exactly if no source is ambiguous; otherwise the first
ambiguous source is complained of. -/
theorem ofText_toText_iff (hg : g.Known r) (ha : g.Anchored) (hu : g.hasRow .U = false) :
    (ofText r g.toText = .ok g ↔ ∀ src, ¬ g.Ambiguous src) ∧
      ∀ src, (g.points .src).find? (fun src => g.Ambiguous src) = some src →
        ofText r g.toText = .error (.document (.ambiguous src)) := by
  rw [ofText_toText hg ha hu]
  cases hfind : (g.points .src).find? (fun src => g.Ambiguous src) with
  | none => simp [(find?_ambiguous_eq_none ha).mp hfind]
  | some src =>
    refine ⟨iff_of_false nofun fun hclear => ?_, fun src' heq => ?_⟩
    · rw [(find?_ambiguous_eq_none ha).mpr hclear] at hfind
      cases hfind
    · cases heq
      rfl

end Graph

namespace Code

theorem Sound.not_hasRow_U {r : Registry} {c : Code} (h : c.Sound r) :
    c.graph.hasRow .U = false := by
  have hpresence : c.graph.kind.presence .U = .forbidden := by cases c.graph.kind <;> rfl
  have hrow := (Graph.rowsViolation?_eq_none_iff.mp h.rows).2 .U
  unfold Graph.rowViolation? at hrow
  rw [hpresence] at hrow
  simpa using hrow

/-- A code whose input feeds a sub-code and the output. -/
def shared (sub output : Fin 65536) : Code :=
  (pair (.single 3) (.single output) (.codon (.single sub) .empty) (.codon .empty .empty)).wired
    [(⟨.I, 0⟩, ⟨.A, 0⟩), (⟨.I, 0⟩, ⟨.O, 0⟩)]

/-- The sub-code does not show the type of the input, which is listed therefore. -/
theorem ofText_toText_iff_listed :
    (shared 2 3).violation? sampleRegistry = none ∧
      (shared 2 3).graph.Known sampleRegistry ∧
      Graph.ofText sampleRegistry (shared 2 3).graph.toText = .ok (shared 2 3).graph := by
  have hv : (shared 2 3).violation? sampleRegistry = none := by decide +kernel
  have hs := (violation?_eq_none_iff.mp hv).1
  have hg : (shared 2 3).graph.Known sampleRegistry := Graph.known_of_rows (by decide +kernel)
  refine ⟨hv, hg, (Graph.ofText_toText_iff hg hs.anchored hs.not_hasRow_U).1.mpr ?_⟩
  exact (Graph.find?_ambiguous_eq_none hs.anchored).mp (by decide +kernel)

/-- The sub-code shows the type of the input, but the output takes any number. -/
theorem ofText_toText_shared :
    (shared 3 2).violation? sampleRegistry = none ∧
      (shared 3 2).graph.Known sampleRegistry ∧ (shared 3 2).graph.Anchored ∧
      (shared 3 2).graph.hasRow .U = false ∧
      Graph.ofText sampleRegistry (shared 3 2).graph.toText =
        .error (.document (.ambiguous ⟨.I, 0⟩)) := by
  have hv : (shared 3 2).violation? sampleRegistry = none := by decide +kernel
  have hs := (violation?_eq_none_iff.mp hv).1
  refine ⟨hv, Graph.known_of_rows (by decide +kernel), hs.anchored, hs.not_hasRow_U, ?_⟩
  decide +kernel

end Code

end GeneGraph
