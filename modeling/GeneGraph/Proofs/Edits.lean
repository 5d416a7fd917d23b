import GeneGraph.Insertion
import GeneGraph.Proofs.Canonical
import GeneGraph.Proofs.Maps

/-!
# What edits do to look-ups

Each edit of a graph is described by what it does to the rows (`Graph.row?`), to the interfaces
and to the source of each destination (`Graph.sourceOf?`). Connections follow their end points
when these move: `sourceOf?_moveWires_src` and `sourceOf?_moveWires_dst_eq_some_iff`, and
`sourceOf?_moveWires_onRow` where none goes away.
-/

namespace GeneGraph

theorem EndPoint.ext {p q : EndPoint} (hr : p.row = q.row) (hi : p.index = q.index) : p = q := by
  cases p; cases q
  cases hr; cases hi; rfl

theorem EndPoint.before_iff {p q : EndPoint} :
    Before p q ↔ Before p.row q.row ∨ p.row = q.row ∧ p.index < q.index := by
  have hrow : p.row.order = q.row.order ↔ p.row = q.row :=
    ⟨Row.order_injective, congrArg Row.order⟩
  unfold Before
  simp only [sortKey, List.cons_lt_cons_iff, hrow]
  simp

namespace Sides

variable {s : Sides} {a b : Side} {i : Interface}

@[simp] theorem side_empty (a : Side) : empty.side a = Interface.empty := by cases a <;> rfl

theorem side_setSide : (s.setSide a i).side b = if b = a then i else s.side b := by
  cases a <;> cases b <;> rfl

theorem ext {s s' : Sides} (h : ∀ a, s.side a = s'.side a) : s = s' := by
  cases s; cases s'
  have hd := h .dst
  have hs := h .src
  cases hd; cases hs; rfl

end Sides

theorem Graph.ext_iff {g g' : Graph} :
    g = g' ↔ g.kind = g'.kind ∧ g.rows = g'.rows ∧ g.wires = g'.wires := by
  cases g; cases g'
  simp

namespace Graph

variable {g g' : Graph} {row r : Row} {a b : Side} {s : Sides} {i : Interface}
  {p dst src : EndPoint} {move : Nat → Option Nat}

/-! ## Rows and interfaces -/

theorem interface_eq (g : Graph) (r : Row) (a : Side) :
    g.interface r a = ((g.row? r).getD .empty).side a := by
  rw [interface, interface?]
  cases g.row? r with
  | none => rw [Option.map_none, Option.getD_none, Option.getD_none, Sides.side_empty]
  | some s => rfl

theorem interface_of_row? (h : g.row? r = some s) : g.interface r a = s.side a := by
  rw [interface_eq, h, Option.getD_some]

theorem interface_of_row?_eq (h : g'.row? r = g.row? r) : g'.interface r a = g.interface r a := by
  rw [interface_eq, interface_eq, h]

theorem ept?_of_interface_eq (h : g'.interface p.row a = g.interface p.row a) :
    g'.ept? a p = g.ept? a p := by
  rw [ept?, ept?, h]

theorem exists?_iff : g.exists? a p = true ↔ (g.ept? a p).isSome := by
  rw [exists?, decide_eq_true_iff, ept?, Interface.get?_isSome_iff]
  rfl

theorem exists?_of_row? {k : Nat} (h : g.row? r = some s) :
    g.exists? a ⟨r, k⟩ = true ↔ k < (s.side a).length := by
  rw [exists?, decide_eq_true_iff, count, interface_of_row? h]

theorem row?_setRow (g : Graph) (row r : Row) (s : Sides) :
    (g.setRow row s).row? r = if r = row then some s else g.row? r :=
  SortedMap.get?_insert g.rows row r s

theorem interface_setRow :
    (g.setRow row s).interface r a = if r = row then s.side a else g.interface r a := by
  rw [interface_eq, row?_setRow]
  split
  · rfl
  · rw [interface_eq]

theorem row?_setSide (g : Graph) (row r : Row) (a : Side) (i : Interface) :
    (g.setSide row a i).row? r =
      if r = row then some (((g.row? row).getD .empty).setSide a i) else g.row? r :=
  SortedMap.get?_insert g.rows row r _

theorem interface_setSide :
    (g.setSide row a i).interface r b = if r = row ∧ b = a then i else g.interface r b := by
  rw [interface_eq, row?_setSide]
  by_cases hr : r = row
  · subst hr
    rw [if_pos rfl, Option.getD_some, Sides.side_setSide]
    by_cases hb : b = a
    · rw [if_pos hb, if_pos ⟨rfl, hb⟩]
    · rw [if_neg hb, if_neg fun h => hb h.2, interface_eq]
  · rw [if_neg hr, if_neg fun h => hr h.1, interface_eq]

theorem hasRow_setRow : (g.setRow row s).hasRow r = (decide (r = row) || g.hasRow r) := by
  rw [hasRow, row?_setRow]
  split <;> simp_all [hasRow]

theorem hasRow_setSide : (g.setSide row a i).hasRow r = (decide (r = row) || g.hasRow r) := by
  rw [hasRow, row?_setSide]
  split <;> simp_all [hasRow]

theorem row?_addRow (g : Graph) (row r : Row) :
    (g.addRow row).row? r = if r = row then some ((g.row? row).getD .empty) else g.row? r :=
  SortedMap.get?_insert g.rows row r _

theorem hasRow_addRow : (g.addRow row).hasRow r = (decide (r = row) || g.hasRow r) := by
  rw [hasRow, row?_addRow]
  split <;> simp_all [hasRow]

/-- A row that is added has no end points. -/
theorem interface_addRow : (g.addRow row).interface r a = g.interface r a := by
  rw [interface_eq, interface_eq, row?_addRow]
  split
  · rename_i hr
    rw [hr, Option.getD_some]
  · rfl

theorem row?_removeRow (g : Graph) (row r : Row) :
    (g.removeRow row).row? r = if r = row then none else g.row? r :=
  SortedMap.get?_erase g.rows row r

theorem hasRow_removeRow : (g.removeRow row).hasRow r = (!decide (r = row) && g.hasRow r) := by
  rw [hasRow, row?_removeRow]
  split <;> simp_all [hasRow]

theorem interface_removeRow :
    (g.removeRow row).interface r a = if r = row then .empty else g.interface r a := by
  rw [interface_eq, row?_removeRow]
  split
  · rw [Option.getD_none, Sides.side_empty]
  · rw [interface_eq]

theorem sourceOf?_setRow :
    (g.setRow row s).sourceOf? p =
      (g.sourceOf? p).filter fun src => p.row ≠ row && src.row ≠ row :=
  SortedMap.get?_filter g.wires _ p

theorem mem_wires : (dst, src) ∈ g.wires.toList ↔ g.sourceOf? dst = some src :=
  SortedMap.get?_eq_some_iff.symm

/-! ## Moving connections -/

theorem movePoint_of_row_ne (h : p.row ≠ row) : movePoint row move p = some p := if_neg h

theorem movePoint_row {q : EndPoint} (h : movePoint row move p = some q) : q.row = p.row := by
  rw [movePoint] at h
  split at h
  · rename_i hp
    obtain ⟨k, -, rfl⟩ := Option.map_eq_some_iff.mp h
    exact hp.symm
  · cases h; rfl

theorem movePoint_injective (hmove : ∀ k l m, move k = some m → move l = some m → k = l)
    {p q o : EndPoint} (hp : movePoint row move p = some o) (hq : movePoint row move q = some o) :
    p = q := by
  have hr : p.row = q.row := (movePoint_row hp).symm.trans (movePoint_row hq)
  obtain ⟨pr, pk⟩ := p
  obtain ⟨qr, qk⟩ := q
  obtain rfl : pr = qr := hr
  unfold movePoint at hp hq
  split at hp
  · rename_i hrow
    rw [if_pos hrow] at hq
    obtain ⟨k, hk, rfl⟩ := Option.map_eq_some_iff.mp hp
    obtain ⟨l, hl, ho⟩ := Option.map_eq_some_iff.mp hq
    obtain rfl : l = k := congrArg EndPoint.index ho
    exact congrArg (EndPoint.mk pr) (hmove pk qk l hk hl)
  · rename_i hrow
    rw [if_neg hrow] at hq
    exact (Option.some.inj hp).trans (Option.some.inj hq).symm

/-- A destination keeps its source when sources move, unless the source is gone. -/
theorem sourceOf?_moveWires_src :
    (g.moveWires row .src move).sourceOf? p = (g.sourceOf? p).bind (movePoint row move) := by
  refine Option.ext fun q => ?_
  have hkeys : ((g.wires.toList.filterMap fun e =>
      (movePoint row move e.2).map fun src => (e.1, src)).map Prod.fst).Nodup := by
    rw [List.Nodup, List.pairwise_map]
    refine List.Pairwise.filterMap _ (fun e e' hne d hd d' hd' => ?_) g.wires.ascending
    obtain ⟨-, -, rfl⟩ := Option.map_eq_some_iff.mp hd
    obtain ⟨-, -, rfl⟩ := Option.map_eq_some_iff.mp hd'
    exact Before.ne hne
  show (SortedMap.ofList _).get? p = some q ↔ _
  rw [SortedMap.get?_ofList_eq_some_iff hkeys, List.mem_filterMap, Option.bind_eq_some_iff]
  constructor
  · rintro ⟨⟨d, o⟩, he, h⟩
    obtain ⟨o', ho, h⟩ := Option.map_eq_some_iff.mp h
    cases h
    exact ⟨o, mem_wires.mp he, ho⟩
  · rintro ⟨o, ho, hq⟩
    exact ⟨(p, o), mem_wires.mpr ho, by rw [hq, Option.map_some]⟩

/-- When destinations move to different places, each source is found at the new place. -/
theorem sourceOf?_moveWires_dst_eq_some_iff
    (hmove : ∀ k l m, move k = some m → move l = some m → k = l) :
    (g.moveWires row .dst move).sourceOf? p = some src ↔
      ∃ q, movePoint row move q = some p ∧ g.sourceOf? q = some src := by
  have hkeys : ((g.wires.toList.filterMap fun e =>
      (movePoint row move e.1).map fun dst => (dst, e.2)).map Prod.fst).Nodup := by
    rw [List.Nodup, List.pairwise_map]
    refine List.Pairwise.filterMap _ (fun e e' hne d hd d' hd' => ?_) g.wires.ascending
    obtain ⟨q, hq, rfl⟩ := Option.map_eq_some_iff.mp hd
    obtain ⟨q', hq', rfl⟩ := Option.map_eq_some_iff.mp hd'
    rintro rfl
    exact Before.ne hne (movePoint_injective hmove hq hq')
  show (SortedMap.ofList _).get? p = some src ↔ _
  rw [SortedMap.get?_ofList_eq_some_iff hkeys, List.mem_filterMap]
  constructor
  · rintro ⟨⟨q, o⟩, he, h⟩
    obtain ⟨p', hp, h⟩ := Option.map_eq_some_iff.mp h
    cases h
    exact ⟨q, hp, mem_wires.mp he⟩
  · rintro ⟨q, hq, hs⟩
    exact ⟨(q, src), mem_wires.mpr hs, by rw [hq, Option.map_some]⟩

/-! ## Connecting -/

theorem checkPoint_eq_ok (h : g.exists? a p = true) : g.checkPoint a p = .ok () := if_pos h

theorem sourceOf?_insert_wire (g : Graph) (dst src p : EndPoint) :
    Graph.sourceOf? { g with wires := g.wires.insert dst src } p =
      if p = dst then some src else g.sourceOf? p :=
  SortedMap.get?_insert g.wires dst p src

/-- Two end points that exist can be connected. -/
theorem connect_eq_ok (hs : g.exists? .src src = true) (hd : g.exists? .dst dst = true) :
    g.connect src dst = (.ok (g.sourceOf? dst), { g with wires := g.wires.insert dst src }) := by
  rw [connect, checkPoint_eq_ok hs, checkPoint_eq_ok hd]

theorem connect_ok {prev : Option EndPoint} (h : g.connect src dst = (.ok prev, g')) :
    g.exists? .src src = true ∧ g.exists? .dst dst = true ∧
      g' = { g with wires := g.wires.insert dst src } := by
  rw [connect] at h
  split at h
  · cases h
  · cases h
  · rename_i hs hd
    rw [checkPoint] at hs hd
    split at hs
    · split at hd
      · cases h
        exact ⟨‹_›, ‹_›, rfl⟩
      · cases hd
    · cases hs

/-- What a sequence of connections does, whatever was connected before. -/
structure Connected (g : Graph) (wires : List (EndPoint × EndPoint)) (g' : Graph) : Prop where
  kind_eq : g'.kind = g.kind
  rows_eq : g'.rows = g.rows
  /-- A destination that is connected once gets its source. -/
  fed : ∀ src dst, (wires.map Prod.snd).Nodup → (src, dst) ∈ wires →
    g'.sourceOf? dst = some src
  kept : ∀ dst, dst ∉ wires.map Prod.snd → g'.sourceOf? dst = g.sourceOf? dst
  exist : ∀ w ∈ wires, g.exists? .src w.1 = true ∧ g.exists? .dst w.2 = true

theorem connectAll_cons (g : Graph) (w : EndPoint × EndPoint) (ws : List (EndPoint × EndPoint)) :
    g.connectAll (w :: ws) =
      match g.connect w.1 w.2 with
      | (.error err, _) => .error err
      | (.ok _, g) => g.connectAll ws := by
  rw [connectAll, List.foldlM_cons]
  cases g.connect w.1 w.2 with
  | mk answer g₁ => cases answer <;> rfl

theorem connectAll_ok {wires : List (EndPoint × EndPoint)} (h : g.connectAll wires = .ok g') :
    g.Connected wires g' := by
  induction wires generalizing g with
  | nil =>
    cases h
    exact ⟨rfl, rfl, fun _ _ _ h => absurd h List.not_mem_nil, fun _ _ => rfl,
      fun _ h => absurd h List.not_mem_nil⟩
  | cons w ws ih =>
    rw [connectAll_cons] at h
    split at h
    · cases h
    · rename_i prev g₁ hw
      obtain ⟨hs, hd, rfl⟩ := connect_ok hw
      have hr := ih h
      refine ⟨hr.kind_eq, hr.rows_eq, fun src dst hnd hmem => ?_, fun dst hmem => ?_,
        fun w' hw' => ?_⟩
      · rw [List.map_cons, List.nodup_cons] at hnd
        rcases List.mem_cons.mp hmem with rfl | hmem
        · rw [hr.kept _ hnd.1, sourceOf?_insert_wire, if_pos rfl]
        · exact hr.fed _ _ hnd.2 hmem
      · rw [List.map_cons, List.mem_cons, not_or] at hmem
        rw [hr.kept _ hmem.2, sourceOf?_insert_wire, if_neg hmem.1]
      · rcases List.mem_cons.mp hw' with rfl | hw'
        · exact ⟨hs, hd⟩
        · exact hr.exist w' hw'

/-- End points that exist can be connected, one pair after another. -/
theorem connectAll_total {wires : List (EndPoint × EndPoint)}
    (h : ∀ w ∈ wires, g.exists? .src w.1 = true ∧ g.exists? .dst w.2 = true) :
    ∃ g', g.connectAll wires = .ok g' := by
  induction wires generalizing g with
  | nil => exact ⟨g, rfl⟩
  | cons w ws ih =>
    obtain ⟨⟨hs, hd⟩, hws⟩ := List.forall_mem_cons.mp h
    rw [connectAll_cons, connect_eq_ok hs hd]
    exact ih hws

end Graph

/-! ## Inserting end points -/

namespace EndPoint

variable {row : Row} {f : Nat → Nat} {p : EndPoint}

/-- The end point when those of a row get the indices `f`. -/
def onRow (row : Row) (f : Nat → Nat) (p : EndPoint) : EndPoint :=
  if p.row = row then ⟨row, f p.index⟩ else p

theorem onRow_self (k : Nat) : onRow row f ⟨row, k⟩ = ⟨row, f k⟩ := if_pos rfl

theorem onRow_of_ne (h : p.row ≠ row) : p.onRow row f = p := if_neg h

theorem onRow_row : (p.onRow row f).row = p.row := by
  unfold onRow
  split
  · exact (‹p.row = row›).symm
  · rfl

theorem onRow_injective (hf : Function.Injective f) : Function.Injective (onRow row f) := by
  intro p q h
  have hrow : p.row = q.row := by rw [← onRow_row (p := p), h, onRow_row]
  unfold onRow at h
  rw [hrow] at h
  split at h
  · exact EndPoint.ext hrow (hf (congrArg EndPoint.index h))
  · exact h

/-- When an end point is inserted into a row, it has the only name that no old one gets. -/
theorem forall_onRow_shift_ne {i : Interface} {e : Ept} {q : EndPoint} :
    (∀ p, onRow row (i.shift e) p ≠ q) ↔ q = ⟨row, i.slot e⟩ := by
  constructor
  · intro h
    have hrow : q.row = row := by
      by_contra hne
      exact h q (onRow_of_ne hne)
    refine EndPoint.ext hrow ?_
    by_contra hne
    obtain ⟨j, hj⟩ := Interface.exists_shift hne
    exact h ⟨row, j⟩ ((onRow_self j).trans (EndPoint.ext hrow.symm hj))
  · rintro rfl p hp
    have hrow : p.row = row := onRow_row.symm.trans (congrArg EndPoint.row hp)
    rw [onRow, if_pos hrow] at hp
    exact i.shift_ne_slot e p.index (congrArg EndPoint.index hp)

end EndPoint

namespace Graph

variable {g g' : Graph} {row r : Row} {a : Side} {e : Ept} {k : Nat} {f : Nat → Nat}

theorem push_ok (h : g.push row a e = (.ok k, g')) :
    ∃ i', (g.interface row a).push e = .ok i' ∧ k = g.count row a ∧ g' = g.setSide row a i' := by
  rw [push] at h
  split at h
  · cases h
  · rename_i i' hi
    cases h
    exact ⟨i', hi, rfl, rfl⟩

theorem push_total (h : (g.interface row a).elements + e.length ≤ maxElements) :
    ∃ g', g.push row a e = (.ok (g.count row a), g') := by
  obtain ⟨i', hi⟩ := Interface.push_total h
  rw [push]
  simp only [hi]
  exact ⟨_, rfl⟩

theorem interface_push_of_ne {b : Side} {r : Row} (h : g.push row a e = (.ok k, g'))
    (hne : ¬ (r = row ∧ b = a)) : g'.interface r b = g.interface r b := by
  obtain ⟨i', -, -, rfl⟩ := push_ok h
  rw [interface_setSide, if_neg hne]

theorem ept?_push {b : Side} {p : EndPoint} (h : g.push row a e = (.ok k, g')) :
    g'.ept? b p = if b = a ∧ p = ⟨row, k⟩ then some e else g.ept? b p := by
  by_cases hside : p.row = row ∧ b = a
  · obtain ⟨i', hi, rfl, rfl⟩ := push_ok h
    obtain ⟨rfl, rfl⟩ := hside
    have hp : p = ⟨p.row, g.count p.row b⟩ ↔ p.index = (g.interface p.row b).length :=
      ⟨fun heq => congrArg EndPoint.index heq, fun heq => EndPoint.ext rfl heq⟩
    rw [ept?, interface_setSide, if_pos ⟨rfl, rfl⟩, Interface.get?_push hi]
    simp only [hp, true_and]
    rfl
  · rw [ept?, interface_push_of_ne h hside, if_neg]
    · rfl
    · rintro ⟨hb, rfl⟩
      exact hside ⟨rfl, hb⟩

theorem insert_ok (h : g.insert row a e = (.ok k, g')) :
    ∃ i', (g.interface row a).insert e = .ok i' ∧ k = (g.interface row a).slot e ∧
      g' = (g.setSide row a i').moveWires row a
        fun k => some ((g.interface row a).shift e k) := by
  rw [insert] at h
  split at h
  · cases h
  · rename_i i' hi
    cases h
    exact ⟨i', hi, rfl, rfl⟩

theorem interface_insert (h : g.insert row a e = (.ok k, g')) :
    ∃ i', (g.interface row a).insert e = .ok i' ∧
      ∀ r b, g'.interface r b = if r = row ∧ b = a then i' else g.interface r b := by
  obtain ⟨i', hi, -, rfl⟩ := insert_ok h
  exact ⟨i', hi, fun _ _ => interface_setSide⟩

theorem insert_total (h : (g.interface row a).elements + e.length ≤ maxElements) :
    ∃ k g', g.insert row a e = (.ok k, g') := by
  obtain ⟨i', hi⟩ := Interface.insert_total h
  rw [insert]
  simp only [hi]
  exact ⟨_, _, rfl⟩

/-- Inserting an end point leaves the other rows alone, even if it fails. -/
theorem row?_insert_of_ne (h : r ≠ row) : (g.insert row a e).2.row? r = g.row? r := by
  rw [insert]
  split
  · exact (row?_addRow g row r).trans (if_neg h)
  · exact (row?_setSide g row r a _).trans (if_neg h)

theorem movePoint_some {p : EndPoint} :
    movePoint row (fun k => some (f k)) p = some (p.onRow row f) := by
  unfold movePoint EndPoint.onRow
  split <;> rfl

/-- When no destination of a row goes away, each is found with its source at its new index. -/
theorem sourceOf?_moveWires_onRow (row : Row) (hf : Function.Injective f) (p : EndPoint) :
    (g.moveWires row .dst fun k => some (f k)).sourceOf? (p.onRow row f) = g.sourceOf? p := by
  refine Option.ext fun src => (sourceOf?_moveWires_dst_eq_some_iff fun k l m hk hl =>
    hf (Option.some.inj (hk.trans hl.symm))).trans ?_
  simp only [movePoint_some, Option.some.injEq]
  constructor
  · rintro ⟨q, hq, hs⟩
    rwa [← EndPoint.onRow_injective hf hq]
  · exact fun hs => ⟨p, rfl, hs⟩

/-- Where no destination of a row went, there is no source. -/
theorem sourceOf?_moveWires_fresh (hf : Function.Injective f)
    (hk : ∀ j, f j ≠ k) :
    (g.moveWires row .dst fun k => some (f k)).sourceOf? ⟨row, k⟩ = none := by
  refine Option.eq_none_iff_forall_ne_some.mpr fun src hs => ?_
  obtain ⟨q, hq, -⟩ := (sourceOf?_moveWires_dst_eq_some_iff fun k l m hk hl =>
    hf (Option.some.inj (hk.trans hl.symm))).mp hs
  rw [movePoint_some, Option.some.injEq] at hq
  have hrow : q.row = row := by rw [← EndPoint.onRow_row (p := q), hq]
  rw [EndPoint.onRow, if_pos hrow] at hq
  exact hk q.index (congrArg EndPoint.index hq)

end Graph

end GeneGraph
