import GeneGraph.Proofs.Identity
import Mathlib.Data.List.InsertIdx

/-!
# Indices stand for identities

Every operation on graphs sends end points to new places, or away: both kinds of graphs
`Relocates` their connections alike, one by rewriting indices, the other by doing nothing or by
dropping what has gone. So an operation takes a graph that `Represents` one with identities to
another such graph, with answers that name the same end points (`apply_represents`). A graph that
is made by a sequence of operations represents the graph with identities that is made by the same
sequence (`trace_represents`).
-/

namespace GeneGraph

/-! ## Relocation -/

/-- The connections of `g'` are those of `g` between end points that stay; `move` says where. -/
def Graph.Relocates (move : Side → EndPoint → Option EndPoint) (g g' : Graph) : Prop :=
  ∀ dst' src', g'.sourceOf? dst' = some src' ↔ ∃ dst src, g.sourceOf? dst = some src ∧
    move .dst dst = some dst' ∧ move .src src = some src'

/-- End points that stay keep their identities, and the connections between them stay. -/
structure IdGraph.Relocates (move : Side → EndPoint → Option EndPoint) (h h' : IdGraph) : Prop where
  keep : ∀ a p p' n, h.id? a p = some n → move a p = some p' → h'.id? a p' = some n
  back : ∀ a p' n, h'.id? a p' = some n → n < h.fresh →
    ∃ p, move a p = some p' ∧ h.id? a p = some n
  /-- New identities belong to one end point each. -/
  made : ∀ a b p q n, h.fresh ≤ n → h'.id? a p = some n → h'.id? b q = some n → a = b ∧ p = q
  older : ∀ a p n, h'.id? a p = some n → n < h'.fresh
  fewer : ∀ d s, h'.wires.get? d = some s → h.wires.get? d = some s
  wires : ∀ p q d s, h.id? .dst p = some d → h.id? .src q = some s → h.wires.get? d = some s →
    (h'.wires.get? d = some s ↔ (move .dst p).isSome ∧ (move .src q).isSome)

section Relocation

variable {g g' : Graph} {h h' : IdGraph} {move : Side → EndPoint → Option EndPoint}

/-- Relocation on both sides keeps indices and identities together. -/
theorem Represents.relocate (hr : Represents g h) (move : Side → EndPoint → Option EndPoint)
    (hg : g.Relocates move g') (hh : h.Relocates move h') (hkind : h'.kind = g'.kind)
    (hrow : ∀ row, h'.hasRow row = g'.hasRow row)
    (hepts : ∀ row a, (h'.side row a).map Tagged.ept = (g'.interface row a).epts) :
    Represents g' h' where
  kind_eq := hkind
  row_eq := hrow
  epts_eq := hepts
  distinct a b p' q' n hp hq := by
    by_cases hn : n < h.fresh
    · obtain ⟨p, hmp, hp⟩ := hh.back a p' n hp hn
      obtain ⟨q, hmq, hq⟩ := hh.back b q' n hq hn
      obtain ⟨rfl, rfl⟩ := hr.distinct a b p q n hp hq
      rw [hmp] at hmq
      exact ⟨rfl, Option.some.inj hmq⟩
    · exact hh.made a b p' q' n (Nat.le_of_not_lt hn) hp hq
  older := hh.older
  wires dst' src' := by
    rw [hg dst' src']
    constructor
    · rintro ⟨dst, src, hs, hdst, hsrc⟩
      obtain ⟨d, s, hd, hs, hw⟩ := (hr.wires dst src).mp hs
      refine ⟨d, s, hh.keep _ _ _ _ hd hdst, hh.keep _ _ _ _ hs hsrc, ?_⟩
      apply (hh.wires dst src d s hd hs hw).mpr
      simp [hdst, hsrc]
    · rintro ⟨d, s, hd, hs, hw⟩
      have hold := hh.fewer d s hw
      obtain ⟨⟨p, hp⟩, q, hq⟩ := hr.live d s hold
      obtain ⟨dst, hdst, hd⟩ := hh.back .dst dst' d hd (hr.older _ _ _ hp)
      obtain ⟨src, hsrc, hs⟩ := hh.back .src src' s hs (hr.older _ _ _ hq)
      exact ⟨dst, src, (hr.wires dst src).mpr ⟨d, s, hd, hs, hold⟩, hdst, hsrc⟩
  live d s hw := by
    have hold := hh.fewer d s hw
    obtain ⟨⟨p, hp⟩, q, hq⟩ := hr.live d s hold
    obtain ⟨hmp, hmq⟩ := (hh.wires p q d s hp hq hold).mp hw
    obtain ⟨p', hmp⟩ := Option.isSome_iff_exists.mp hmp
    obtain ⟨q', hmq⟩ := Option.isSome_iff_exists.mp hmq
    exact ⟨⟨p', hh.keep _ _ _ _ hp hmp⟩, q', hh.keep _ _ _ _ hq hmq⟩

/-- Where all end points stay, so do all connections. -/
theorem IdGraph.relocates_of_total (hmove : ∀ a p, (move a p).isSome)
    (hwires : h'.wires = h.wires)
    (keep : ∀ a p p' n, h.id? a p = some n → move a p = some p' → h'.id? a p' = some n)
    (back : ∀ a p' n, h'.id? a p' = some n → n < h.fresh →
      ∃ p, move a p = some p' ∧ h.id? a p = some n)
    (made : ∀ a b p q n, h.fresh ≤ n → h'.id? a p = some n → h'.id? b q = some n → a = b ∧ p = q)
    (older : ∀ a p n, h'.id? a p = some n → n < h'.fresh) : h.Relocates move h' where
  keep := keep
  back := back
  made := made
  older := older
  fewer d s hw := by rwa [hwires] at hw
  wires p q d s _ _ hw := by simp [hwires, hw, hmove]

/-- Connections between end points that do not move stay. -/
theorem Graph.relocates_of_fixed (hs : ∀ p, g'.sourceOf? p = g.sourceOf? p)
    (hfix : ∀ dst src, g.sourceOf? dst = some src →
      move .dst dst = some dst ∧ move .src src = some src) : g.Relocates move g' := by
  intro dst' src'
  rw [hs]
  constructor
  · intro hsrc
    exact ⟨dst', src', hsrc, hfix dst' src' hsrc⟩
  · rintro ⟨dst, src, hsrc, hd, hs⟩
    obtain ⟨hd', hs'⟩ := hfix dst src hsrc
    rw [hd', Option.some.injEq] at hd
    rw [hs', Option.some.injEq] at hs
    rwa [← hd, ← hs]

/-- Renamed connections are relocated. -/
theorem Graph.Moves.relocates {ρ : Side → EndPoint → EndPoint}
    (hm : Moves (ρ .dst) (ρ .src) g g') : g.Relocates (fun a p => some (ρ a p)) g' := by
  intro dst' src'
  constructor
  · intro hs
    obtain ⟨dst, rfl⟩ := hm.onto dst'
    rw [hm.source_eq] at hs
    obtain ⟨src, hsrc, rfl⟩ := Option.map_eq_some_iff.mp hs
    exact ⟨dst, src, hsrc, rfl, rfl⟩
  · rintro ⟨dst, src, hsrc, hd, hs⟩
    obtain rfl := Option.some.inj hd
    obtain rfl := Option.some.inj hs
    rw [hm.source_eq, hsrc, Option.map_some]

end Relocation

/-! ## One side of a row -/

section Side

variable {g : Graph} {h h' : IdGraph} {row : Row} {a b : Side} {move : Nat → Option Nat}
  {l l' : List Tagged} {p : EndPoint} {n k made : Nat} {e : Ept}

/-- Where an end point goes when those of one side of a row are moved. -/
def moveAt (row : Row) (a : Side) (move : Nat → Option Nat) (b : Side) (p : EndPoint) :
    Option EndPoint :=
  if b = a then Graph.movePoint row move p else some p

theorem moveAt_self (k : Nat) :
    moveAt row a move a ⟨row, k⟩ = (move k).map fun k => ⟨row, k⟩ := by
  unfold moveAt Graph.movePoint
  rw [if_pos rfl, if_pos rfl]

theorem moveAt_other (hp : ¬ (p.row = row ∧ b = a)) : moveAt row a move b p = some p := by
  unfold moveAt Graph.movePoint
  by_cases hb : b = a
  · rw [if_pos hb, if_neg fun hr => hp ⟨hr, hb⟩]
  · rw [if_neg hb]

/-- Moved end points take their connections along. -/
theorem Graph.relocates_moveWires (i : Interface)
    (hinj : ∀ k l m, move k = some m → move l = some m → k = l) :
    g.Relocates (moveAt row a move) ((g.setSide row a i).moveWires row a move) := by
  intro dst' src'
  cases a with
  | src =>
    rw [sourceOf?_moveWires_src]
    show (g.sourceOf? dst').bind _ = some src' ↔ _
    simp [moveAt, Option.bind_eq_some_iff]
  | dst =>
    rw [sourceOf?_moveWires_dst_eq_some_iff hinj]
    show (∃ q, _ ∧ g.sourceOf? q = some src') ↔ _
    simp [moveAt, and_comm]

/-- `l'` has the end points of `l` that stay, where `move` says, and perhaps a new one, which has
the identity `n` and is at `made`. -/
structure Relisted (move : Nat → Option Nat) (n made : Nat) (l l' : List Tagged) : Prop where
  keep : ∀ k k' t, l[k]? = some t → move k = some k' → l'[k']? = some t
  back : ∀ k' t, l'[k']? = some t →
    (∃ k, move k = some k' ∧ l[k]? = some t) ∨ (k' = made ∧ t.id = n)

theorem relisted_insertIdx (hk : k ≤ l.length) :
    Relisted (fun i => some (if k ≤ i then i + 1 else i)) n k l (l.insertIdx k ⟨n, e⟩) where
  keep i i' t ht hi := by
    obtain rfl := Option.some.inj hi
    split
    · rw [List.getElem?_insertIdx_of_gt (by omega)]
      exact ht
    · rw [List.getElem?_insertIdx_of_lt (by omega)]
      exact ht
  back i' t ht := by
    rw [List.getElem?_insertIdx] at ht
    split at ht
    · left
      exact ⟨i', by rw [if_neg (by omega)], ht⟩
    · split at ht
      · rw [if_pos (by omega), Option.some.injEq] at ht
        right
        exact ⟨‹_›, by rw [← ht]⟩
      · left
        refine ⟨i' - 1, ?_, ht⟩
        rw [if_pos (by omega), Option.some.injEq]
        omega

theorem relisted_eraseIdx (made : Nat) :
    Relisted (fun i => if i < k then some i else if i = k then none else some (i - 1)) n made l
      (l.eraseIdx k) where
  keep i i' t ht hi := by
    rw [List.getElem?_eraseIdx]
    split at hi
    · obtain rfl := Option.some.inj hi
      rwa [if_pos ‹_›]
    · split at hi
      · cases hi
      · obtain rfl := Option.some.inj hi
        rwa [if_neg (by omega), show i - 1 + 1 = i by omega]
  back i' t ht := by
    left
    rw [List.getElem?_eraseIdx] at ht
    split at ht
    · exact ⟨i', if_pos ‹_›, ht⟩
    · refine ⟨i' + 1, ?_, ht⟩
      rw [if_neg (by omega), if_neg (by omega), Nat.add_sub_cancel]

/-- One side of a row is written. -/
def IdGraph.Writes (h : IdGraph) (row : Row) (a : Side) (l : List Tagged) (h' : IdGraph) : Prop :=
  ∀ r b, h'.side r b = if r = row ∧ b = a then l else h.side r b

theorem IdGraph.Writes.id?_self (hw : h.Writes row a l h') (k : Nat) :
    h'.id? a ⟨row, k⟩ = l[k]?.map Tagged.id := by
  rw [id?, hw, if_pos ⟨rfl, rfl⟩]

theorem IdGraph.Writes.id?_other (hw : h.Writes row a l h') (hp : ¬ (p.row = row ∧ b = a)) :
    h'.id? b p = h.id? b p := by
  rw [id?, hw, if_neg hp, id?]

theorem IdGraph.id?_eq_some_iff : h.id? a p = some n ↔
    ∃ t, (h.side p.row a)[p.index]? = some t ∧ t.id = n := by
  rw [id?, Option.map_eq_some_iff]

/-- Writing one side relocates the end points of that side. -/
theorem Represents.relocates_side (hr : Represents g h) (hside : h.Writes row a l h')
    (hl : Relisted move h.fresh made (h.side row a) l) (hle : h.fresh ≤ h'.fresh)
    (hnew : ∀ (k : Nat) (t : Tagged), l[k]? = some t → t.id < h'.fresh)
    (fewer : ∀ d s, h'.wires.get? d = some s → h.wires.get? d = some s)
    (wires : ∀ p q d s, h.id? .dst p = some d → h.id? .src q = some s → h.wires.get? d = some s →
      (h'.wires.get? d = some s ↔
        (moveAt row a move .dst p).isSome ∧ (moveAt row a move .src q).isSome)) :
    h.Relocates (moveAt row a move) h' where
  keep b p p' n hp hmove := by
    obtain ⟨r, k⟩ := p
    by_cases hb : r = row ∧ b = a
    · obtain ⟨rfl, rfl⟩ := hb
      rw [moveAt_self] at hmove
      obtain ⟨k', hk, rfl⟩ := Option.map_eq_some_iff.mp hmove
      obtain ⟨t, ht, rfl⟩ := IdGraph.id?_eq_some_iff.mp hp
      rw [hside.id?_self, hl.keep k k' t ht hk, Option.map_some]
    · rw [moveAt_other hb] at hmove
      obtain rfl := Option.some.inj hmove
      rwa [hside.id?_other hb]
  back b p' n hp hn := by
    obtain ⟨r, k'⟩ := p'
    by_cases hb : r = row ∧ b = a
    · obtain ⟨rfl, rfl⟩ := hb
      rw [hside.id?_self] at hp
      obtain ⟨t, ht, rfl⟩ := Option.map_eq_some_iff.mp hp
      rcases hl.back k' t ht with ⟨k, hk, hold⟩ | ⟨-, hid⟩
      · refine ⟨⟨r, k⟩, ?_, IdGraph.id?_eq_some_iff.mpr ⟨t, hold, rfl⟩⟩
        rw [moveAt_self, hk, Option.map_some]
      · omega
    · rw [hside.id?_other hb] at hp
      exact ⟨⟨r, k'⟩, moveAt_other hb, hp⟩
  made := by
    have hat : ∀ b p n, h.fresh ≤ n → h'.id? b p = some n → b = a ∧ p = ⟨row, made⟩ := by
      intro b p n hn hp
      obtain ⟨r, k'⟩ := p
      by_cases hb : r = row ∧ b = a
      · obtain ⟨rfl, rfl⟩ := hb
        rw [hside.id?_self] at hp
        obtain ⟨t, ht, rfl⟩ := Option.map_eq_some_iff.mp hp
        rcases hl.back k' t ht with ⟨k, -, hold⟩ | ⟨rfl, -⟩
        · have := hr.older b ⟨r, k⟩ t.id (IdGraph.id?_eq_some_iff.mpr ⟨t, hold, rfl⟩)
          omega
        · exact ⟨rfl, rfl⟩
      · rw [hside.id?_other hb] at hp
        have := hr.older b ⟨r, k'⟩ n hp
        omega
    intro b c p q n hn hp hq
    obtain ⟨rfl, rfl⟩ := hat b p n hn hp
    obtain ⟨rfl, rfl⟩ := hat c q n hn hq
    exact ⟨rfl, rfl⟩
  older b p n hp := by
    obtain ⟨r, k⟩ := p
    by_cases hb : r = row ∧ b = a
    · obtain ⟨rfl, rfl⟩ := hb
      rw [hside.id?_self] at hp
      obtain ⟨t, ht, rfl⟩ := Option.map_eq_some_iff.mp hp
      exact hnew k t ht
    · rw [hside.id?_other hb] at hp
      exact Nat.lt_of_lt_of_le (hr.older b _ n hp) hle
  fewer := fewer
  wires := wires

end Side

/-! ## Operations on rows -/

namespace Represents

variable {g g' : Graph} {h h' : IdGraph} {row : Row} {a b : Side} {p : EndPoint} {n : Nat}

theorem addRow (hr : Represents g h) (row : Row) : Represents (g.addRow row) (h.addRow row) where
  kind_eq := hr.kind_eq
  row_eq r := by
    rw [Graph.hasRow_addRow, ← hr.row_eq]
    rfl
  epts_eq r a := by
    rw [Graph.interface_addRow]
    exact hr.epts_eq r a
  distinct := hr.distinct
  older := hr.older
  wires := hr.wires
  live := hr.live

/-- The end points of a row are those whose identities are in it. -/
theorem inRow_eq (hr : Represents g h) (hp : h.id? a p = some n) :
    h.inRow row a n = decide (p.row = row) := by
  rw [Bool.eq_iff_iff, decide_eq_true_iff, IdGraph.inRow, List.any_eq_true]
  constructor
  · rintro ⟨t, ht, hid⟩
    obtain ⟨k, hk⟩ := List.mem_iff_getElem?.mp ht
    have hq : h.id? a ⟨row, k⟩ = some n :=
      IdGraph.id?_eq_some_iff.mpr ⟨t, hk, of_decide_eq_true hid⟩
    rw [(hr.distinct a a p ⟨row, k⟩ n hp hq).2]
  · rintro rfl
    obtain ⟨t, ht, hid⟩ := IdGraph.id?_eq_some_iff.mp hp
    exact ⟨t, List.mem_of_getElem? ht, decide_eq_true hid⟩

/-- Where end points go when a row is emptied. -/
def leaveRow (row : Row) (_ : Side) (p : EndPoint) : Option EndPoint :=
  if p.row = row then none else some p

theorem relocates_dropWires (hw : g'.wires = g.dropWires row) : g.Relocates (leaveRow row) g' := by
  intro dst' src'
  have hs : g'.sourceOf? dst' = (g.sourceOf? dst').filter fun src =>
      dst'.row ≠ row && src.row ≠ row := by
    rw [Graph.sourceOf?, hw]
    exact SortedMap.get?_filter g.wires _ dst'
  rw [hs, Option.filter_eq_some_iff]
  unfold leaveRow
  constructor
  · rintro ⟨hs, hrow⟩
    simp only [Bool.and_eq_true, decide_eq_true_eq] at hrow
    exact ⟨dst', src', hs, if_neg hrow.1, if_neg hrow.2⟩
  · rintro ⟨dst, src, hs, hd, hs'⟩
    split at hd
    · cases hd
    · split at hs'
      · cases hs'
      · obtain rfl := Option.some.inj hd
        obtain rfl := Option.some.inj hs'
        simp_all

/-- The end points of a row leave, and others may come. -/
theorem relocates_leaveRow (hr : Represents g h)
    (hside : ∀ r, r ≠ row → h'.side r = h.side r)
    (hnew : ∀ b k n, h'.id? b ⟨row, k⟩ = some n → h.fresh ≤ n ∧ n < h'.fresh)
    (hmade : ∀ b c k l n, h'.id? b ⟨row, k⟩ = some n → h'.id? c ⟨row, l⟩ = some n → b = c ∧ k = l)
    (hle : h.fresh ≤ h'.fresh) (hw : h'.wires = h.dropWires row) :
    h.Relocates (leaveRow row) h' := by
  have hother : ∀ b p, p.row ≠ row → h'.id? b p = h.id? b p := by
    intro b p hp
    rw [IdGraph.id?, hside p.row hp, IdGraph.id?]
  have hget : ∀ d s, h'.wires.get? d = some s ↔ h.wires.get? d = some s ∧
      (!h.inRow row .dst d && !h.inRow row .src s) = true := by
    intro d s
    rw [hw, IdGraph.dropWires, SortedMap.get?_filter, Option.filter_eq_some_iff]
  constructor
  · intro b p p' n hp hmove
    unfold leaveRow at hmove
    split at hmove
    · cases hmove
    · obtain rfl := Option.some.inj hmove
      rwa [hother b p ‹_›]
  · intro b p' n hp hn
    by_cases hrow : p'.row = row
    · have := (hnew b p'.index n (by rw [← hrow]; exact hp)).1
      omega
    · exact ⟨p', if_neg hrow, by rwa [← hother b p' hrow]⟩
  · intro b c p q n hn hp hq
    have hin : ∀ b p, h'.id? b p = some n → p.row = row := by
      intro b p hp
      by_contra hrow
      rw [hother b p hrow] at hp
      have := hr.older b p n hp
      omega
    obtain ⟨r, k⟩ := p
    obtain ⟨r', l⟩ := q
    obtain rfl : r = row := hin b _ hp
    obtain rfl : r' = r := hin c _ hq
    obtain ⟨rfl, rfl⟩ := hmade b c k l n hp hq
    exact ⟨rfl, rfl⟩
  · intro b p n hp
    by_cases hrow : p.row = row
    · exact (hnew b p.index n (by rw [← hrow]; exact hp)).2
    · rw [hother b p hrow] at hp
      exact Nat.lt_of_lt_of_le (hr.older b p n hp) hle
  · intro d s hd
    exact ((hget d s).mp hd).1
  · intro p q d s hp hq hd
    rw [hget, hr.inRow_eq hp, hr.inRow_eq hq]
    unfold leaveRow
    by_cases hprow : p.row = row <;> by_cases hqrow : q.row = row <;> simp [hprow, hqrow, hd]

theorem getElem?_tag (n : Nat) (l : List Ept) (k : Nat) :
    (IdGraph.tag n l)[k]? = l[k]?.map fun e => ⟨n + k, e⟩ := by
  induction l generalizing n k with
  | nil => rfl
  | cons e l ih =>
    cases k with
    | zero => rfl
    | succ k =>
      rw [IdGraph.tag, List.getElem?_cons_succ, ih, List.getElem?_cons_succ]
      simp [Nat.add_assoc, Nat.add_comm 1]

theorem map_ept_tag (n : Nat) (l : List Ept) : (IdGraph.tag n l).map Tagged.ept = l := by
  induction l generalizing n with
  | nil => rfl
  | cons e l ih => rw [IdGraph.tag, List.map_cons, ih]

/-- The identities of a row that is written. -/
theorem id?_setRow {s : Sides} {k : Nat} : (h.setRow row s).id? a ⟨row, k⟩ = some n ↔
    k < (s.side a).length ∧ IdGraph.firstId h.fresh s a + k = n := by
  have hside : (h.setRow row s).side row a =
      IdGraph.tag (IdGraph.firstId h.fresh s a) (s.side a).epts := if_pos rfl
  rw [IdGraph.id?, hside, getElem?_tag, Option.map_map, Option.map_eq_some_iff]
  constructor
  · rintro ⟨e, he, hn⟩
    exact ⟨(List.getElem?_eq_some_iff.mp he).1, hn⟩
  · rintro ⟨hk, hn⟩
    exact ⟨_, List.getElem?_eq_getElem hk, hn⟩

theorem setRow (hr : Represents g h) (row : Row) (s : Sides) :
    Represents (g.setRow row s) (h.setRow row s) := by
  apply hr.relocate (leaveRow row)
  · exact relocates_dropWires rfl
  · apply hr.relocates_leaveRow
    · intro r hrow
      exact funext fun b => if_neg hrow
    · intro b k n hp
      obtain ⟨hk, rfl⟩ := id?_setRow.mp hp
      show h.fresh ≤ _ ∧ _ < h.fresh + s.dst.length + s.src.length
      cases b <;> simp only [IdGraph.firstId, Sides.side] at * <;> omega
    · intro b c k l n hp hq
      obtain ⟨hk, hn⟩ := id?_setRow.mp hp
      obtain ⟨hl, hn'⟩ := id?_setRow.mp hq
      cases b <;> cases c <;>
        simp only [IdGraph.firstId, Sides.side, true_and, reduceCtorEq, false_and] at * <;> omega
    · show h.fresh ≤ h.fresh + s.dst.length + s.src.length
      omega
    · rfl
  · exact hr.kind_eq
  · intro r
    rw [Graph.hasRow_setRow, ← hr.row_eq]
    rfl
  · intro r b
    rw [Graph.interface_setRow]
    show (if r = row then IdGraph.tag (IdGraph.firstId h.fresh s b) (s.side b).epts
      else h.side r b).map Tagged.ept = _
    split
    · exact map_ept_tag _ _
    · exact hr.epts_eq r b

theorem removeRow (hr : Represents g h) (row : Row) :
    Represents (g.removeRow row) (h.removeRow row) := by
  have hnone : ∀ b k, (h.removeRow row).id? b ⟨row, k⟩ = none := by
    intro b k
    unfold IdGraph.id? IdGraph.removeRow
    simp
  apply hr.relocate (leaveRow row)
  · exact relocates_dropWires rfl
  · apply hr.relocates_leaveRow
    · intro r hrow
      exact funext fun b => if_neg hrow
    · intro b k n hp
      rw [hnone] at hp
      cases hp
    · intro b c k l n hp
      rw [hnone] at hp
      cases hp
    · exact Nat.le_refl _
    · rfl
  · exact hr.kind_eq
  · intro r
    rw [Graph.hasRow_removeRow, ← hr.row_eq]
    rfl
  · intro r b
    rw [Graph.interface_removeRow]
    show (if r = row then [] else h.side r b).map Tagged.ept = _
    split
    · rfl
    · exact hr.epts_eq r b

/-! ## Adding and removing end points -/

theorem demand_eq (hr : Represents g h) (row : Row) (a : Side) (e : Ept) :
    h.demand row a e = (g.interface row a).elements + e.length := by
  rw [IdGraph.demand, hr.epts_eq, Interface.elements]

theorem slot_eq (hr : Represents g h) (row : Row) (a : Side) (e : Ept) :
    h.slot row a e = (g.interface row a).slot e := by
  unfold IdGraph.slot Interface.slot Interface.get?
  rw [hr.length_eq, ← hr.epts_eq]
  simp only [List.getElem?_map, Option.any_map]

theorem get?_epts (hr : Represents g h) (row : Row) (a : Side) (k : Nat) :
    (g.interface row a).get? k = (h.side row a)[k]?.map Tagged.ept := by
  rw [Interface.get?, ← hr.epts_eq, List.getElem?_map]

theorem lt_fresh (hr : Represents g h) {k : Nat} {t : Tagged} (ht : (h.side row a)[k]? = some t) :
    t.id < h.fresh :=
  hr.older a ⟨row, k⟩ t.id (IdGraph.id?_eq_some_iff.mpr ⟨t, ht, rfl⟩)

/-- The graph with a new end point at an index of a side. -/
def created (h : IdGraph) (row : Row) (a : Side) (e : Ept) (k : Nat) : IdGraph :=
  { (h.addRow row).setSide row a ((h.side row a).insertIdx k ⟨h.fresh, e⟩) with
    fresh := h.fresh + 1 }

/-- A new end point moves those behind it on. -/
theorem create (hr : Represents g h) {e : Ept} {k : Nat} {i : Interface}
    (hk : k ≤ (h.side row a).length) (hi : i.epts = (g.interface row a).epts.insertIdx k e)
    (hkind : g'.kind = g.kind) (hrows : g'.rows = (g.setSide row a i).rows)
    (hwires : g.Relocates (moveAt row a fun j => some (if k ≤ j then j + 1 else j)) g') :
    Represents g' (created h row a e k) := by
  have hrow? : ∀ r, g'.row? r = (g.setSide row a i).row? r := by
    intro r
    rw [Graph.row?, hrows]
    rfl
  have hw : h.Writes row a ((h.side row a).insertIdx k ⟨h.fresh, e⟩) (created h row a e k) :=
    fun _ _ => rfl
  apply hr.relocate _ hwires
  · apply hr.relocates_side hw (relisted_insertIdx hk)
    · exact Nat.le_succ _
    · intro j t ht
      rcases (relisted_insertIdx hk).back j t ht with ⟨l, -, hl⟩ | ⟨-, hid⟩
      · exact Nat.lt_succ_of_lt (hr.lt_fresh hl)
      · rw [hid]
        exact Nat.lt_succ_self _
    · exact fun _ _ hd => hd
    · intro p q d s _ _ hd
      refine iff_of_true hd ⟨?_, ?_⟩ <;>
      · unfold moveAt Graph.movePoint
        split <;> try split
        all_goals rfl
  · exact hr.kind_eq.trans hkind.symm
  · intro r
    rw [Graph.hasRow, hrow?, ← Graph.hasRow, Graph.hasRow_setSide, ← hr.row_eq]
    rfl
  · intro r b
    rw [Graph.interface_of_row?_eq (hrow? r), Graph.interface_setSide, hw]
    split
    · rw [List.map_insertIdx, hr.epts_eq, hi]
    · exact hr.epts_eq r b

/-- The end point that is made has the new identity. -/
theorem id?_created {e : Ept} {k : Nat} (hk : k ≤ (h.side row a).length) :
    (created h row a e k).id? a ⟨row, k⟩ = some h.fresh := by
  have hw : h.Writes row a ((h.side row a).insertIdx k ⟨h.fresh, e⟩) (created h row a e k) :=
    fun _ _ => rfl
  rw [hw.id?_self, List.getElem?_insertIdx_self, if_pos hk, Option.map_some]

/-- An end point that exists is not behind the last one. -/
theorem moveAt_of_exists (hlen : (h.side row a).length = (g.interface row a).length)
    (hp : g.exists? b p = true) :
    moveAt row a (fun j => some (if (h.side row a).length ≤ j then j + 1 else j)) b p =
      some p := by
  obtain ⟨r, k⟩ := p
  by_cases hb : r = row ∧ b = a
  · obtain ⟨rfl, rfl⟩ := hb
    have hlt : k < (g.interface r b).length := of_decide_eq_true hp
    rw [moveAt_self, Option.map_some, if_neg (by omega)]
  · exact moveAt_other hb

theorem push (hr : Represents g h) (row : Row) (a : Side) (e : Ept) :
    Names (h.apply (.push row a e)).2 (g.apply (.push row a e)).1 (h.apply (.push row a e)).1 ∧
      Represents (g.apply (.push row a e)).2 (h.apply (.push row a e)).2 := by
  have hlen := hr.length_eq row a
  simp only [Graph.apply, IdGraph.apply, Graph.push, IdGraph.create, hr.demand_eq, Interface.push,
    Interface.grow]
  by_cases hfit : (g.interface row a).elements + e.length ≤ maxElements
  · simp only [hfit, dif_pos, if_pos, Graph.answer]
    constructor
    · apply Names.points
      rw [← hlen]
      exact .cons (id?_created (Nat.le_refl _)) .nil
    · refine hr.create (Nat.le_refl _) ?_ rfl rfl ?_
      · rw [hlen]
        exact List.insertIdx_length_self.symm
      · apply Graph.relocates_of_fixed
        · exact fun _ => rfl
        · intro dst src hs
          obtain ⟨hd, hs⟩ := hr.anchored dst src hs
          exact ⟨moveAt_of_exists hlen hd, moveAt_of_exists hlen hs⟩
  · simp only [hfit, dif_neg, if_neg, not_false_eq_true, Graph.answer]
    exact ⟨.failed _, hr.addRow row⟩

theorem insert (hr : Represents g h) (row : Row) (a : Side) (e : Ept) :
    Names (h.apply (.insert row a e)).2 (g.apply (.insert row a e)).1
      (h.apply (.insert row a e)).1 ∧
      Represents (g.apply (.insert row a e)).2 (h.apply (.insert row a e)).2 := by
  have hle : (g.interface row a).slot e ≤ (h.side row a).length := by
    rw [hr.length_eq]
    exact Interface.slot_le _ e
  simp only [Graph.apply, IdGraph.apply, Graph.insert, IdGraph.create, hr.demand_eq, hr.slot_eq,
    Interface.insert, Interface.grow]
  by_cases hfit : (g.interface row a).elements + e.length ≤ maxElements
  · simp only [hfit, dif_pos, if_pos, Graph.answer]
    constructor
    · exact .points a _ _ (.cons (id?_created hle) .nil)
    · refine hr.create hle ?_ rfl rfl ?_
      · exact Interface.take_append_cons_drop e (Interface.slot_le _ e)
      · apply Graph.relocates_moveWires
        intro k l m hk hl
        simp only [Option.some.injEq] at hk hl
        split at hk <;> split at hl <;> omega
  · simp only [hfit, dif_neg, if_neg, not_false_eq_true, Graph.answer]
    exact ⟨.failed _, hr.addRow row⟩

/-- Where end points go when the one at an index is removed. -/
def close (index i : Nat) : Option Nat :=
  if i < index then some i else if i = index then none else some (i - 1)

theorem close_isSome {index i : Nat} : (close index i).isSome ↔ i ≠ index := by
  unfold close
  split
  · simp
    omega
  · split <;> simp_all

theorem close_inj {index k l m : Nat} (hk : close index k = some m) (hl : close index l = some m) :
    k = l := by
  unfold close at hk hl
  grind

/-- The removed identity is that of the only end point that goes away. -/
theorem moveAt_close (hr : Represents g h) {index : Nat} {t : Tagged}
    (ht : (h.side row a)[index]? = some t) (hp : h.id? b p = some n) :
    (moveAt row a (close index) b p).isSome ↔ n ≠ t.id := by
  have hid : h.id? a ⟨row, index⟩ = some t.id := IdGraph.id?_eq_some_iff.mpr ⟨t, ht, rfl⟩
  obtain ⟨r, k⟩ := p
  by_cases hb : r = row ∧ b = a
  · obtain ⟨rfl, rfl⟩ := hb
    rw [moveAt_self, Option.isSome_map, close_isSome, not_iff_not]
    constructor
    · rintro rfl
      exact Option.some.inj (hp.symm.trans hid)
    · rintro rfl
      exact congrArg EndPoint.index (hr.distinct b b _ _ _ hp hid).2
  · rw [moveAt_other hb]
    refine iff_of_true rfl ?_
    rintro rfl
    obtain ⟨rfl, hq⟩ := hr.distinct b a _ _ _ hp hid
    exact hb ⟨congrArg EndPoint.row hq, rfl⟩

theorem remove (hr : Represents g h) (row : Row) (a : Side) (index : Nat) :
    Names (h.apply (.remove row a index)).2 (g.apply (.remove row a index)).1
      (h.apply (.remove row a index)).1 ∧
      Represents (g.apply (.remove row a index)).2 (h.apply (.remove row a index)).2 := by
  simp only [Graph.apply, IdGraph.apply, Graph.remove, IdGraph.remove, Interface.remove,
    hr.get?_epts]
  cases ht : (h.side row a)[index]? with
  | none =>
    simp only [Option.map_none, Graph.answer, hr.length_eq]
    exact ⟨.failed _, hr.addRow row⟩
  | some t =>
    simp only [Option.map_some, Graph.answer]
    refine ⟨.type t.ept, ?_⟩
    apply hr.relocate (moveAt row a (close index))
    · exact Graph.relocates_moveWires _ fun _ _ _ => close_inj
    · apply hr.relocates_side (fun _ _ => rfl) (relisted_eraseIdx 0)
      · exact Nat.le_refl _
      · intro k u hu
        obtain ⟨l, hl⟩ := List.mem_iff_getElem?.mp
          (List.mem_of_mem_eraseIdx (List.mem_of_getElem? hu))
        exact hr.lt_fresh hl
      · intro d s hd
        rw [SortedMap.get?_filter, Option.filter_eq_some_iff] at hd
        exact hd.1
      · intro p q d s hp hq hd
        show _ ↔ (moveAt row a (close index) .dst p).isSome ∧
          (moveAt row a (close index) .src q).isSome
        rw [hr.moveAt_close ht hp, hr.moveAt_close ht hq, SortedMap.get?_filter,
          Option.filter_eq_some_iff]
        simp [hd]
    · exact hr.kind_eq
    · intro r
      show _ = (g.setSide row a _).hasRow r
      rw [Graph.hasRow_setSide, ← hr.row_eq]
      rfl
    · intro r b
      show (if r = row ∧ b = a then (h.side row a).eraseIdx index else h.side r b).map _ =
        ((g.setSide row a _).interface r b).epts
      rw [Graph.interface_setSide]
      split
      · rw [← List.eraseIdx_map, hr.epts_eq]
      · exact hr.epts_eq r b

/-! ## Reordering end points -/

/-- Renamed end points keep their identities, and all connections stay. -/
theorem relocates_of_renaming (hr : Represents g h) {ρ : Side → EndPoint → EndPoint}
    (hsurj : ∀ a, Function.Surjective (ρ a)) (hid : ∀ a p, h'.id? a (ρ a p) = h.id? a p)
    (hwires : h'.wires = h.wires) (hfresh : h'.fresh = h.fresh) :
    h.Relocates (fun a p => some (ρ a p)) h' := by
  have hold : ∀ a p' n, h'.id? a p' = some n → ∃ p, ρ a p = p' ∧ h.id? a p = some n := by
    intro a p' n hp
    obtain ⟨p, rfl⟩ := hsurj a p'
    exact ⟨p, rfl, by rwa [← hid]⟩
  apply IdGraph.relocates_of_total (fun _ _ => rfl) hwires
  · intro a p p' n hp hmove
    obtain rfl := Option.some.inj hmove
    rwa [hid]
  · intro a p' n hp _
    obtain ⟨p, rfl, hpre⟩ := hold a p' n hp
    exact ⟨p, rfl, hpre⟩
  · intro a b p q n hn hp
    obtain ⟨p, rfl, hpre⟩ := hold a p n hp
    have := hr.older a p n hpre
    omega
  · intro a p n hp
    obtain ⟨p, rfl, hpre⟩ := hold a p n hp
    rw [hfresh]
    exact hr.older a p n hpre

/-- Sorting a side takes each identity to the place of its end point. -/
theorem id?_sorted (hr : Represents g h) (k : Nat) :
    (stableSort Tagged.ept (h.side row a))[(g.interface row a).place k]?.map Tagged.id =
      h.id? a ⟨row, k⟩ := by
  rw [Interface.getElem?_stableSort_place (hr.epts_eq row a), IdGraph.id?]

theorem epts_sorted (hr : Represents g h) (row : Row) (a : Side) :
    (stableSort Tagged.ept (h.side row a)).map Tagged.ept = (g.interface row a).reorder.epts := by
  rw [Interface.epts_reorder, ← hr.epts_eq]
  exact stableSort_map Tagged.ept id (h.side row a)

theorem reorder (hr : Represents g h) : Represents g.reorder h.reorder := by
  apply hr.relocate fun a p => some (g.place a p)
  · exact (Graph.moves_reorder hr.anchored).relocates
  · apply hr.relocates_of_renaming (Graph.place_surjective g)
    · exact fun a p => hr.id?_sorted p.index
    · rfl
    · rfl
  · exact hr.kind_eq.trans (Graph.kind_reorder g).symm
  · intro r
    rw [Graph.hasRow_reorder]
    exact hr.row_eq r
  · intro r b
    rw [Graph.interface_reorder]
    exact hr.epts_sorted r b

theorem id?_reorderSide (hr : Represents g h) (p : EndPoint) :
    (h.reorderSide row a).2.id? b (g.placeAt row a b p) = h.id? b p := by
  have hw : h.Writes row a (stableSort Tagged.ept (h.side row a)) (h.reorderSide row a).2 :=
    fun _ _ => rfl
  obtain ⟨r, k⟩ := p
  by_cases hb : r = row ∧ b = a
  · obtain ⟨rfl, rfl⟩ := hb
    rw [Graph.placeAt_self, hw.id?_self, hr.id?_sorted]
  · rw [Graph.placeAt_other hb, hw.id?_other hb]

/-- The new places of a side are those of its identities. -/
theorem names_reorderSide (hr : Represents g h) :
    List.Forall₂ (fun k n => (h.reorderSide row a).2.id? a ⟨row, k⟩ = some n)
      (g.reorderSide row a).1 ((h.side row a).map Tagged.id) := by
  have hlen := hr.length_eq row a
  unfold Graph.reorderSide
  cases hi : g.interface? row a with
  | none =>
    rw [Graph.interface, hi, Option.getD_none] at hlen
    rw [List.length_eq_zero_iff.mp hlen]
    exact .nil
  | some i =>
    obtain rfl : g.interface row a = i := by rw [Graph.interface, hi, Option.getD_some]
    rw [List.forall₂_iff_get]
    constructor
    · show (g.interface row a).places.length = _
      rw [List.length_map, hlen, Interface.places, List.length_map, List.length_range]
    · intro k hk hk'
      have hlt : k < (g.interface row a).length := by rwa [List.length_map, hlen] at hk'
      have hplace := Interface.getElem?_places_eq_some hlt
      rw [List.getElem?_eq_getElem hk, Option.some.injEq] at hplace
      have hid : (h.reorderSide row a).2.id? a (g.placeAt row a a ⟨row, k⟩) = h.id? a ⟨row, k⟩ :=
        hr.id?_reorderSide ⟨row, k⟩
      rw [Graph.placeAt_self, ← hplace] at hid
      rw [List.get_eq_getElem, List.get_eq_getElem, hid, IdGraph.id?, List.getElem_map]
      rw [List.length_map] at hk'
      rw [List.getElem?_eq_getElem hk', Option.map_some]

theorem reorderSide (hr : Represents g h) (row : Row) (a : Side) :
    Names (h.apply (.reorderSide row a)).2 (g.apply (.reorderSide row a)).1
      (h.apply (.reorderSide row a)).1 ∧
      Represents (g.apply (.reorderSide row a)).2 (h.apply (.reorderSide row a)).2 := by
  constructor
  · apply Names.points
    rw [List.forall₂_map_left_iff]
    exact hr.names_reorderSide
  · have hm := Graph.moves_reorderSide hr.anchored row a
    apply hr.relocate fun b p => some (g.placeAt row a b p)
    · exact hm.relocates
    · apply hr.relocates_of_renaming (fun b => Graph.placeAt_surjective)
      · exact fun b p => hr.id?_reorderSide p
      · rfl
      · rfl
    · exact hr.kind_eq.trans hm.kind_eq.symm
    · intro r
      rw [Graph.hasRow, Graph.apply, Graph.row?_reorderSide]
      refine (hr.row_eq r).trans ?_
      split <;> simp [Graph.hasRow]
    · intro r b
      show (if r = row ∧ b = a then stableSort Tagged.ept (h.side row a) else h.side r b).map _ =
        ((g.reorderSide row a).2.interface r b).epts
      rw [Graph.interface_reorderSide]
      split
      · rename_i hb
        rw [hb.1, hb.2, hr.epts_sorted]
      · exact hr.epts_eq r b

/-! ## Connections -/

/-- Connections are changed between end points and between their identities alike. -/
theorem rewire (hr : Represents g h) {w : SortedMap EndPoint EndPoint} {v : SortedMap Nat Nat}
    (hw : ∀ dst src d s, h.id? .dst dst = some d → h.id? .src src = some s →
      (w.get? dst = some src ↔ v.get? d = some s))
    (hwires : ∀ dst src, w.get? dst = some src →
      g.exists? .dst dst = true ∧ g.exists? .src src = true)
    (hlive : ∀ d s, v.get? d = some s →
      (∃ p, h.id? .dst p = some d) ∧ ∃ q, h.id? .src q = some s) :
    Represents { g with wires := w } { h with wires := v } where
  kind_eq := hr.kind_eq
  row_eq := hr.row_eq
  epts_eq := hr.epts_eq
  distinct := hr.distinct
  older := hr.older
  wires dst src := by
    constructor
    · intro hs
      obtain ⟨hdst, hsrc⟩ := hwires dst src hs
      obtain ⟨d, hd⟩ := hr.exists_id? hdst
      obtain ⟨s, hs'⟩ := hr.exists_id? hsrc
      exact ⟨d, s, hd, hs', (hw dst src d s hd hs').mp hs⟩
    · rintro ⟨d, s, hd, hs, hv⟩
      exact (hw dst src d s hd hs).mpr hv
  live := hlive

theorem source_iff (hr : Represents g h) {dst src : EndPoint} {d s : Nat}
    (hd : h.id? .dst dst = some d) (hs : h.id? .src src = some s) :
    g.sourceOf? dst = some src ↔ h.wires.get? d = some s := by
  rw [hr.wires]
  constructor
  · rintro ⟨d', s', hd', hs', hw⟩
    obtain rfl : d = d' := Option.some.inj (hd.symm.trans hd')
    obtain rfl : s = s' := Option.some.inj (hs.symm.trans hs')
    exact hw
  · exact fun hw => ⟨d, s, hd, hs, hw⟩

theorem id?_eq_iff (hr : Represents g h) {q : EndPoint} {m : Nat} (hp : h.id? a p = some n)
    (hq : h.id? a q = some m) : p = q ↔ n = m := by
  constructor
  · rintro rfl
    exact Option.some.inj (hp.symm.trans hq)
  · rintro rfl
    exact (hr.distinct a a p q n hp hq).2

theorem joined (hr : Represents g h) {dst src : EndPoint} {d s : Nat}
    (hd : h.id? .dst dst = some d) (hs : h.id? .src src = some s) :
    Represents { g with wires := g.wires.insert dst src }
      { h with wires := h.wires.insert d s } := by
  apply hr.rewire
  · intro p q d' s' hp hq
    rw [SortedMap.get?_insert, SortedMap.get?_insert]
    simp only [hr.id?_eq_iff hp hd]
    split
    · rw [Option.some.injEq, Option.some.injEq]
      exact hr.id?_eq_iff hs hq
    · exact hr.source_iff hp hq
  · intro p q hpq
    rw [SortedMap.get?_insert] at hpq
    split at hpq
    · rename_i hp
      obtain rfl := Option.some.inj hpq
      rw [hp]
      exact ⟨hr.exists?_of_id? hd, hr.exists?_of_id? hs⟩
    · exact hr.anchored p q hpq
  · intro d' s' hv
    rw [SortedMap.get?_insert] at hv
    split at hv
    · rename_i hd'
      obtain rfl := Option.some.inj hv
      rw [hd']
      exact ⟨⟨dst, hd⟩, src, hs⟩
    · exact hr.live d' s' hv

theorem erased (hr : Represents g h) {dst : EndPoint} {d : Nat} (hd : h.id? .dst dst = some d) :
    Represents { g with wires := g.wires.erase dst } { h with wires := h.wires.erase d } := by
  apply hr.rewire
  · intro p q d' s' hp hq
    rw [SortedMap.get?_erase, SortedMap.get?_erase]
    simp only [hr.id?_eq_iff hp hd]
    split
    · simp
    · exact hr.source_iff hp hq
  · intro p q hpq
    rw [SortedMap.get?_erase] at hpq
    split at hpq
    · cases hpq
    · exact hr.anchored p q hpq
  · intro d' s' hv
    rw [SortedMap.get?_erase] at hv
    split at hv
    · cases hv
    · exact hr.live d' s' hv

theorem connect (hr : Represents g h) (src dst : EndPoint) :
    Names (h.apply (.connect src dst)).2 (g.apply (.connect src dst)).1
      (h.apply (.connect src dst)).1 ∧
      Represents (g.apply (.connect src dst)).2 (h.apply (.connect src dst)).2 := by
  have hsrc := hr.id?_isSome .src src
  have hdst := hr.id?_isSome .dst dst
  simp only [Graph.apply, IdGraph.apply, Graph.connect, IdGraph.connect, Graph.checkPoint]
  cases hs : h.id? .src src with
  | none =>
    rw [hs, Option.isSome_none] at hsrc
    simp only [← hsrc, Bool.false_eq_true, if_false, Graph.answer, Graph.count, hr.length_eq]
    exact ⟨.failed _, hr⟩
  | some s =>
    rw [hs, Option.isSome_some] at hsrc
    cases hd : h.id? .dst dst with
    | none =>
      rw [hd, Option.isSome_none] at hdst
      simp only [← hsrc, ← hdst, Bool.false_eq_true, if_false, if_true, Graph.answer, Graph.count,
        hr.length_eq]
      exact ⟨.failed _, hr⟩
    | some d =>
      rw [hd, Option.isSome_some] at hdst
      simp only [← hsrc, ← hdst, if_true, Graph.answer]
      exact ⟨(hr.source_names hd).of_id? fun _ _ => rfl, hr.joined hd hs⟩

theorem disconnect (hr : Represents g h) (dst : EndPoint) :
    Names (h.apply (.disconnect dst)).2 (g.apply (.disconnect dst)).1
      (h.apply (.disconnect dst)).1 ∧
      Represents (g.apply (.disconnect dst)).2 (h.apply (.disconnect dst)).2 := by
  simp only [Graph.apply, IdGraph.apply, IdGraph.disconnect]
  cases hd : h.id? .dst dst with
  | none =>
    have hnone : g.sourceOf? dst = none := by
      rw [Option.eq_none_iff_forall_ne_some]
      intro src hs
      obtain ⟨d, -, hd', -⟩ := (hr.wires dst src).mp hs
      rw [hd] at hd'
      cases hd'
    rw [hnone, Graph.disconnect, SortedMap.erase_of_get?_none hnone]
    exact ⟨.unfed, hr⟩
  | some d =>
    exact ⟨(hr.source_names hd).of_id? fun _ _ => rfl, hr.erased hd⟩

/-- The end point of an identity is found. -/
theorem find?_eq (hr : Represents g h) (hp : h.id? a p = some n) : h.find? a n = some p := by
  have hfound : ∀ q, h.find? a n = some q → h.id? a q = some n := by
    intro q hq
    obtain ⟨row, -, hq⟩ := List.exists_of_findSome?_eq_some hq
    obtain ⟨k, hk, rfl⟩ := Option.map_eq_some_iff.mp hq
    obtain ⟨hlt, hid, -⟩ := List.findIdx?_eq_some_iff_getElem.mp hk
    exact IdGraph.id?_eq_some_iff.mpr ⟨_, List.getElem?_eq_getElem hlt, of_decide_eq_true hid⟩
  have hsome : (h.find? a n).isSome = true := by
    rw [IdGraph.find?, List.findSome?_isSome_iff]
    obtain ⟨t, ht, hid⟩ := IdGraph.id?_eq_some_iff.mp hp
    refine ⟨p.row, Graph.mem_all p.row, ?_⟩
    rw [Option.isSome_map, List.findIdx?_isSome, List.any_eq_true]
    exact ⟨t, List.mem_of_getElem? ht, decide_eq_true hid⟩
  obtain ⟨q, hq⟩ := Option.isSome_iff_exists.mp hsome
  rw [hq, (hr.distinct a a q p n (hfound q hq) hp).2]

theorem retain (hr : Represents g h) (keep : EndPoint → EndPoint → Bool) :
    Represents (g.retain keep) (h.retain keep) := by
  apply hr.rewire
  · intro p q d s hp hq
    rw [SortedMap.get?_filter, SortedMap.get?_filter, Option.filter_eq_some_iff,
      Option.filter_eq_some_iff]
    simp only [hr.find?_eq hp, hr.find?_eq hq]
    rw [← hr.source_iff hp hq]
    rfl
  · intro p q hpq
    rw [SortedMap.get?_filter, Option.filter_eq_some_iff] at hpq
    exact hr.anchored p q hpq.1
  · intro d s hv
    rw [SortedMap.get?_filter, Option.filter_eq_some_iff] at hv
    exact hr.live d s hv.1

end Represents

/-! ## Sequences of operations -/

theorem ofKind_represents (kind : GraphKind) : Represents (.ofKind kind) (.ofKind kind) where
  kind_eq := rfl
  row_eq _ := rfl
  epts_eq _ _ := rfl
  distinct _ _ _ _ _ hp := by cases hp
  older _ _ _ hp := by cases hp
  wires dst src := by
    constructor
    · intro hs
      cases hs
    · rintro ⟨d, s, hd, -⟩
      cases hd
  live _ _ hw := by cases hw

/-- An operation has answers that name the same end points, and leaves a graph that is represented
by the other. -/
theorem Represents.apply {g : Graph} {h : IdGraph} (hr : Represents g h) (c : Change) :
    Names (h.apply c).2 (g.apply c).1 (h.apply c).1 ∧
      Represents (g.apply c).2 (h.apply c).2 := by
  cases c with
  | addRow row => exact ⟨.done, hr.addRow row⟩
  | setRow row s => exact ⟨.done, hr.setRow row s⟩
  | removeRow row => exact ⟨.done, hr.removeRow row⟩
  | push row a e => exact hr.push row a e
  | insert row a e => exact hr.insert row a e
  | remove row a index => exact hr.remove row a index
  | reorderSide row a => exact hr.reorderSide row a
  | reorder => exact ⟨.done, hr.reorder⟩
  | connect src dst => exact hr.connect src dst
  | disconnect dst => exact hr.disconnect dst
  | retain keep => exact ⟨.done, hr.retain keep⟩

/-- A graph with indices and one with identities stay together through all operations. -/
theorem Represents.trace {g : Graph} {h : IdGraph} (hr : Represents g h) (cs : List Change) :
    List.Forall₂ (fun x y => Names y.2 x.1 y.1 ∧ Represents x.2 y.2) (g.trace cs)
      (h.trace cs) := by
  induction cs generalizing g h with
  | nil => exact .nil
  | cons c cs ih => exact .cons (hr.apply c) (ih (hr.apply c).2)

/-- Whatever operations made it, a graph with indices is the graph with identities that is made by
the same operations, with the same answers; no connection dangles, and none is lost or merged. -/
theorem trace_represents (kind : GraphKind) (cs : List Change) :
    List.Forall₂ (fun x y => Names y.2 x.1 y.1 ∧ Represents x.2 y.2 ∧ x.2.Anchored ∧
      x.2.wires.size = y.2.wires.size)
      ((Graph.ofKind kind).trace cs) ((IdGraph.ofKind kind).trace cs) := by
  have htrace := (ofKind_represents kind).trace cs
  exact htrace.imp fun x y hxy => ⟨hxy.1, hxy.2, hxy.2.anchored, hxy.2.size_eq⟩

end GeneGraph
