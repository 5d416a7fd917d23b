import GeneGraph.Proofs.Freezing

/-!
# Graphs with identities

In an `IdGraph` an end point gets an identity when it is made, which stays its own wherever it
moves to, and connections are stored between identities. So adding and reordering end points
leaves the connections alone, and removing some drops the connections that touch them. Operations
are called with indices, as those of a `Graph` are: an index is looked up before anything changes.

A `Change` is an operation with its arguments. `Represents` says that a graph with indices is a
graph with identities in which the identities have been replaced by the indices of their end
points.
-/

namespace GeneGraph

/-- An end point with its identity. -/
structure Tagged where
  id : Nat
  ept : Ept

/-- A graph with connections between identities. -/
structure IdGraph where
  kind : GraphKind
  hasRow : Row → Bool
  /-- The end points of each side of each row, in the order of their indices. -/
  side : Row → Side → List Tagged
  /-- The source of each connected destination. -/
  wires : SortedMap Nat Nat
  /-- The next identity. -/
  fresh : Nat

/-- An operation on a graph. -/
inductive Change where
  | addRow (row : Row)
  | setRow (row : Row) (sides : Sides)
  | removeRow (row : Row)
  | push (row : Row) (side : Side) (e : Ept)
  | insert (row : Row) (side : Side) (e : Ept)
  | remove (row : Row) (side : Side) (index : Nat)
  | reorderSide (row : Row) (side : Side)
  | reorder
  | connect (src dst : EndPoint)
  | disconnect (dst : EndPoint)
  | retain (keep : EndPoint → EndPoint → Bool)

/-- What an operation answers, with end points that are named by values of `ν`. -/
inductive Answer (ν : Type) where
  | done
  | failed (err : GraphError)
  /-- Where end points are: the one that was made, or those of a side that was reordered. -/
  | points (side : Side) (ps : List ν)
  /-- The type of the end point that was removed. -/
  | type (e : Ept)
  /-- The source that a destination had. -/
  | source (p : Option ν)

namespace IdGraph

def ofKind (kind : GraphKind) : IdGraph := ⟨kind, fun _ => false, fun _ _ => [], .empty, 0⟩

/-- The identity of an end point. -/
def id? (h : IdGraph) (a : Side) (p : EndPoint) : Option Nat :=
  (h.side p.row a)[p.index]?.map Tagged.id

/-- The end point that has an identity. -/
def find? (h : IdGraph) (a : Side) (n : Nat) : Option EndPoint :=
  Row.all.findSome? fun row =>
    ((h.side row a).findIdx? fun t => t.id = n).map fun k => ⟨row, k⟩

/-- An end point of the row has the identity. -/
def inRow (h : IdGraph) (row : Row) (a : Side) (n : Nat) : Bool :=
  (h.side row a).any fun t => t.id = n

/-- Connections that do not touch a row. -/
def dropWires (h : IdGraph) (row : Row) : SortedMap Nat Nat :=
  h.wires.filter fun d s => !h.inRow row .dst d && !h.inRow row .src s

/-! ## Operations -/

def addRow (h : IdGraph) (row : Row) : IdGraph :=
  { h with hasRow := fun r => decide (r = row) || h.hasRow r }

/-- Writes one side of a row. -/
def setSide (h : IdGraph) (row : Row) (a : Side) (l : List Tagged) : IdGraph :=
  { h with side := fun r b => if r = row ∧ b = a then l else h.side r b }

/-- Gives identities to end points, from `n` on. -/
def tag (n : Nat) : List Ept → List Tagged
  | [] => []
  | e :: l => ⟨n, e⟩ :: tag (n + 1) l

/-- The first identity of a side, where identities are given from `n` on, to destinations first. -/
def firstId (n : Nat) (s : Sides) : Side → Nat
  | .dst => n
  | .src => n + s.dst.length

def setRow (h : IdGraph) (row : Row) (s : Sides) : IdGraph :=
  { h.addRow row with
    side := fun r a => if r = row then tag (firstId h.fresh s a) (s.side a).epts else h.side r a
    wires := h.dropWires row
    fresh := h.fresh + s.dst.length + s.src.length }

def removeRow (h : IdGraph) (row : Row) : IdGraph :=
  { h with
    hasRow := fun r => !decide (r = row) && h.hasRow r
    side := fun r a => if r = row then [] else h.side r a
    wires := h.dropWires row }

/-- The elements of a side with another end point. -/
def demand (h : IdGraph) (row : Row) (a : Side) (e : Ept) : Nat :=
  elementsOf ((h.side row a).map Tagged.ept) + e.length

/-- Makes an end point at an index of a side, if it fits. -/
def create (h : IdGraph) (row : Row) (a : Side) (e : Ept) (k : Nat) : Answer Nat × IdGraph :=
  if h.demand row a e ≤ maxElements then
    (.points a [h.fresh],
      { (h.addRow row).setSide row a ((h.side row a).insertIdx k ⟨h.fresh, e⟩) with
        fresh := h.fresh + 1 })
  else (.failed (.overflow (h.demand row a e)), h.addRow row)

/-- The index behind the last type that does not come after `e`, found by halving. -/
def slot (h : IdGraph) (row : Row) (a : Side) (e : Ept) : Nat :=
  Interface.searchLast (fun k => (h.side row a)[k]?.any fun t => !decide (Before e t.ept)) 0
    (h.side row a).length

def remove (h : IdGraph) (row : Row) (a : Side) (index : Nat) : Answer Nat × IdGraph :=
  match (h.side row a)[index]? with
  | none => (.failed (.outOfRange index (h.side row a).length), h.addRow row)
  | some t => (.type t.ept, { (h.addRow row).setSide row a ((h.side row a).eraseIdx index) with
      wires := h.wires.filter fun d s => d ≠ t.id && s ≠ t.id })

def reorderSide (h : IdGraph) (row : Row) (a : Side) : Answer Nat × IdGraph :=
  (.points a ((h.side row a).map Tagged.id),
    h.setSide row a (stableSort Tagged.ept (h.side row a)))

def reorder (h : IdGraph) : IdGraph :=
  { h with side := fun row a => stableSort Tagged.ept (h.side row a) }

def connect (h : IdGraph) (src dst : EndPoint) : Answer Nat × IdGraph :=
  match h.id? .src src, h.id? .dst dst with
  | none, _ => (.failed (.outOfRange src.index (h.side src.row .src).length), h)
  | some _, none => (.failed (.outOfRange dst.index (h.side dst.row .dst).length), h)
  | some s, some d => (.source (h.wires.get? d), { h with wires := h.wires.insert d s })

def disconnect (h : IdGraph) (dst : EndPoint) : Answer Nat × IdGraph :=
  match h.id? .dst dst with
  | none => (.source none, h)
  | some d => (.source (h.wires.get? d), { h with wires := h.wires.erase d })

def retain (h : IdGraph) (keep : EndPoint → EndPoint → Bool) : IdGraph :=
  { h with wires := h.wires.filter fun d s =>
      match h.find? .dst d, h.find? .src s with
      | some dst, some src => keep dst src
      | _, _ => false }

def apply (h : IdGraph) : Change → Answer Nat × IdGraph
  | .addRow row => (.done, h.addRow row)
  | .setRow row sides => (.done, h.setRow row sides)
  | .removeRow row => (.done, h.removeRow row)
  | .push row a e => h.create row a e (h.side row a).length
  | .insert row a e => h.create row a e (h.slot row a e)
  | .remove row a index => h.remove row a index
  | .reorderSide row a => h.reorderSide row a
  | .reorder => (.done, h.reorder)
  | .connect src dst => h.connect src dst
  | .disconnect dst => h.disconnect dst
  | .retain keep => (.done, h.retain keep)

/-- What a sequence of changes answers, each with the graph after it. -/
def trace (h : IdGraph) : List Change → List (Answer Nat × IdGraph)
  | [] => []
  | c :: cs => h.apply c :: (h.apply c).2.trace cs

end IdGraph

namespace Graph

/-- The answer of an operation that can fail. -/
def answer {α : Type} (f : α → Answer EndPoint) (x : Edit α) : Answer EndPoint × Graph :=
  match x with
  | (.error err, g) => (.failed err, g)
  | (.ok a, g) => (f a, g)

def apply (g : Graph) : Change → Answer EndPoint × Graph
  | .addRow row => (.done, g.addRow row)
  | .setRow row sides => (.done, g.setRow row sides)
  | .removeRow row => (.done, g.removeRow row)
  | .push row a e => answer (fun k => .points a [⟨row, k⟩]) (g.push row a e)
  | .insert row a e => answer (fun k => .points a [⟨row, k⟩]) (g.insert row a e)
  | .remove row a index => answer .type (g.remove row a index)
  | .reorderSide row a => (.points a ((g.reorderSide row a).1.map (⟨row, ·⟩)),
      (g.reorderSide row a).2)
  | .reorder => (.done, g.reorder)
  | .connect src dst => answer .source (g.connect src dst)
  | .disconnect dst => (.source (g.sourceOf? dst), g.disconnect dst)
  | .retain keep => (.done, g.retain keep)

/-- What a sequence of changes answers, each with the graph after it. -/
def trace (g : Graph) : List Change → List (Answer EndPoint × Graph)
  | [] => []
  | c :: cs => g.apply c :: (g.apply c).2.trace cs

end Graph

/-! ## Representation -/

/-- The graph is the one with identities, named by indices. -/
structure Represents (g : Graph) (h : IdGraph) : Prop where
  kind_eq : h.kind = g.kind
  row_eq : ∀ row, h.hasRow row = g.hasRow row
  epts_eq : ∀ row a, (h.side row a).map Tagged.ept = (g.interface row a).epts
  /-- No two end points have the same identity. -/
  distinct : ∀ a b p q n, h.id? a p = some n → h.id? b q = some n → a = b ∧ p = q
  older : ∀ a p n, h.id? a p = some n → n < h.fresh
  /-- The graph has a connection where the identities of the end points are connected. -/
  wires : ∀ dst src, g.sourceOf? dst = some src ↔
    ∃ d s, h.id? .dst dst = some d ∧ h.id? .src src = some s ∧ h.wires.get? d = some s
  /-- What is connected exists. -/
  live : ∀ d s, h.wires.get? d = some s →
    (∃ p, h.id? .dst p = some d) ∧ ∃ q, h.id? .src q = some s

/-- The end points of an answer are those with the identities of the other answer. -/
inductive Names (h : IdGraph) : Answer EndPoint → Answer Nat → Prop
  | done : Names h .done .done
  | failed (err : GraphError) : Names h (.failed err) (.failed err)
  | points (a : Side) (ps : List EndPoint) (ns : List Nat)
      (hp : List.Forall₂ (fun p n => h.id? a p = some n) ps ns) :
      Names h (.points a ps) (.points a ns)
  | type (e : Ept) : Names h (.type e) (.type e)
  | unfed : Names h (.source none) (.source none)
  | fed (p : EndPoint) (n : Nat) (hp : h.id? .src p = some n) :
      Names h (.source (some p)) (.source (some n))

theorem Names.of_id? {h h' : IdGraph} {x : Answer EndPoint} {y : Answer Nat} (hn : Names h x y)
    (hid : ∀ a p, h'.id? a p = h.id? a p) : Names h' x y := by
  cases hn with
  | done => exact .done
  | failed err => exact .failed err
  | points a ps ns hp => exact .points a ps ns (hp.imp fun p n hpn => (hid a p).trans hpn)
  | type e => exact .type e
  | unfed => exact .unfed
  | fed p n hp => exact .fed p n ((hid .src p).trans hp)

namespace Represents

variable {g : Graph} {h : IdGraph} {a : Side} {p : EndPoint} {row : Row} {n : Nat}

theorem length_eq (hr : Represents g h) (row : Row) (a : Side) :
    (h.side row a).length = (g.interface row a).length := by
  rw [Interface.length, ← hr.epts_eq, List.length_map]

/-- An end point has an identity exactly if it exists. -/
theorem id?_isSome (hr : Represents g h) (a : Side) (p : EndPoint) :
    (h.id? a p).isSome = g.exists? a p := by
  rw [Bool.eq_iff_iff, IdGraph.id?, Option.isSome_map, isSome_getElem?, hr.length_eq, Graph.exists?,
    decide_eq_true_iff]
  rfl

theorem exists?_of_id? (hr : Represents g h) (hp : h.id? a p = some n) :
    g.exists? a p = true := by
  rw [← hr.id?_isSome, hp]
  rfl

theorem exists_id? (hr : Represents g h) (hp : g.exists? a p = true) : ∃ n, h.id? a p = some n := by
  rw [← hr.id?_isSome] at hp
  exact Option.isSome_iff_exists.mp hp

/-- No connection dangles. -/
theorem anchored (hr : Represents g h) : g.Anchored := by
  intro dst src hs
  obtain ⟨d, s, hd, hs, -⟩ := (hr.wires dst src).mp hs
  exact ⟨hr.exists?_of_id? hd, hr.exists?_of_id? hs⟩

/-- The sources that a destination has before and after identities are replaced. -/
theorem source_names (hr : Represents g h) {dst : EndPoint} {d : Nat}
    (hd : h.id? .dst dst = some d) :
    Names h (.source (g.sourceOf? dst)) (.source (h.wires.get? d)) := by
  cases hg : g.sourceOf? dst with
  | some src =>
    obtain ⟨d', s, hd', hs, hw⟩ := (hr.wires dst src).mp hg
    obtain rfl : d = d' := Option.some.inj (hd.symm.trans hd')
    rw [hw]
    exact .fed src s hs
  | none =>
    cases hw : h.wires.get? d with
    | none => exact .unfed
    | some s =>
      obtain ⟨-, src, hs⟩ := hr.live d s hw
      rw [(hr.wires dst src).mpr ⟨d, s, hd, hs, hw⟩] at hg
      cases hg

/-- No connection is lost, and none is merged with another. -/
theorem size_eq (hr : Represents g h) : g.wires.size = h.wires.size := by
  have hperm : (g.wires.keys.map (h.id? .dst)).Perm (h.wires.keys.map some) := by
    rw [List.perm_ext_iff_of_nodup]
    · intro x
      simp only [List.mem_map, SortedMap.mem_keys, Option.isSome_iff_exists]
      constructor
      · rintro ⟨dst, ⟨src, hs⟩, rfl⟩
        obtain ⟨d, s, hd, -, hw⟩ := (hr.wires dst src).mp hs
        exact ⟨d, ⟨s, hw⟩, hd.symm⟩
      · rintro ⟨d, ⟨s, hw⟩, rfl⟩
        obtain ⟨⟨dst, hd⟩, src, hs⟩ := hr.live d s hw
        exact ⟨dst, ⟨src, (hr.wires dst src).mpr ⟨d, s, hd, hs, hw⟩⟩, hd⟩
    · apply List.Nodup.map_on _ g.wires.nodup_keys
      intro p hp q _ heq
      obtain ⟨src, hs⟩ := Option.isSome_iff_exists.mp (SortedMap.mem_keys.mp hp)
      obtain ⟨d, -, hd, -⟩ := (hr.wires p src).mp hs
      exact (hr.distinct .dst .dst p q d hd (heq.symm.trans hd)).2
    · exact h.wires.nodup_keys.map fun _ _ => Option.some.inj
  have hlen := hperm.length_eq
  simp only [List.length_map, SortedMap.keys] at hlen
  exact hlen

end Represents

end GeneGraph
