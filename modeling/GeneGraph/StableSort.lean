import GeneGraph.SortedMap

/-!
# Stable sorting

`insertLast` puts an item behind every item that does not come after it, and `stableSort` inserts
the items of a list one after another. So items of equal key keep their order.
-/

namespace GeneGraph

variable {α κ : Type} [SortKey κ]

/-- Puts `x` behind the items at the front that do not come after it. -/
def insertLast (key : α → κ) (x : α) : List α → List α
  | [] => [x]
  | y :: ys => if Before (key x) (key y) then x :: y :: ys else y :: insertLast key x ys

/-- The items in the order of their keys, those of equal key in their order in the list. -/
def stableSort (key : α → κ) (l : List α) : List α :=
  l.foldl (fun sorted x => insertLast key x sorted) []

theorem insertLast_perm (key : α → κ) (x : α) (l : List α) :
    (insertLast key x l).Perm (x :: l) := by
  induction l with
  | nil => exact List.Perm.refl _
  | cons y ys ih =>
    simp only [insertLast]
    split
    · exact List.Perm.refl _
    · exact (ih.cons y).trans (List.Perm.swap x y ys)

theorem foldl_insertLast_perm (key : α → κ) (l acc : List α) :
    (l.foldl (fun sorted x => insertLast key x sorted) acc).Perm (l ++ acc) := by
  induction l generalizing acc with
  | nil => exact List.Perm.refl _
  | cons x xs ih =>
    refine (ih _).trans (((insertLast_perm key x acc).append_left xs).trans ?_)
    exact List.perm_middle

theorem stableSort_perm (key : α → κ) (l : List α) : (stableSort key l).Perm l := by
  have := foldl_insertLast_perm key l []
  rwa [List.append_nil] at this

end GeneGraph
