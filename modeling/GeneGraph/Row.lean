import GeneGraph.SortedMap

/-!
# Rows and end points

A row is a named slot of a connection graph with up to two sides: the destinations, which
consume values, and the sources, which provide them. Rows have a fixed order, in which graphs are
checked and written. An end point is named by its row and its index; which side is meant follows
from the place where it is named.
-/

namespace GeneGraph

/-- A side of a row. -/
inductive Side where
  /-- Provides values. -/
  | src
  /-- Consumes values. -/
  | dst
  deriving DecidableEq, Repr

def Side.text : Side → String
  | .src => "src"
  | .dst => "dst"

/-- A row of a connection graph. -/
inductive Row where
  /-- Graph inputs. -/
  | I
  /-- Condition of a branch. -/
  | F
  /-- What a loop runs over, and its element in a round. -/
  | L
  /-- First and current state of a loop. -/
  | S
  /-- Next state of a loop. -/
  | T
  /-- First and current condition of a loop. -/
  | W
  /-- Next condition of a loop. -/
  | X
  /-- Inputs and outputs of sub-code A. -/
  | A
  /-- Inputs and outputs of sub-code B. -/
  | B
  /-- Graph outputs. -/
  | O
  /-- Outputs of the other branch. -/
  | P
  /-- Sources not read off their consumers; only in documents. -/
  | U
  deriving DecidableEq, Repr

namespace Row

def all : List Row := [I, F, L, S, T, W, X, A, B, O, P, U]

def order : Row → Nat
  | I => 0
  | F => 1
  | L => 2
  | S => 3
  | T => 4
  | W => 5
  | X => 6
  | A => 7
  | B => 8
  | O => 9
  | P => 10
  | U => 11

def letter : Row → Char
  | I => 'I'
  | F => 'F'
  | L => 'L'
  | S => 'S'
  | T => 'T'
  | W => 'W'
  | X => 'X'
  | A => 'A'
  | B => 'B'
  | O => 'O'
  | P => 'P'
  | U => 'U'

def text (r : Row) : String := String.singleton r.letter

def ofText? (s : String) : Option Row := all.find? fun r => r.text = s

def hasSrc : Row → Bool
  | I | L | S | W | A | B => true
  | F | T | X | O | P | U => false

def hasDst : Row → Bool
  | I => false
  | _ => true

def hasSide (r : Row) : Side → Bool
  | .src => r.hasSrc
  | .dst => r.hasDst

def isSub : Row → Bool
  | A | B => true
  | _ => false

theorem order_injective {r s : Row} (h : r.order = s.order) : r = s := by
  revert h
  cases r <;> cases s <;> decide

instance : SortKey Row :=
  ⟨fun r => [r.order], fun h => order_injective (List.head_eq_of_cons_eq h)⟩

end Row

/-- An end point on one side of a row. -/
structure EndPoint where
  row : Row
  index : Nat
  deriving DecidableEq, Repr

namespace EndPoint

/-- The end point as text, as in `A[2]`. -/
def text (p : EndPoint) : String := s!"{p.row.text}[{p.index}]"

instance : SortKey EndPoint :=
  ⟨fun p => [p.row.order, p.index], fun {a b} h => by
    obtain ⟨r, i⟩ := a
    obtain ⟨s, j⟩ := b
    simp only [List.cons.injEq, and_true] at h
    rw [Row.order_injective h.1, h.2]⟩

end EndPoint

end GeneGraph
