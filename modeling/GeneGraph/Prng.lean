/-!
# Random draws

The generator xoroshiro128+ with the rotations 55, 14 and 36, seeded by SplitMix64. A draw gives
its value and the generator after it, so equal generators make equal draws.

Indices are drawn without bias: outputs from the last, incomplete run of `n` indices on are
rejected and drawn again (`Prng.index`).
-/

namespace GeneGraph

/-- The two words of a generator. -/
structure Prng where
  s0 : UInt64
  s1 : UInt64
  deriving DecidableEq, Repr

namespace Prng

/-- The odd word nearest to 2⁶⁴ divided by the golden ratio. -/
def goldenGamma : UInt64 := 0x9E3779B97F4A7C15

def rotateLeft (w n : UInt64) : UInt64 := (w <<< n) ||| (w >>> (64 - n))

/-! ## Seeds -/

/-- The generator of two seeds; two zeros, which would never change, are replaced. -/
def ofSeeds (seed0 seed1 : UInt64) : Prng :=
  if seed0 = 0 ∧ seed1 = 0 then ⟨goldenGamma, 0⟩ else ⟨seed0, seed1⟩

def splitMix (z : UInt64) : UInt64 :=
  let z := (z ^^^ (z >>> 30)) * 0xBF58476D1CE4E5B9
  let z := (z ^^^ (z >>> 27)) * 0x94D049BB133111EB
  z ^^^ (z >>> 31)

def ofSeed (seed : UInt64) : Prng :=
  let state0 := seed + goldenGamma
  ofSeeds (splitMix state0) (splitMix (state0 + goldenGamma))

/-! ## Draws -/

def step (g : Prng) : Prng :=
  let x := g.s1 ^^^ g.s0
  ⟨rotateLeft g.s0 55 ^^^ x ^^^ (x <<< 14), rotateLeft x 36⟩

def output (g : Prng) : UInt64 := g.s0 + g.s1

def word (g : Prng) : UInt64 × Prng := (g.output, g.step)

/-- The words below this bound, a multiple of `n`, are accepted when an index below `n` is
drawn. -/
def bound (n : Nat) : Nat := 0xffffffffffffffff - 0xffffffffffffffff % n

/-- Draws words until one is accepted, so many times at most. -/
def accepted (n : Nat) : Nat → Prng → Nat × Prng
  | 0, g => (0, g)
  | fuel + 1, g =>
    if g.output.toNat < bound n then (g.output.toNat % n, g.step) else accepted n fuel g.step

/-- The number of generators: if that many words are rejected, all are. -/
def period : Nat := 1 <<< 128

/-- Draws an index below `n`; there is none if `n` is zero. For a power of two the low bits are
taken. -/
def index (g : Prng) (n : Nat) : Option Nat × Prng :=
  if n = 0 then (none, g)
  else if n = 1 <<< n.log2 then (some (g.output.toNat % n), g.step)
  else
    let (k, g) := accepted n period g
    (some k, g)

/-- Draws a number from `lo` to `hi`; from an empty range it takes `lo` without a draw. -/
def within (g : Prng) (lo hi : Nat) : Nat × Prng :=
  if hi ≤ lo then (lo, g)
  else
    let (k, g) := g.index (hi - lo + 1)
    (lo + k.getD 0, g)

def flip (g : Prng) : Bool × Prng := (g.output >>> 63 = 1, g.step)

def choose {α : Type} (g : Prng) (items : List α) : Option α × Prng :=
  let (k, g) := g.index items.length
  (k.bind fun k => items[k]?, g)

end Prng

end GeneGraph
