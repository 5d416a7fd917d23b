import GeneGraph.Json

/-!
# JSON numbers

A number is an integer part, maybe a fraction and maybe an exponent. Without the last two it is
read exactly as long as a machine word holds it. Otherwise it is a double, of which only the
range matters here: the digits are gathered into a 64-bit significand, the digits that no longer
fit count as powers of ten or are dropped, and significand and power of ten are rounded to
doubles and multiplied.
-/

namespace GeneGraph.Json

/-- The parts of a written number. -/
structure Numeral where
  negative : Bool
  /-- Digits of the integer part. -/
  whole : List Char
  /-- Digits after the point, if there is one. -/
  fraction : Option (List Char)
  /-- Sign and digits of the exponent, if there is one. -/
  exponent : Option (Bool × List Char)

def digitsValue (ds : List Char) : Nat := ds.foldl (fun n d => n * 10 + (d.toNat - '0'.toNat)) 0

def maxWord : Nat := 0xffffffffffffffff

/-- The significand of the leading digits, and how many digits no longer fit. -/
def significand (sig : Nat) : List Char → Nat × List Char
  | [] => (sig, [])
  | d :: ds =>
    let next := sig * 10 + (d.toNat - '0'.toNat)
    if maxWord < next then (sig, d :: ds) else significand next ds

/-- `n` rounded to 53 significant bits, a half to the even neighbour. -/
def roundToDouble (n : Nat) : Nat :=
  if n < 1 <<< 53 then n
  else
    let unit := 1 <<< (n.log2 - 52)
    let q := n / unit
    let r := n % unit
    if unit < 2 * r ∨ (2 * r = unit ∧ q % 2 = 1) then (q + 1) * unit else q * unit

/-- The double nearest to `sig · 10ᵉ`, computed from the doubles nearest to its factors, is not
infinite. -/
def productInRange (sig : Nat) (e : Int) : Bool :=
  sig = 0 || e < 0 ||
    (e ≤ 308 && roundToDouble sig * roundToDouble (Nat.pow 10 e.toNat) <
      (1 <<< 1024) - (1 <<< 970))

namespace Numeral

/-- The number is in the range of doubles. -/
def inRange (n : Numeral) : Bool :=
  let (sig, surplus) := significand 0 n.whole
  let fraction := n.fraction.getD []
  let (sig', dropped) := significand sig fraction
  let places : Int := surplus.length - (fraction.length - dropped.length : Nat)
  let power : Int := match n.exponent with
    | none => 0
    | some (negative, ds) => if negative then -digitsValue ds else digitsValue ds
  productInRange sig' (places + power)

def written (n : Numeral) : List Char :=
  (if n.negative then ['-'] else []) ++ n.whole ++
    (match n.fraction with
      | none => []
      | some ds => '.' :: ds) ++
    (match n.exponent with
      | none => []
      | some (negative, ds) => 'e' :: (if negative then ['-'] else []) ++ ds)

def toJson (n : Numeral) : Json :=
  let v := digitsValue n.whole
  match n.fraction, n.exponent with
  | none, none =>
    if n.negative then
      if 0 < v ∧ v ≤ 0x8000000000000000 then .int (-v) else .real n.written n.inRange
    else if v ≤ maxWord then .int v else .real n.written n.inRange
  | _, _ => .real n.written n.inRange

end Numeral

def digits? (cs : List Char) : Option (List Char × List Char) :=
  match cs.takeWhile Char.isDigit with
  | [] => none
  | ds => some (ds, cs.dropWhile Char.isDigit)

/-- Reads an integer part: no zero stands before other digits. -/
def whole? : List Char → Option (List Char × List Char)
  | '0' :: cs => some (['0'], cs)
  | cs => digits? cs

/-- Reads a fraction, if there is a point. -/
def fraction? : List Char → Option (Option (List Char) × List Char)
  | '.' :: cs => (digits? cs).map fun (ds, rest) => (some ds, rest)
  | cs => some (none, cs)

def exponentSign : List Char → Bool × List Char
  | '+' :: cs => (false, cs)
  | '-' :: cs => (true, cs)
  | cs => (false, cs)

/-- Reads an exponent, if there is one. -/
def exponent? : List Char → Option (Option (Bool × List Char) × List Char)
  | [] => some (none, [])
  | c :: cs =>
    if c = 'e' ∨ c = 'E' then
      let (negative, cs) := exponentSign cs
      (digits? cs).map fun (ds, rest) => (some (negative, ds), rest)
    else some (none, c :: cs)

/-- Reads a numeral, with its sign already read. -/
def unsigned? (negative : Bool) (cs : List Char) : Option (Json × List Char) := do
  let (whole, cs) ← whole? cs
  let (fraction, cs) ← fraction? cs
  let (exponent, cs) ← exponent? cs
  return (Numeral.toJson ⟨negative, whole, fraction, exponent⟩, cs)

def number? : List Char → Option (Json × List Char)
  | '-' :: cs => unsigned? true cs
  | cs => unsigned? false cs

end GeneGraph.Json
