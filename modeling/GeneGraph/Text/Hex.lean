/-!
# Hexadecimal digits

Numbers are written with lower case letters; both cases are read.
-/

namespace GeneGraph.Text

/-- The hexadecimal digits of `n`, lower case, without leading zeros. -/
def hex (n : Nat) : List Char := Nat.toDigits 16 n

/-- The hexadecimal digits of `n`, with zeros before them up to `width` digits. -/
def hexPadded (width n : Nat) : List Char :=
  List.replicate (width - (hex n).length) '0' ++ hex n

def hexValue? (c : Char) : Option Nat :=
  if '0' ≤ c ∧ c ≤ '9' then some (c.toNat - '0'.toNat)
  else if 'a' ≤ c ∧ c ≤ 'f' then some (c.toNat - 'a'.toNat + 10)
  else if 'A' ≤ c ∧ c ≤ 'F' then some (c.toNat - 'A'.toNat + 10)
  else none

def bytesOfHex? : List Char → Option (List UInt8)
  | [] => some []
  | [_] => none
  | a :: b :: cs => do
    let a ← hexValue? a
    let b ← hexValue? b
    return UInt8.ofNat (a * 16 + b) :: (← bytesOfHex? cs)

/-- The hexadecimal digits of bytes, two for each. -/
def hexOfBytes (bs : List UInt8) : List Char := bs.flatMap fun b => hexPadded 2 b.toNat

end GeneGraph.Text
