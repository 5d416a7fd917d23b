import GeneGraph.SortedMap
import GeneGraph.Text.Hex

/-!
# Digests

A digest is thirty-two bytes, written as sixty-four hexadecimal digits and ordered byte by byte.
-/

namespace GeneGraph

/-- Thirty-two bytes that identify a frozen code. -/
structure Digest where
  bytes : Vector UInt8 32
  deriving DecidableEq

namespace Digest

def text (d : Digest) : String :=
  String.ofList (Text.hexOfBytes d.bytes.toList)

def ofText? (s : String) : Option Digest := do
  let bs ← Text.bytesOfHex? s.toList
  if h : bs.toArray.size = 32 then return ⟨⟨bs.toArray, h⟩⟩ else none

instance : SortKey Digest :=
  ⟨fun d => d.bytes.toList.map UInt8.toNat, fun {a b} h => by
    have key := (List.map_inj_right fun _ _ h => UInt8.toNat_inj.mp h).mp h
    exact congrArg Digest.mk (Vector.toList_inj.mp key)⟩

end Digest

end GeneGraph
