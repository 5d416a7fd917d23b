import GeneGraph.SortedMap
import GeneGraph.Text.Quoted

/-!
# Type identifiers

A `TypeUid` names an end point type. It says how many template types the type takes and either
which plain type it is, possibly one of seven fixed instances, or, for a wildcard, which input
its type is taken from.

An identifier travels as a 32-bit word:

```text
 31 | 30..28 | 27       | 26..24   | 23..16 | 15..0
 0  | arity  | wildcard | instance | 0      | plain number, or position and depth
```

`TypeUid.word` writes that word and `TypeUid.ofWord` reads it.
-/

namespace GeneGraph

/-! Numerals of the field types refer to these instances by name. -/

instance (priority := high) neZero_eight : @NeZero Nat Zero.ofOfNat0 8 := ⟨nofun⟩

instance (priority := high) neZero_byteSize : @NeZero Nat Zero.ofOfNat0 256 := ⟨nofun⟩

instance (priority := high) neZero_numberSize : @NeZero Nat Zero.ofOfNat0 65536 := ⟨nofun⟩

/-- Names the input, and how deep inside it, a wildcard takes its type from. -/
structure Origin where
  /-- Index of the input. -/
  position : Fin 256
  /-- How many times to go down to the first template type. -/
  depth : Fin 256
  deriving DecidableEq, Repr

/-- What a type identifier stands for. -/
inductive TypeRole where
  /-- A type of its own; instance 0 says that it is not a fixed instance. -/
  | plain (inst : Fin 8) (number : Fin 65536)
  /-- A type taken from an input. -/
  | wildcard (origin : Origin)
  deriving DecidableEq, Repr

/-- An end point type without its template types. -/
structure TypeUid where
  /-- How many template types it takes. -/
  arity : Fin 8
  role : TypeRole
  deriving DecidableEq, Repr

/-- The fields of an identifier that can be out of range or disagree with it. -/
inductive UidField where
  | templateTypeCount
  | wildcardOrigin
  | fixedInstance
  deriving DecidableEq, Repr

def UidField.text : UidField → String
  | .templateTypeCount => "template_type_count"
  | .wildcardOrigin => "wildcard_origin"
  | .fixedInstance => "fixed_instance"

/-- Why no identifier can be built. -/
inductive UidError where
  | fieldOutOfRange (field : UidField) (value : Nat)
  /-- The word has one of the bits 31 and 23 to 16. -/
  | reservedBits (word : UInt32)
  /-- The word has the wildcard bit and an instance. -/
  | wildcardInstance (word : UInt32)
  deriving DecidableEq, Repr

/-- A word in hexadecimal, with all its eight digits. -/
def wordText (w : UInt32) : String := String.ofList ('0' :: 'x' :: Text.hexPadded 8 w.toNat)

namespace TypeUid

def origin? (u : TypeUid) : Option Origin :=
  match u.role with
  | .plain _ _ => none
  | .wildcard o => some o

/-- The type is taken from an input. -/
def isWildcard (u : TypeUid) : Bool := u.origin?.isSome

/-- The fixed instance, from 1 to 7, if there is one. -/
def instance? (u : TypeUid) : Option (Fin 8) :=
  match u.role with
  | .plain i _ => if i = 0 then none else some i
  | .wildcard _ => none

/-- The low sixteen bits: the plain number, or position and depth. -/
def low (u : TypeUid) : Nat :=
  match u.role with
  | .plain _ n => n
  | .wildcard o => o.position * 256 + o.depth

/-- The word of the identifier, as a number below 2³¹. -/
def number (u : TypeUid) : Nat :=
  u.arity * 0x10000000 + (if u.isWildcard then 0x8000000 else 0) +
    (u.instance?.getD 0).val * 0x1000000 + u.low

def word (u : TypeUid) : UInt32 := UInt32.ofNat u.number

def text (u : TypeUid) : String := wordText u.word

/-! ## Making identifiers -/

/-- The template type count, if it fits. -/
def checkArity (arity : Nat) : Except UidError (Fin 8) :=
  if h : arity < 8 then .ok ⟨arity, h⟩ else .error (.fieldOutOfRange .templateTypeCount arity)

/-- The fixed instance, if it fits: 0 stands for none and cannot be asked for. -/
def checkInstance : Option Nat → Except UidError (Fin 8)
  | none => .ok 0
  | some i =>
    if h : 0 < i ∧ i < 8 then .ok ⟨i, h.2⟩ else .error (.fieldOutOfRange .fixedInstance i)

/-- A plain identifier. The template type count is checked before the instance. -/
def plain (arity : Nat) (inst : Option Nat) (number : Fin 65536) : Except UidError TypeUid := do
  let arity ← checkArity arity
  let inst ← checkInstance inst
  return ⟨arity, .plain inst number⟩

def wildcard (arity : Nat) (origin : Origin) : Except UidError TypeUid := do
  let arity ← checkArity arity
  return ⟨arity, .wildcard origin⟩

/-- Reads a word. Reserved bits are complained of before a wildcard with an instance. -/
def ofWord (w : UInt32) : Except UidError TypeUid :=
  let n := w.toNat
  if n / 0x80000000 ≠ 0 ∨ n / 0x10000 % 256 ≠ 0 then .error (.reservedBits w)
  else
    let arity : Fin 8 := Fin.ofNat 8 (n / 0x10000000)
    let inst : Fin 8 := Fin.ofNat 8 (n / 0x1000000)
    if n / 0x8000000 % 2 = 0 then .ok ⟨arity, .plain inst (Fin.ofNat 65536 n)⟩
    else if inst = 0 then
      .ok ⟨arity, .wildcard ⟨Fin.ofNat 256 (n / 256), Fin.ofNat 256 n⟩⟩
    else .error (.wildcardInstance w)

/-! ## Order -/

theorem number_plain (a : Fin 8) (i : Fin 8) (n : Fin 65536) :
    number ⟨a, .plain i n⟩ = a * 0x10000000 + i * 0x1000000 + n := by
  have hi : (if i = 0 then none else some i).getD 0 = i := by
    by_cases h : i = 0 <;> simp [h]
  simp only [number, isWildcard, origin?, instance?, low, hi, Option.isSome_none,
    Bool.false_eq_true, if_false, Nat.add_zero]

theorem number_wildcard (a : Fin 8) (p d : Fin 256) :
    number ⟨a, .wildcard ⟨p, d⟩⟩ = a * 0x10000000 + 0x8000000 + (p * 256 + d) := by
  simp only [number, isWildcard, origin?, instance?, low, Option.isSome_some, Option.getD_none,
    if_true, Fin.val_zero, Nat.zero_mul, Nat.add_zero]

theorem number_lt (u : TypeUid) : u.number < 0x80000000 := by
  obtain ⟨a, ⟨i, n⟩ | ⟨p, d⟩⟩ := u
  · rw [number_plain]
    omega
  · rw [number_wildcard]
    omega

theorem number_injective {u v : TypeUid} (h : u.number = v.number) : u = v := by
  obtain ⟨a, r⟩ := u
  obtain ⟨b, s⟩ := v
  cases r with
  | plain i n =>
    cases s with
    | plain j m =>
      rw [number_plain, number_plain] at h
      simp only [TypeUid.mk.injEq, TypeRole.plain.injEq, Fin.ext_iff]
      omega
    | wildcard o =>
      obtain ⟨p, d⟩ := o
      rw [number_plain, number_wildcard] at h
      omega
  | wildcard o =>
    obtain ⟨p, d⟩ := o
    cases s with
    | plain j m =>
      rw [number_plain, number_wildcard] at h
      omega
    | wildcard o =>
      obtain ⟨q, e⟩ := o
      rw [number_wildcard, number_wildcard] at h
      simp only [TypeUid.mk.injEq, TypeRole.wildcard.injEq, Origin.mk.injEq, Fin.ext_iff]
      omega

instance : SortKey TypeUid :=
  ⟨fun u => [u.number], fun h => number_injective (List.head_eq_of_cons_eq h)⟩

end TypeUid

end GeneGraph
