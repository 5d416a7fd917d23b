import GeneGraph.Proofs.Records
import Mathlib.Algebra.Group.Nat.Defs

/-!
# Identifiers as words

An identifier is packed into a word of 32 bits from its parts (`TypeUid.Parts.packed`), and
`UidWord` cuts the fields out of a word again, by shifts and masks. A word is read if no reserved
bit is set and no wildcard has an instance (`TypeUid.ofWord_eq`), and the words that are read are
those that are packed from parts that fit.

`TypeUid.packing_exact` says that nothing is lost or confused on the way: what is packed tells
its parts, and different parts give different words.
-/

namespace GeneGraph

/-! ## Fields of words -/

namespace UidWord

/-- The bits 31 and 23 to 16, which no identifier has. -/
def reserved (w : UInt32) : UInt32 := w &&& 0x80FF0000

/-- The bits 30 to 28. -/
def arity (w : UInt32) : UInt32 := (w >>> 28) &&& 0x7

/-- The bit 27. -/
def isWildcard (w : UInt32) : Bool := w &&& 0x8000000 ≠ 0

/-- The bits 26 to 24. -/
def inst (w : UInt32) : UInt32 := (w >>> 24) &&& 0x7

/-- The bits 15 to 0. -/
def low (w : UInt32) : UInt32 := w &&& 0xFFFF

/-- The upper eight of the low bits. -/
def position (w : UInt32) : UInt32 := low w >>> 8

/-- The lower eight of the low bits. -/
def depth (w : UInt32) : UInt32 := low w &&& 0xFF

variable {mask w : UInt32} {k m : Nat}

/-- Masking the low bits leaves the remainder. -/
theorem toNat_and_mask (hmask : mask.toNat = 2 ^ m - 1) (w : UInt32) :
    (w &&& mask).toNat = w.toNat % 2 ^ m := by
  rw [UInt32.toNat_and, hmask, Nat.and_two_pow_sub_one_eq_mod]

/-- No bit of a mask is set if the field that it covers is zero. -/
theorem and_mask_eq_zero_iff (hmask : mask.toNat = (2 ^ m - 1) <<< k) :
    w &&& mask = 0 ↔ w.toNat / 2 ^ k % 2 ^ m = 0 := by
  rw [← UInt32.toNat_inj, UInt32.toNat_and, hmask, UInt32.toNat_zero,
    ← Nat.and_two_pow_sub_one_eq_mod, ← Nat.shiftRight_eq_div_pow]
  have hfield : w.toNat &&& (2 ^ m - 1) <<< k = (w.toNat >>> k &&& (2 ^ m - 1)) <<< k := by
    apply Nat.eq_of_testBit_eq
    intro i
    simp only [Nat.testBit_and, Nat.testBit_shiftLeft, Nat.testBit_shiftRight]
    by_cases hi : k ≤ i
    · simp [hi]
    · simp [hi]
  rw [hfield, Nat.shiftLeft_eq_zero_iff]

theorem toNat_arity (w : UInt32) : (arity w).toNat = w.toNat / 0x10000000 % 8 := by
  rw [arity, toNat_and_mask (m := 3) rfl, UInt32.toNat_shiftRight, Nat.shiftRight_eq_div_pow]
  rfl

theorem toNat_inst (w : UInt32) : (inst w).toNat = w.toNat / 0x1000000 % 8 := by
  rw [inst, toNat_and_mask (m := 3) rfl, UInt32.toNat_shiftRight, Nat.shiftRight_eq_div_pow]
  rfl

theorem toNat_low (w : UInt32) : (low w).toNat = w.toNat % 65536 := toNat_and_mask (m := 16) rfl w

theorem toNat_position (w : UInt32) : (position w).toNat = w.toNat / 256 % 256 := by
  rw [position, UInt32.toNat_shiftRight, Nat.shiftRight_eq_div_pow, toNat_low]
  show w.toNat % 65536 / 256 = _
  omega

theorem toNat_depth (w : UInt32) : (depth w).toNat = w.toNat % 256 := by
  rw [depth, toNat_and_mask (m := 8) rfl, toNat_low]
  show w.toNat % 65536 % 256 = _
  omega

/-- The identifier with the fields of a word, whether or not the word can be read. -/
def fields (w : UInt32) : TypeUid where
  arity := ⟨(arity w).toNat, toNat_arity w ▸ Nat.mod_lt _ (by decide)⟩
  role :=
    if isWildcard w then
      .wildcard ⟨⟨(position w).toNat, toNat_position w ▸ Nat.mod_lt _ (by decide)⟩,
        ⟨(depth w).toNat, toNat_depth w ▸ Nat.mod_lt _ (by decide)⟩⟩
    else
      .plain ⟨(inst w).toNat, toNat_inst w ▸ Nat.mod_lt _ (by decide)⟩
        ⟨(low w).toNat, toNat_low w ▸ Nat.mod_lt _ (by decide)⟩

theorem isWildcard_iff : isWildcard w = true ↔ w.toNat / 0x8000000 % 2 ≠ 0 := by
  rw [isWildcard, decide_eq_true_eq]
  exact (and_mask_eq_zero_iff (k := 27) (m := 1) rfl).not

theorem reserved_eq_zero_iff :
    reserved w = 0 ↔ w.toNat / 0x80000000 = 0 ∧ w.toNat / 0x10000 % 256 = 0 := by
  have hsplit : reserved w = w &&& 0x80000000 ||| w &&& 0xFF0000 := by
    apply UInt32.toNat_inj.mp
    rw [reserved, UInt32.toNat_or, UInt32.toNat_and, UInt32.toNat_and, UInt32.toNat_and,
      ← Nat.and_or_distrib_left]
    rfl
  have hsign : w &&& 0x80000000 = 0 ↔ w.toNat / 0x80000000 % 2 = 0 :=
    and_mask_eq_zero_iff (k := 31) (m := 1) rfl
  have hmiddle : w &&& 0xFF0000 = 0 ↔ w.toNat / 0x10000 % 256 = 0 :=
    and_mask_eq_zero_iff (k := 16) (m := 8) rfl
  have hlt := w.toNat_lt
  rw [hsplit, UInt32.or_eq_zero_iff, hsign, hmiddle]
  omega

end UidWord

/-! ## Reading words -/

namespace TypeUid

variable {u v : TypeUid} {w : UInt32}

/-- A word is read field by field, unless a reserved bit is set or a wildcard has an instance. -/
theorem ofWord_eq (w : UInt32) : ofWord w =
    if UidWord.reserved w ≠ 0 then .error (.reservedBits w)
    else if UidWord.isWildcard w = true ∧ UidWord.inst w ≠ 0 then .error (.wildcardInstance w)
    else .ok (UidWord.fields w) := by
  have hinst : UidWord.inst w = 0 ↔ Fin.ofNat 8 (w.toNat / 0x1000000) = 0 := by
    rw [← UInt32.toNat_inj, UidWord.toNat_inst, Fin.ext_iff]
    rfl
  have hwildcard := UidWord.isWildcard_iff (w := w)
  unfold ofWord UidWord.fields
  simp only [UidWord.toNat_arity, UidWord.toNat_inst, UidWord.toNat_low, UidWord.toNat_position,
    UidWord.toNat_depth]
  by_cases hreserved : UidWord.reserved w = 0
  · obtain ⟨hsign, hmiddle⟩ := UidWord.reserved_eq_zero_iff.mp hreserved
    rw [if_neg (by omega), if_neg (not_not.mpr hreserved)]
    by_cases hw : UidWord.isWildcard w = true
    · rw [if_neg (hwildcard.mp hw), if_pos hw]
      by_cases hi : UidWord.inst w = 0
      · rw [if_pos (hinst.mp hi), if_neg (fun h => h.2 hi)]
        rfl
      · rw [if_neg (mt hinst.mpr hi), if_pos ⟨hw, hi⟩]
    · rw [if_pos (not_not.mp (mt hwildcard.mpr hw)), if_neg (fun h => hw h.1), if_neg hw]
      rfl
  · rw [if_pos hreserved, if_pos]
    by_contra h
    exact hreserved (UidWord.reserved_eq_zero_iff.mpr (by omega))

/-- The fields of a word that is read make it up again. -/
theorem word_fields (hreserved : UidWord.reserved w = 0)
    (hinst : UidWord.isWildcard w = true → UidWord.inst w = 0) :
    (UidWord.fields w).word = w := by
  obtain ⟨hsign, hmiddle⟩ := UidWord.reserved_eq_zero_iff.mp hreserved
  rw [← UInt32.toNat_inj, UidWord.toNat_inst, UInt32.toNat_zero] at hinst
  have hwildcard := UidWord.isWildcard_iff (w := w)
  have hlt := w.toNat_lt
  apply UInt32.toNat_inj.mp
  rw [toNat_word]
  unfold UidWord.fields
  simp only [UidWord.toNat_arity, UidWord.toNat_inst, UidWord.toNat_low, UidWord.toNat_position,
    UidWord.toNat_depth]
  by_cases hw : UidWord.isWildcard w = true
  · have hbit := hwildcard.mp hw
    have hzero := hinst hw
    rw [if_pos hw, number_wildcard]
    dsimp only
    omega
  · have hbit := not_not.mp (mt hwildcard.mpr hw)
    rw [if_neg hw, number_plain]
    dsimp only
    omega

/-- An identifier is read from its own word and from no other. -/
theorem ofWord_eq_ok_iff : ofWord w = .ok u ↔ u.word = w := by
  constructor
  · intro h
    rw [ofWord_eq] at h
    split at h
    · cases h
    · rename_i hreserved
      split at h
      · cases h
      · rename_i hinst
        cases h
        exact word_fields (not_not.mp hreserved) fun hw => not_not.mp fun hi => hinst ⟨hw, hi⟩
  · rintro rfl
    exact ofWord_word u

theorem fields_word (u : TypeUid) : UidWord.fields u.word = u := by
  have hread := ofWord_word u
  rw [ofWord_eq] at hread
  split at hread
  · cases hread
  · split at hread
    · cases hread
    · exact Except.ok.inj hread

/-- A signed word is read if it is the number of an identifier. -/
theorem ofInt_eq_ok_iff {n : Int} (hlo : -0x80000000 ≤ n) (hhi : n ≤ 0x7fffffff) :
    ofInt n = .ok u ↔ n = u.number := by
  have hlt := u.number_lt
  have hmod : (n % 0x100000000).toNat < 2 ^ 32 := by omega
  unfold ofInt
  rw [ofWord_eq_ok_iff, ← UInt32.toNat_inj, toNat_word, UInt32.toNat_ofNat_of_lt' hmod]
  omega

/-- An identifier is read from what is written for it and from nothing else. -/
theorem ofJson?_eq_some_iff {j : Json} : ofJson? j = some u ↔ j = u.toJson := by
  constructor
  · intro h
    obtain ⟨n, hint, hu⟩ := Option.bind_eq_some_iff.mp h
    cases j with
    | int m =>
      obtain ⟨⟨hlo, hhi⟩, hmn⟩ := Option.ite_none_right_eq_some.mp hint
      cases hmn
      obtain ⟨v, hok, rfl⟩ := toOption_map_eq_some.mp ((congrFun Option.map_id _).trans hu)
      rw [(ofInt_eq_ok_iff hlo hhi).mp hok]
      rfl
    | _ => cases hint
  · rintro rfl
    exact ofJson?_toJson u

/-! ## Packing -/

/-- What an identifier is packed from. -/
inductive Parts where
  | plain (arity : Nat) (inst : Option Nat) (number : Fin 65536)
  | wildcard (arity : Nat) (origin : Origin)
  deriving DecidableEq

namespace Parts

/-- The identifier of the parts, if they fit. -/
def make : Parts → Except UidError TypeUid
  | plain arity inst number => TypeUid.plain arity inst number
  | wildcard arity origin => TypeUid.wildcard arity origin

def arity : Parts → Nat
  | plain arity _ _ => arity
  | wildcard arity _ => arity

def instance? : Parts → Option Nat
  | plain _ inst _ => inst
  | wildcard _ _ => none

def origin? : Parts → Option Origin
  | plain _ _ _ => none
  | wildcard _ origin => some origin

/-- The plain number, or the position above the depth. -/
def low : Parts → Nat
  | plain _ _ number => number
  | wildcard _ origin => origin.position * 256 + origin.depth

/-- There are at most seven template types, and an instance is one of the seven. -/
def Fits (p : Parts) : Prop := p.arity ≤ 7 ∧ ∀ i ∈ p.instance?, 1 ≤ i ∧ i ≤ 7

/-- The parts shifted into their places. -/
def packed : Parts → UInt32
  | plain arity inst number =>
    (UInt32.ofNat arity <<< 28) ||| (UInt32.ofNat (inst.getD 0) <<< 24) ||| UInt32.ofNat number.val
  | wildcard arity origin =>
    (UInt32.ofNat arity <<< 28) ||| ((1 : UInt32) <<< 27) |||
      ((UInt32.ofNat origin.position.val <<< 8) ||| UInt32.ofNat origin.depth.val)

end Parts

/-- What an identifier is packed from. -/
def parts (u : TypeUid) : Parts :=
  match u.role with
  | .plain _ number => .plain u.arity (u.instance?.map Fin.val) number
  | .wildcard origin => .wildcard u.arity origin

/-- Instance 0 stands for none. -/
def ofInstance (i : Fin 8) : Option Nat := if i = 0 then none else some i

theorem parts_plain (a i : Fin 8) (n : Fin 65536) :
    parts ⟨a, .plain i n⟩ = .plain a (ofInstance i) n := by
  unfold parts instance? ofInstance
  dsimp only
  split <;> rfl

theorem checkArity_eq_ok_iff {arity : Nat} {a : Fin 8} : checkArity arity = .ok a ↔ a = arity := by
  unfold checkArity
  split
  · rw [Except.ok.injEq, Fin.ext_iff, eq_comm]
  · rename_i hlt
    constructor
    · nofun
    · rintro rfl
      exact absurd a.isLt hlt

theorem checkInstance_eq_ok_iff {inst : Option Nat} {i : Fin 8} :
    checkInstance inst = .ok i ↔ ofInstance i = inst := by
  have hzero : i = 0 ↔ i.val = 0 := Fin.ext_iff
  have hlt := i.isLt
  unfold checkInstance ofInstance
  cases inst with
  | none =>
    rw [Except.ok.injEq, eq_comm, ite_eq_left_iff]
    simp
  | some k =>
    dsimp only
    split
    · rw [Except.ok.injEq, Fin.ext_iff, ite_eq_iff, Option.some.injEq]
      simp only [reduceCtorEq, and_false, false_or]
      omega
    · rw [ite_eq_iff, Option.some.injEq]
      simp only [reduceCtorEq, and_false, false_or, false_iff]
      omega

theorem exists_ofInstance_iff {inst : Option Nat} :
    (∃ i, ofInstance i = inst) ↔ ∀ k ∈ inst, 1 ≤ k ∧ k ≤ 7 := by
  unfold ofInstance
  constructor
  · rintro ⟨i, rfl⟩ k hk
    obtain ⟨hi, hk⟩ := Option.ite_none_left_eq_some.mp hk
    cases hk
    rw [Fin.ext_iff] at hi
    exact ⟨Nat.pos_of_ne_zero hi, Nat.le_of_lt_succ i.isLt⟩
  · intro h
    cases inst with
    | none => exact ⟨0, rfl⟩
    | some k =>
      obtain ⟨hpos, hle⟩ := h k rfl
      refine ⟨⟨k, Nat.lt_succ_of_le hle⟩, if_neg ?_⟩
      rw [Fin.ext_iff]
      exact Nat.ne_of_gt hpos

namespace Parts

variable {p q : Parts}

/-- The parts of an identifier are those that it can be made from. -/
theorem make_eq_ok_iff : p.make = .ok u ↔ u.parts = p := by
  obtain ⟨a, r⟩ := u
  cases p with
  | plain arity inst number =>
    simp only [make, TypeUid.plain, bind_eq_ok, checkArity_eq_ok_iff, checkInstance_eq_ok_iff]
    cases r with
    | plain i n =>
      rw [parts_plain]
      constructor
      · rintro ⟨_, rfl, _, rfl, h⟩
        cases h
        rfl
      · intro h
        cases h
        exact ⟨a, rfl, i, rfl, rfl⟩
    | wildcard o =>
      constructor
      · rintro ⟨_, -, _, -, h⟩
        cases h
      · nofun
  | wildcard arity origin =>
    simp only [make, TypeUid.wildcard, bind_eq_ok, checkArity_eq_ok_iff]
    cases r with
    | plain i n =>
      constructor
      · rintro ⟨_, -, h⟩
        cases h
      · nofun
    | wildcard o =>
      constructor
      · rintro ⟨_, rfl, h⟩
        cases h
        rfl
      · intro h
        cases h
        exact ⟨a, rfl, rfl⟩

theorem exists_make_iff : (∃ u, p.make = .ok u) ↔ p.Fits := by
  simp only [make_eq_ok_iff]
  constructor
  · rintro ⟨⟨a, ⟨i, n⟩ | o⟩, rfl⟩
    · rw [parts_plain]
      exact ⟨Nat.le_of_lt_succ a.isLt, exists_ofInstance_iff.mp ⟨i, rfl⟩⟩
    · exact ⟨Nat.le_of_lt_succ a.isLt, nofun⟩
  · rintro ⟨harity, hinst⟩
    cases p with
    | plain arity inst number =>
      obtain ⟨i, rfl⟩ := exists_ofInstance_iff.mpr hinst
      exact ⟨⟨⟨arity, Nat.lt_succ_of_le harity⟩, .plain i number⟩, parts_plain _ _ _⟩
    | wildcard arity origin => exact ⟨⟨⟨arity, Nat.lt_succ_of_le harity⟩, .wildcard origin⟩, rfl⟩

theorem toNat_ofNat_shiftLeft {k m : Nat} {s : UInt32} (hs : s.toNat % 32 = m)
    (hfit : k * 2 ^ m < 2 ^ 32) : (UInt32.ofNat k <<< s).toNat = k <<< m := by
  have hk : k < 2 ^ 32 := Nat.lt_of_le_of_lt (Nat.le_mul_of_pos_right k (Nat.two_pow_pos m)) hfit
  rw [UInt32.toNat_shiftLeft, UInt32.toNat_ofNat_of_lt' hk, hs, Nat.shiftLeft_eq,
    Nat.mod_eq_of_lt hfit]

/-- The fields do not overlap, so they can be added up. -/
theorem packed_parts (u : TypeUid) : u.parts.packed = u.word := by
  apply UInt32.toNat_inj.mp
  rw [toNat_word]
  obtain ⟨⟨a, ha⟩, ⟨⟨i, hi⟩, ⟨n, hn⟩⟩ | ⟨⟨p, hp⟩, ⟨d, hd⟩⟩⟩ := u
  · have hinst : (ofInstance ⟨i, hi⟩).getD 0 = i := by
      unfold ofInstance
      split
      · rename_i h
        exact (congrArg Fin.val h).symm
      · rfl
    -- Each field is added above the sum of those below it.
    rw [parts_plain, number_plain, packed, hinst, UInt32.toNat_or, UInt32.toNat_or, Nat.or_assoc,
      toNat_ofNat_shiftLeft (m := 28) rfl (by omega),
      toNat_ofNat_shiftLeft (m := 24) rfl (by omega),
      UInt32.toNat_ofNat_of_lt' (Nat.lt_trans hn (by decide)),
      ← Nat.shiftLeft_add_eq_or_of_lt (i := 24) (Nat.lt_trans hn (by decide)),
      ← Nat.shiftLeft_add_eq_or_of_lt (i := 28) (by omega)]
    dsimp only
    omega
  · have hbit : ((1 : UInt32) <<< 27).toNat = 1 <<< 27 := rfl
    rw [number_wildcard]
    show ((UInt32.ofNat a <<< 28) ||| ((1 : UInt32) <<< 27) |||
      ((UInt32.ofNat p <<< 8) ||| UInt32.ofNat d)).toNat = _
    rw [UInt32.toNat_or, UInt32.toNat_or, UInt32.toNat_or, Nat.or_assoc, hbit,
      toNat_ofNat_shiftLeft (m := 28) rfl (by omega),
      toNat_ofNat_shiftLeft (m := 8) rfl (by omega),
      UInt32.toNat_ofNat_of_lt' (Nat.lt_trans hd (by decide)),
      ← Nat.shiftLeft_add_eq_or_of_lt (i := 8) hd,
      ← Nat.shiftLeft_add_eq_or_of_lt (i := 27) (by omega),
      ← Nat.shiftLeft_add_eq_or_of_lt (i := 28) (by omega)]
    dsimp only
    omega

end Parts

/-- An identifier tells the parts that it is packed from. -/
structure Tells (u : TypeUid) (p : Parts) : Prop where
  /-- The parts are shifted into the word. -/
  word : u.word = p.packed
  /-- The identifier is what shifts and masks cut out of its word. -/
  fields : UidWord.fields u.word = u
  arity : u.arity = p.arity
  inst : u.instance?.map Fin.val = p.instance?
  low : u.low = p.low
  wildcard : u.isWildcard = p.origin?.isSome
  origin : u.origin? = p.origin?

theorem tells_parts (u : TypeUid) : u.Tells u.parts where
  word := (Parts.packed_parts u).symm
  fields := fields_word u
  arity := by obtain ⟨a, _ | _⟩ := u <;> rfl
  inst := by obtain ⟨a, _ | _⟩ := u <;> rfl
  low := by obtain ⟨a, _ | _⟩ := u <;> rfl
  wildcard := by obtain ⟨a, _ | _⟩ := u <;> rfl
  origin := by obtain ⟨a, _ | _⟩ := u <;> rfl

theorem exists_make_and {P : TypeUid → Prop} : (∃ p u, Parts.make p = .ok u ∧ P u) ↔ ∃ u, P u := by
  simp only [Parts.make_eq_ok_iff]
  constructor
  · rintro ⟨_, u, -, h⟩
    exact ⟨u, h⟩
  · rintro ⟨u, h⟩
    exact ⟨u.parts, u, rfl, h⟩

theorem word_injective (h : u.word = v.word) : u = v := by
  have hread := ofWord_word u
  rw [h, ofWord_word v] at hread
  exact (Except.ok.inj hread).symm

/-- The words that are read, the signed words and the written numbers likewise, are exactly those
of the identifiers packed from some parts. An identifier is read from its own word only. The parts
that are packed are those that fit, they are all told by the identifier, and words are equal for
equal parts only. -/
theorem packing_exact :
    (∀ w, (∃ u, ofWord w = .ok u) ↔ ∃ p u, Parts.make p = .ok u ∧ u.word = w) ∧
    (∀ n : Int, -0x80000000 ≤ n → n ≤ 0x7fffffff →
      ((∃ u, ofInt n = .ok u) ↔ ∃ p u, Parts.make p = .ok u ∧ n = u.number)) ∧
    (∀ j, (∃ u, ofJson? j = some u) ↔ ∃ p u, Parts.make p = .ok u ∧ j = u.toJson) ∧
    (∀ w u, ofWord w = .ok u ↔ u.word = w) ∧
    (∀ p, (∃ u, Parts.make p = .ok u) ↔ p.Fits) ∧
    (∀ p u, Parts.make p = .ok u → u.Tells p) ∧
    ∀ p q u v, Parts.make p = .ok u → Parts.make q = .ok v → u.word = v.word → p = q := by
  refine ⟨fun w => ?_, fun n hlo hhi => ?_, fun j => ?_, fun w u => ofWord_eq_ok_iff,
    fun p => Parts.exists_make_iff, fun p u h => ?_, fun p q u v hp hq h => ?_⟩
  · rw [exists_make_and]
    exact exists_congr fun u => ofWord_eq_ok_iff
  · rw [exists_make_and]
    exact exists_congr fun u => ofInt_eq_ok_iff hlo hhi
  · rw [exists_make_and]
    exact exists_congr fun u => ofJson?_eq_some_iff
  · rw [← Parts.make_eq_ok_iff.mp h]
    exact tells_parts u
  · rw [← Parts.make_eq_ok_iff.mp hp, ← Parts.make_eq_ok_iff.mp hq, word_injective h]

/-- The third instance of a type with two template types is read as it is packed, and a wildcard
for what is one deep in input 4 is told apart from the plain type with the same low bits. -/
theorem packing_exact_same_low :
    Parts.make (.plain 2 (some 3) 0xBEEF) = .ok ⟨2, .plain 3 0xBEEF⟩ ∧
      Tells ⟨2, .plain 3 0xBEEF⟩ (.plain 2 (some 3) 0xBEEF) ∧
      (-0x80000000 : Int) ≤ 0x2300BEEF ∧ (0x2300BEEF : Int) ≤ 0x7fffffff ∧
      (∃ u, ofInt 0x2300BEEF = .ok u) ∧
      Parts.make (.plain 0 none 0x401) = .ok ⟨0, .plain 0 0x401⟩ ∧
      Parts.make (.wildcard 0 ⟨4, 1⟩) = .ok ⟨0, .wildcard ⟨4, 1⟩⟩ ∧
      word ⟨0, .plain 0 0x401⟩ ≠ word ⟨0, .wildcard ⟨4, 1⟩⟩ := by
  obtain ⟨-, hsigned, -, -, -, htells, hinjective⟩ := packing_exact
  refine ⟨rfl, htells _ _ rfl, by decide, by decide, ?_, rfl, rfl, fun h => ?_⟩
  · exact (hsigned _ (by decide) (by decide)).mpr ⟨.plain 2 (some 3) 0xBEEF, _, rfl, by decide⟩
  · cases hinjective (.plain 0 none 0x401) (.wildcard 0 ⟨4, 1⟩) _ _ rfl rfl h

end TypeUid

end GeneGraph
