import GeneGraph.Proofs.Freezing
import Mathlib.Algebra.Group.Nat.Defs
import Mathlib.Data.List.Perm.Subperm

/-!
# Digests tell codes apart

The digest of a code is the hash of its bytes (`Code.preimage`). A writing `Delimits` its values
when each can be told from the bytes it stands in front of, wherever it ends; numbers of a fixed
width do, and so does all that is written behind its count. Only the list of rows has neither a
count nor an end: it ends because no row starts as the connections do (`rowBytes_ne_wireBytes`).

So equal bytes are bytes of equal graphs with sub-codes of equal digests, and frozen codes whose
bytes do not collide are equal, down to the innermost sub-code, as soon as their digests are
(`preimage_identifies`).
-/

namespace GeneGraph

/-! ## Writings that show where they end -/

section Writing

variable {α β : Type} {write : α → List UInt8} {write' : β → List UInt8} {P : α → Prop}
  {Q : β → Prop}

/-- Of two values for which `P` holds, each can be told from the bytes that its writing begins. -/
def Delimits (write : α → List UInt8) (P : α → Prop) : Prop :=
  ∀ a b, P a → P b → ∀ r s, write a ++ r = write b ++ s → a = b ∧ r = s

theorem Delimits.append (h : Delimits write P) (h' : Delimits write' Q) :
    Delimits (fun x : α × β => write x.1 ++ write' x.2) fun x => P x.1 ∧ Q x.2 := by
  rintro ⟨a, b⟩ ⟨c, d⟩ ⟨ha, hb⟩ ⟨hc, hd⟩ r s heq
  simp only [List.append_assoc] at heq
  obtain ⟨rfl, hrest⟩ := h a c ha hc _ _ heq
  obtain ⟨rfl, rfl⟩ := h' b d hb hd _ _ hrest
  exact ⟨rfl, rfl⟩

theorem Delimits.comp {f : β → α} (h : Delimits write P) (hf : Function.Injective f) :
    Delimits (fun b => write (f b)) fun b => P (f b) := by
  intro a b ha hb r s heq
  obtain ⟨hab, hrs⟩ := h (f a) (f b) ha hb r s heq
  exact ⟨hf hab, hrs⟩

theorem Delimits.mono {P' : α → Prop} (h : Delimits write P) (hP : ∀ a, P' a → P a) :
    Delimits write P' :=
  fun a b ha hb => h a b (hP a ha) (hP b hb)

/-- Writings of a fixed width show where they end. -/
theorem delimits_of_length {n : Nat} (hlen : ∀ a, (write a).length = n)
    (hinj : ∀ a b, P a → P b → write a = write b → a = b) : Delimits write P := by
  intro a b ha hb r s heq
  obtain ⟨hab, hrs⟩ := List.append_inj heq ((hlen a).trans (hlen b).symm)
  exact ⟨hinj a b ha hb hab, hrs⟩

/-- Lists of the same length can be told apart item by item. -/
theorem Delimits.flatMap (h : Delimits write P) {l l' : List α} (hl : ∀ a ∈ l, P a)
    (hl' : ∀ a ∈ l', P a) (hlen : l.length = l'.length) {r s : List UInt8}
    (heq : l.flatMap write ++ r = l'.flatMap write ++ s) : l = l' ∧ r = s := by
  induction l generalizing l' with
  | nil =>
    obtain rfl : l' = [] := List.length_eq_zero_iff.mp hlen.symm
    exact ⟨rfl, heq⟩
  | cons a l ih =>
    cases l' with
    | nil => cases hlen
    | cons b l' =>
      simp only [List.flatMap_cons, List.append_assoc] at heq
      obtain ⟨rfl, hrest⟩ := h a b (hl a List.mem_cons_self) (hl' b List.mem_cons_self) _ _ heq
      obtain ⟨rfl, rfl⟩ := ih (fun a ha => hl a (List.mem_cons_of_mem _ ha))
        (fun a ha => hl' a (List.mem_cons_of_mem _ ha)) (Nat.succ.inj hlen) hrest
      exact ⟨rfl, rfl⟩

end Writing

namespace Code

/-! ## Numbers and counted lists -/

theorem length_littleEndian (count n : Nat) : (littleEndian count n).length = count := by
  induction count generalizing n with
  | zero => rfl
  | succ count ih => simp [littleEndian, ih]

/-- The bytes of a number give it back, if they are enough for it. -/
theorem littleEndian_inj {count n m : Nat} (hn : n < 256 ^ count) (hm : m < 256 ^ count)
    (h : littleEndian count n = littleEndian count m) : n = m := by
  induction count generalizing n m with
  | zero => simp at hn hm; omega
  | succ count ih =>
    simp only [littleEndian, List.cons.injEq] at h
    obtain ⟨hlow, hhigh⟩ := h
    have hdiv : n / 256 = m / 256 := by
      apply ih _ _ hhigh
      · rw [Nat.div_lt_iff_lt_mul (by decide), ← Nat.pow_succ]
        exact hn
      · rw [Nat.div_lt_iff_lt_mul (by decide), ← Nat.pow_succ]
        exact hm
    have hmod : n % 256 = m % 256 := by
      have := congrArg UInt8.toNat hlow
      simpa using this
    omega

theorem countBytes_delimits : Delimits countBytes fun n => n < 2 ^ 64 :=
  delimits_of_length (length_littleEndian 8) fun n m hn hm => by
    apply littleEndian_inj
    · exact hn
    · exact hm

/-- A list behind its length shows where it ends. -/
theorem counted_delimits {α : Type} {write : α → List UInt8} {P : α → Prop}
    (h : Delimits write P) :
    Delimits (fun l : List α => countBytes l.length ++ l.flatMap write)
      fun l => l.length < 2 ^ 64 ∧ ∀ a ∈ l, P a := by
  intro l l' hl hl' r s heq
  simp only [List.append_assoc] at heq
  obtain ⟨hlen, heq⟩ := countBytes_delimits _ _ hl.1 hl'.1 _ _ heq
  exact h.flatMap hl.2 hl'.2 hlen heq

/-! ## Interfaces and rows -/

theorem uidBytes_delimits :
    Delimits (fun u : TypeUid => littleEndian 4 u.number) fun _ => True :=
  delimits_of_length (fun _ => length_littleEndian 4 _) fun u v _ _ h => by
    apply TypeUid.number_injective
    apply littleEndian_inj _ _ h
    · have := u.number_lt
      omega
    · have := v.number_lt
      omega

theorem eptBytes_delimits : Delimits eptBytes fun e => e.length < 2 ^ 64 :=
  ((counted_delimits uidBytes_delimits).comp (f := Ept.flat) fun _ _ => Ept.flat_injective).mono
    fun _ he => ⟨he, fun _ _ => trivial⟩

theorem interfaceBytes_delimits : Delimits interfaceBytes fun _ => True := by
  have h := (counted_delimits eptBytes_delimits).comp (f := Interface.epts)
    fun _ _ => Interface.ext
  refine h.mono fun i _ => ⟨?_, fun e he => ?_⟩
  · have := i.length_le
    unfold Interface.length maxElements at this
    omega
  · have := Nat.le_trans (length_le_elementsOf_of_mem he) i.fits
    unfold maxElements at this
    omega

theorem letterByte_inj {row row' : Row} (h : letterByte row.letter = letterByte row'.letter) :
    row = row' := by
  revert h
  cases row <;> cases row' <;> decide

theorem letterByte_ne_zero (row : Row) : letterByte row.letter ≠ 0 := by
  cases row <;> decide

theorem letter_delimits : Delimits (fun row : Row => [letterByte row.letter]) fun _ => True :=
  delimits_of_length (fun _ => rfl) fun _ _ _ _ h => letterByte_inj (List.head_eq_of_cons_eq h)

theorem rowBytes_delimits :
    Delimits (fun x : Row × Sides => rowBytes x.1 x.2) fun _ => True := by
  have h := (letter_delimits.append
    (interfaceBytes_delimits.append interfaceBytes_delimits)).comp
      (f := fun x : Row × Sides => (x.1, x.2.dst, x.2.src)) (by
        rintro ⟨row, s⟩ ⟨row', s'⟩ heq
        simp only [Prod.mk.injEq] at heq
        cases s; cases s'
        simp_all)
  exact h.mono fun _ _ => ⟨trivial, trivial, trivial⟩

/-! ## Connections -/

theorem pointBytes_delimits : Delimits pointBytes fun p => p.index < 2 ^ 64 := by
  have h := (letter_delimits.append countBytes_delimits).comp
    (f := fun p : EndPoint => (p.row, p.index)) (by
      intro p q heq
      simp only [Prod.mk.injEq] at heq
      exact EndPoint.ext heq.1 heq.2)
  exact h.mono fun _ hp => ⟨trivial, hp⟩

end Code

/-- The connections can be counted, and their end points numbered, in eight bytes. -/
structure Graph.Addressable (g : Graph) : Prop where
  size_lt : g.wires.size < 2 ^ 64
  index_lt : ∀ dst src, g.sourceOf? dst = some src → dst.index < 2 ^ 64 ∧ src.index < 2 ^ 64

theorem Graph.addressable_of_toList {g : Graph} (hsize : g.wires.size < 2 ^ 64)
    (h : ∀ e ∈ g.wires.toList, e.1.index < 2 ^ 64 ∧ e.2.index < 2 ^ 64) : g.Addressable :=
  ⟨hsize, fun dst src hs => h (dst, src) (mem_wires.mpr hs)⟩

/-- All end points that a graph can have on one side. -/
def Graph.places : List EndPoint :=
  Row.all.flatMap fun row => (List.range maxElements).map fun k => ⟨row, k⟩

theorem Graph.mem_places {g : Graph} {a : Side} {p : EndPoint} (h : g.exists? a p = true) :
    p ∈ places := by
  have hlt : p.index < (g.interface p.row a).length := of_decide_eq_true h
  have hle := (g.interface p.row a).length_le
  exact List.mem_flatMap.mpr ⟨p.row, mem_all p.row, List.mem_map.mpr
    ⟨p.index, List.mem_range.mpr (by omega), rfl⟩⟩

/-- Connections between end points that exist are few. -/
theorem Graph.Anchored.addressable {g : Graph} (h : g.Anchored) : g.Addressable := by
  have hindex : ∀ {a p}, g.exists? a p = true → p.index < 2 ^ 64 := by
    intro a p hp
    have hlt : p.index < (g.interface p.row a).length := of_decide_eq_true hp
    have hle := (g.interface p.row a).length_le
    unfold maxElements at hle
    omega
  constructor
  · have hsub : g.wires.keys ⊆ places := by
      intro p hp
      obtain ⟨src, hs⟩ := Option.isSome_iff_exists.mp (SortedMap.mem_keys.mp hp)
      exact mem_places (h p src hs).1
    have hle : g.wires.keys.length ≤ places.length :=
      (List.Nodup.subperm g.wires.nodup_keys hsub).length_le
    have hplaces : places.length = 3072 := by decide +kernel
    rw [SortedMap.keys, List.length_map] at hle
    unfold SortedMap.size
    omega
  · intro dst src hs
    exact ⟨hindex (h dst src hs).1, hindex (h dst src hs).2⟩

namespace Code

variable {c c' : Code} {w w' : SortedMap EndPoint EndPoint} {r s : List UInt8}

theorem wireBytes_delimits : Delimits wireBytes fun w => w.size < 2 ^ 64 ∧
    ∀ e ∈ w.toList, e.1.index < 2 ^ 64 ∧ e.2.index < 2 ^ 64 :=
  (counted_delimits (pointBytes_delimits.append pointBytes_delimits)).comp
    (f := SortedMap.toList) fun _ _ => SortedMap.toList_inj

/-- Connections do not start like a row: a count that starts with the letter of a row is followed
by the letter of an end point, where a row has the highest byte of a small count. -/
theorem rowBytes_ne_wireBytes (row : Row) (sides : Sides) :
    rowBytes row sides ++ r ≠ wireBytes w ++ s := by
  intro h
  have hm := sides.dst.length_le
  unfold rowBytes interfaceBytes wireBytes countBytes at h
  simp only [littleEndian, List.cons_append, List.nil_append, List.append_assoc,
    List.cons.injEq] at h
  obtain ⟨h₀, h₁, h₂, h₃, h₄, h₅, h₆, h₇, h⟩ := h
  cases hw : w.toList with
  | nil =>
    apply letterByte_ne_zero row
    rw [h₀, SortedMap.size, hw]
    rfl
  | cons e rest =>
    rw [hw, List.flatMap_cons, pointBytes, List.cons_append, List.cons_append, List.cons_append,
      List.cons.injEq] at h
    apply letterByte_ne_zero e.1.row
    rw [← h.1]
    unfold maxElements at hm
    have hzero : sides.dst.length / 256 / 256 / 256 / 256 / 256 / 256 / 256 = 0 := by omega
    rw [hzero]
    rfl

/-- The rows end where the connections begin. -/
theorem rows_inj {l l' : List (Row × Sides)}
    (h : l.flatMap (fun x => rowBytes x.1 x.2) ++ (wireBytes w ++ r) =
      l'.flatMap (fun x => rowBytes x.1 x.2) ++ (wireBytes w' ++ s)) :
    l = l' ∧ wireBytes w ++ r = wireBytes w' ++ s := by
  induction l generalizing l' with
  | nil =>
    cases l' with
    | nil => exact ⟨rfl, h⟩
    | cons x l' =>
      rw [List.flatMap_cons, List.append_assoc] at h
      exact absurd h.symm (rowBytes_ne_wireBytes x.1 x.2)
  | cons x l ih =>
    cases l' with
    | nil =>
      rw [List.flatMap_cons, List.append_assoc] at h
      exact absurd h (rowBytes_ne_wireBytes x.1 x.2)
    | cons x' l' =>
      simp only [List.flatMap_cons, List.append_assoc] at h
      obtain ⟨rfl, hrest⟩ := rowBytes_delimits x x' trivial trivial _ _ h
      obtain ⟨rfl, htail⟩ := ih hrest
      exact ⟨rfl, htail⟩

/-! ## Codes -/

/-- A text without zeros shows where it ends if a zero follows. -/
theorem append_zero_inj {l l' : List UInt8} (hl : 0 ∉ l) (hl' : 0 ∉ l')
    (h : l ++ 0 :: r = l' ++ 0 :: s) : l = l' ∧ r = s := by
  induction l generalizing l' with
  | nil =>
    cases l' with
    | nil => exact ⟨rfl, List.tail_eq_of_cons_eq h⟩
    | cons b l' =>
      have hb : 0 = b := List.head_eq_of_cons_eq h
      simp [← hb] at hl'
  | cons a l ih =>
    cases l' with
    | nil =>
      have ha : a = 0 := List.head_eq_of_cons_eq h
      simp [ha] at hl
    | cons b l' =>
      simp only [List.mem_cons, not_or] at hl hl'
      simp only [List.cons_append, List.cons.injEq] at h
      obtain ⟨rfl, rfl⟩ := ih hl.2 hl'.2 h.2
      exact ⟨by rw [h.1], rfl⟩

def kindBytes (k : GraphKind) : List UInt8 := k.text.toList.map letterByte

theorem zero_not_mem_kindBytes (k : GraphKind) : 0 ∉ kindBytes k := by
  cases k <;> decide +kernel

theorem kindBytes_injective : Function.Injective kindBytes := by
  intro k k'
  cases k <;> cases k' <;> decide +kernel

theorem subBytes_inj {o o' : Option Frozen} (h : subBytes o ++ r = subBytes o' ++ s) :
    o.map Frozen.digest = o'.map Frozen.digest ∧ r = s := by
  cases o with
  | none =>
    cases o' with
    | none => exact ⟨rfl, List.tail_eq_of_cons_eq h⟩
    | some f => exact absurd (List.head_eq_of_cons_eq h) (by decide)
  | some f =>
    cases o' with
    | none => exact absurd (List.head_eq_of_cons_eq h) (by decide)
    | some f' =>
      have htail := List.tail_eq_of_cons_eq h
      obtain ⟨hbytes, hrest⟩ := List.append_inj htail (by simp)
      refine ⟨?_, hrest⟩
      rw [Option.map_some, Option.map_some, Option.some.injEq]
      have hdigest : f.digest.bytes = f'.digest.bytes := Vector.toList_inj.mp hbytes
      exact congrArg Digest.mk hdigest

theorem subBytes_eq {o o' : Option Frozen} (h : o.map Frozen.digest = o'.map Frozen.digest) :
    subBytes o = subBytes o' := by
  cases o <;> cases o' <;> simp_all [subBytes]

/-- Equal bytes are bytes of equal graphs with sub-codes of equal digests. -/
theorem preimage_eq_iff (hc : c.graph.Addressable) (hc' : c'.graph.Addressable) :
    c.preimage = c'.preimage ↔ c.graph = c'.graph ∧
      ∀ row, (c.sub? row).map Frozen.digest = (c'.sub? row).map Frozen.digest := by
  constructor
  · intro h
    unfold preimage at h
    simp only [List.append_assoc, List.append_cancel_left_eq] at h
    obtain ⟨hkind, hrows⟩ := append_zero_inj (zero_not_mem_kindBytes c.kind)
      (zero_not_mem_kindBytes c'.kind) h
    obtain ⟨hrows, hwires⟩ := rows_inj hrows
    obtain ⟨hwires, hsubs⟩ := wireBytes_delimits _ _
      ⟨hc.size_lt, fun e he => hc.index_lt e.1 e.2 (Graph.mem_wires.mp he)⟩
      ⟨hc'.size_lt, fun e he => hc'.index_lt e.1 e.2 (Graph.mem_wires.mp he)⟩ _ _ hwires
    obtain ⟨hA, hB⟩ := subBytes_inj hsubs
    have hB' : subBytes c.subB ++ [] = subBytes c'.subB ++ [] := by simpa using hB
    refine ⟨Graph.ext_iff.mpr ⟨kindBytes_injective hkind, SortedMap.toList_inj hrows, hwires⟩, ?_⟩
    intro row
    cases row with
    | A => exact hA
    | B => exact (subBytes_inj hB').1
    | _ => rfl
  · rintro ⟨hg, hsub⟩
    have hA : subBytes c.subA = subBytes c'.subA := subBytes_eq (hsub .A)
    have hB : subBytes c.subB = subBytes c'.subB := subBytes_eq (hsub .B)
    unfold preimage
    rw [hA, hB, kind, kind, hg]

end Code

/-! ## Frozen codes -/

namespace Frozen

variable {f g d e : Frozen} {path : List Row}

/-- The code that is reached through the sub-codes of the rows of a path. -/
def inner? : List Row → Frozen → Option Frozen
  | [], f => some f
  | row :: path, f => (f.code.sub? row).bind (inner? path)

/-- The bytes of codes at the same place inside `f` and `g` do not collide. -/
def NoCollision (f g : Frozen) : Prop :=
  ∀ path d e, f.inner? path = some d → g.inner? path = some e →
    Blake3.hash d.code.preimage = Blake3.hash e.code.preimage →
      d.code.preimage = e.code.preimage

/-- The connections of the code and of all codes inside it can be written down. -/
def Addressable (f : Frozen) : Prop := ∀ path d, f.inner? path = some d → d.graph.Addressable

theorem Made.digest_eq (h : f.Made) : f.digest = Blake3.hash f.code.preimage := by
  cases h
  rfl

theorem inner?_cons {row : Row} (h : f.code.sub? row = some d) (path : List Row) :
    f.inner? (row :: path) = d.inner? path := by
  rw [inner?, h, Option.bind_some]

/-- Codes of equal digests have equal graphs and sub-codes of equal digests. -/
theorem eq_of_digest_eq (hf : f.Made) (hg : g.Made) (haf : f.Addressable) (hag : g.Addressable)
    (hn : NoCollision f g) (h : f.digest = g.digest) : f.graph = g.graph ∧
      ∀ row, (f.code.sub? row).map Frozen.digest = (g.code.sub? row).map Frozen.digest := by
  have hpre : f.code.preimage = g.code.preimage := by
    apply hn [] f g rfl rfl
    rw [← hf.digest_eq, ← hg.digest_eq, h]
  exact (Code.preimage_eq_iff (haf [] f rfl) (hag [] g rfl)).mp hpre

theorem NoCollision.sub {row : Row} (h : NoCollision f g) (hd : f.code.sub? row = some d)
    (he : g.code.sub? row = some e) : NoCollision d e := by
  intro path d' e' hd' he'
  apply h (row :: path) d' e'
  · rwa [inner?_cons hd]
  · rwa [inner?_cons he]

theorem Addressable.sub {row : Row} (h : f.Addressable) (hd : f.code.sub? row = some d) :
    d.Addressable := by
  intro path d' hd'
  apply h (row :: path)
  rwa [inner?_cons hd]

theorem addressable_of_subs (hf : f.graph.Addressable) (hs : ∀ d ∈ f.subs, d.Addressable) :
    f.Addressable := by
  intro path d hd
  cases path with
  | nil =>
    obtain rfl := Option.some.inj hd
    exact hf
  | cons row path =>
    rw [inner?, Option.bind_eq_some_iff] at hd
    obtain ⟨e, he, hd⟩ := hd
    exact hs e (Code.mem_subs.mpr ⟨row, he⟩) path d hd

/-- Codes of equal digests are equal wherever one looks. -/
theorem inner?_eq_of_digest_eq (hf : f.Made) (hg : g.Made) (haf : f.Addressable)
    (hag : g.Addressable) (hn : NoCollision f g) (h : f.digest = g.digest) (path : List Row) :
    (f.inner? path).map Frozen.graph = (g.inner? path).map Frozen.graph := by
  induction path generalizing f g with
  | nil => exact congrArg some (eq_of_digest_eq hf hg haf hag hn h).1
  | cons row path ih =>
    have hrow := (eq_of_digest_eq hf hg haf hag hn h).2 row
    cases hd : f.code.sub? row with
    | none =>
      rw [hd, Option.map_none, eq_comm, Option.map_eq_none_iff] at hrow
      rw [inner?, inner?, hd, hrow]
    | some d =>
      rw [hd, Option.map_some, eq_comm, Option.map_eq_some_iff] at hrow
      obtain ⟨e, he, hdigest⟩ := hrow
      rw [inner?_cons hd, inner?_cons he]
      apply ih
      · exact hf.subs_made d (Code.mem_subs.mpr ⟨row, hd⟩)
      · exact hg.subs_made e (Code.mem_subs.mpr ⟨row, he⟩)
      · exact haf.sub hd
      · exact hag.sub he
      · exact hn.sub hd he
      · exact hdigest.symm

end Frozen

/-- The bytes of a code say what it is made of, and the digest of a frozen code does so for all
codes inside it, unless bytes collide. That takes graphs whose connections can be counted and
numbered, as those between end points that exist always can. -/
theorem preimage_identifies :
    (∀ c c' : Code, c.graph.Addressable → c'.graph.Addressable →
      (c.preimage = c'.preimage ↔ c.kind = c'.kind ∧ c.graph.rows = c'.graph.rows ∧
        c.graph.wires = c'.graph.wires ∧
          ∀ row, (c.sub? row).map Frozen.digest = (c'.sub? row).map Frozen.digest)) ∧
    (∀ f g : Frozen, f.Made → g.Made → f.Addressable → g.Addressable → f.NoCollision g →
      f.digest = g.digest →
        ∀ path, (f.inner? path).map Frozen.graph = (g.inner? path).map Frozen.graph) ∧
    ∀ g : Graph, g.Anchored → g.Addressable := by
  refine ⟨?_, ?_, fun _ hg => hg.addressable⟩
  · intro c c' hc hc'
    rw [Code.preimage_eq_iff hc hc', Graph.ext_iff, and_assoc, and_assoc, Code.kind, Code.kind]
  · intro f g hf hg haf hag hn h path
    exact Frozen.inner?_eq_of_digest_eq hf hg haf hag hn h path

theorem codon_addressable : (Frozen.codon (.single 3) (.single 3)).Addressable :=
  Frozen.addressable_of_subs (Graph.addressable_of_toList (by decide +kernel) (by decide +kernel))
    nofun

theorem chain_addressable (serial : Nat) : (Code.chain.freeze serial).Addressable := by
  apply Frozen.addressable_of_subs
  · show Code.chain.graph.reorder.Addressable
    exact Graph.addressable_of_toList (by decide +kernel) (by decide +kernel)
  · intro d hd
    rcases List.mem_cons.mp hd with rfl | hd
    · exact codon_addressable
    · rw [List.mem_singleton.mp hd]
      exact codon_addressable

theorem chain_made_at (serial : Nat) : (Code.chain.freeze serial).Made :=
  .freeze _ _ (pair_subs_made (.single 3) (.single 3) (codon_made (.single 3) (.single 3))
    (codon_made (.single 3) (.single 3)))

theorem chain_noCollision (n m : Nat) :
    (Code.chain.freeze n).NoCollision (Code.chain.freeze m) := by
  intro path d e hd he _
  cases path with
  | nil =>
    obtain rfl := Option.some.inj hd
    obtain rfl := Option.some.inj he
    rfl
  | cons row path =>
    obtain rfl : d = e := Option.some.inj (hd.symm.trans he)
    rfl

/-- A chain is not written like one of its codons; it is the same whenever it is frozen. -/
theorem preimage_identifies_chain :
    Code.chain.preimage ≠ (Code.codon (.single 3) (.single 3)).preimage ∧
      ∀ path, ((Code.chain.freeze 0).inner? path).map Frozen.graph =
        ((Code.chain.freeze 7).inner? path).map Frozen.graph := by
  constructor
  · intro h
    have hchain : Code.chain.graph.Addressable :=
      Graph.addressable_of_toList (by decide +kernel) (by decide +kernel)
    have hcodon : (Code.codon (.single 3) (.single 3)).graph.Addressable :=
      Graph.addressable_of_toList (by decide +kernel) (by decide +kernel)
    have hkind := ((preimage_identifies.1 _ _ hchain hcodon).mp h).1
    revert hkind
    decide +kernel
  · intro path
    exact preimage_identifies.2.1 _ _ (chain_made_at 0) (chain_made_at 7) (chain_addressable 0)
      (chain_addressable 7) (chain_noCollision 0 7) rfl path

end GeneGraph
