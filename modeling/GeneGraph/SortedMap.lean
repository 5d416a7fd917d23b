/-!
# Sorted maps

A type with a `SortKey` is ordered by a list of numbers that tells its values apart. A
`SortedMap` keeps its entries strictly ascending in that order, so a map has one form only:
`SortedMap.ext` says that maps which answer every look-up alike are equal.

`get?_insert`, `get?_erase` and `get?_filter` say what each operation does to the look-ups.
-/

namespace GeneGraph

/-- Values that are told apart, and ordered, by a list of numbers. -/
class SortKey (α : Type) where
  /-- The numbers compared, first number first. -/
  sortKey : α → List Nat
  sortKey_injective : ∀ {a b : α}, sortKey a = sortKey b → a = b

export SortKey (sortKey sortKey_injective)

theorem SortedMap.lookup_cons_of_ne {κ ν : Type} [DecidableEq κ] {k : κ} {e : κ × ν}
    {rest : List (κ × ν)} (h : k ≠ e.1) :
    (e :: rest).lookup k = rest.lookup k := by
  rw [List.lookup_cons, beq_eq_false_iff_ne.mpr h]

theorem SortedMap.lookup_cons_self {κ ν : Type} [DecidableEq κ] (k : κ) (v : ν)
    (rest : List (κ × ν)) :
    ((k, v) :: rest).lookup k = some v := by
  rw [List.lookup_cons, beq_self_eq_true]

variable {κ ν : Type} [SortKey κ]

instance : SortKey Nat := ⟨fun n => [n], fun h => List.head_eq_of_cons_eq h⟩

instance : SortKey String :=
  ⟨fun s => s.toList.map Char.toNat, fun h =>
    String.toList_injective ((List.map_inj_right fun _ _ h => Char.toNat_inj.mp h).mp h)⟩

/-- `a` comes before `b`. -/
def Before {α : Type} [SortKey α] (a b : α) : Prop := sortKey a < sortKey b

instance {α : Type} [SortKey α] (a b : α) : Decidable (Before a b) :=
  inferInstanceAs (Decidable (sortKey a < sortKey b))

theorem Before.irrefl (a : κ) : ¬ Before a a := List.lt_irrefl _

theorem Before.trans {a b c : κ} (h : Before a b) (h' : Before b c) : Before a c :=
  List.lt_trans h h'

theorem Before.ne {a b : κ} (h : Before a b) : a ≠ b := fun e => Before.irrefl a (e ▸ h)

theorem Before.asymm {a b : κ} (h : Before a b) : ¬ Before b a := List.lt_asymm h

theorem eq_of_not_before {a b : κ} (h : ¬ Before a b) (h' : ¬ Before b a) : a = b :=
  sortKey_injective (List.le_antisymm (List.not_lt.mp h') (List.not_lt.mp h))

/-- Entries strictly ascending by key. -/
structure SortedMap (κ ν : Type) [SortKey κ] where
  /-- The entries, least key first. -/
  toList : List (κ × ν)
  ascending : toList.Pairwise fun x y => Before x.1 y.1

namespace SortedMap

/-! ## Entry lists -/

/-- Writes one entry into an ascending list, replacing the entry of an equal key. -/
def insertEntry (k : κ) (v : ν) : List (κ × ν) → List (κ × ν)
  | [] => [(k, v)]
  | e :: rest =>
    if Before k e.1 then (k, v) :: e :: rest
    else if Before e.1 k then e :: insertEntry k v rest
    else (k, v) :: rest

theorem mem_insertEntry {k : κ} {v : ν} {l : List (κ × ν)} {e : κ × ν}
    (h : e ∈ insertEntry k v l) : e = (k, v) ∨ e ∈ l := by
  induction l with
  | nil => exact Or.inl (List.mem_singleton.mp h)
  | cons a rest ih =>
    simp only [insertEntry] at h
    split at h
    · rcases List.mem_cons.mp h with h | h
      · exact Or.inl h
      · exact Or.inr h
    · split at h
      · rcases List.mem_cons.mp h with h | h
        · exact Or.inr (h ▸ List.mem_cons_self)
        · exact (ih h).imp_right (List.mem_cons_of_mem _)
      · rcases List.mem_cons.mp h with h | h
        · exact Or.inl h
        · exact Or.inr (List.mem_cons_of_mem _ h)

theorem insertEntry_ascending (k : κ) (v : ν) {l : List (κ × ν)}
    (h : l.Pairwise fun x y => Before x.1 y.1) :
    (insertEntry k v l).Pairwise fun x y => Before x.1 y.1 := by
  induction l with
  | nil => exact List.pairwise_singleton _ _
  | cons a rest ih =>
    obtain ⟨ha, hr⟩ := List.pairwise_cons.mp h
    simp only [insertEntry]
    split
    · rename_i hk
      exact List.pairwise_cons.mpr ⟨fun e he => by
        rcases List.mem_cons.mp he with he | he
        · exact he ▸ hk
        · exact hk.trans (ha e he), h⟩
    · split
      · rename_i hk
        refine List.pairwise_cons.mpr ⟨fun e he => ?_, ih hr⟩
        rcases mem_insertEntry he with he | he
        · exact he ▸ hk
        · exact ha e he
      · rename_i h₁ h₂
        have e : k = a.1 := eq_of_not_before h₁ h₂
        exact List.pairwise_cons.mpr ⟨fun x hx => e ▸ ha x hx, hr⟩

/-! ## Operations -/

def empty : SortedMap κ ν := ⟨[], List.Pairwise.nil⟩

instance : EmptyCollection (SortedMap κ ν) := ⟨empty⟩

instance : Inhabited (SortedMap κ ν) := ⟨empty⟩

def insert (m : SortedMap κ ν) (k : κ) (v : ν) : SortedMap κ ν :=
  ⟨insertEntry k v m.toList, insertEntry_ascending k v m.ascending⟩

/-- Keeps the entries for which `p` holds. -/
def filter (m : SortedMap κ ν) (p : κ → ν → Bool) : SortedMap κ ν :=
  ⟨m.toList.filter fun e => p e.1 e.2, m.ascending.filter _⟩

/-- Writes the entries of `l` in turn, so that the last entry of a key stays. -/
def ofList (l : List (κ × ν)) : SortedMap κ ν := l.foldl (fun m e => m.insert e.1 e.2) empty

/-- Writes the entries of `l` over those of `m`. -/
def insertAll (m : SortedMap κ ν) (l : List (κ × ν)) : SortedMap κ ν :=
  l.foldl (fun m e => m.insert e.1 e.2) m

/-- The keys, ascending. -/
def keys (m : SortedMap κ ν) : List κ := m.toList.map Prod.fst

def size (m : SortedMap κ ν) : Nat := m.toList.length

theorem toList_inj {m m' : SortedMap κ ν} (h : m.toList = m'.toList) : m = m' := by
  cases m; cases m'; cases h; rfl

variable [DecidableEq κ]

def get? (m : SortedMap κ ν) (k : κ) : Option ν := m.toList.lookup k

def contains (m : SortedMap κ ν) (k : κ) : Bool := (m.get? k).isSome

def erase (m : SortedMap κ ν) (k : κ) : SortedMap κ ν := m.filter fun k' _ => k' ≠ k

/-! ## Look-ups -/

theorem lookup_eq_some_iff {l : List (κ × ν)} (h : l.Pairwise fun x y => Before x.1 y.1)
    {k : κ} {v : ν} : l.lookup k = some v ↔ (k, v) ∈ l := by
  induction l with
  | nil => simp
  | cons a rest ih =>
    obtain ⟨ha, hr⟩ := List.pairwise_cons.mp h
    obtain ⟨k', v'⟩ := a
    by_cases e : k = k'
    · subst e
      simp only [lookup_cons_self, List.mem_cons, Prod.mk.injEq, true_and]
      refine ⟨fun h => Or.inl (Option.some.inj h).symm, fun h => ?_⟩
      rcases h with h | h
      · exact h ▸ rfl
      · exact absurd (ha _ h) (Before.irrefl _)
    · rw [lookup_cons_of_ne e, ih hr]
      simp [e]

theorem get?_eq_some_iff {m : SortedMap κ ν} {k : κ} {v : ν} :
    m.get? k = some v ↔ (k, v) ∈ m.toList := lookup_eq_some_iff m.ascending

/-- Maps that answer every look-up alike are equal. -/
theorem ext {m m' : SortedMap κ ν} (h : ∀ k, m.get? k = m'.get? k) : m = m' := by
  have mem : ∀ e, e ∈ m.toList ↔ e ∈ m'.toList := fun e => by
    rw [← get?_eq_some_iff (m := m) (k := e.1) (v := e.2), h, get?_eq_some_iff]
  have perm : m.toList.Perm m'.toList := by
    refine (List.perm_ext_iff_of_nodup ?_ ?_).mpr mem
    · exact m.ascending.imp fun h e => Before.ne h (congrArg Prod.fst e)
    · exact m'.ascending.imp fun h e => Before.ne h (congrArg Prod.fst e)
  refine toList_inj (perm.eq_of_pairwise (fun a b _ _ h h' => ?_) m.ascending m'.ascending)
  exact absurd h' (Before.asymm h)

theorem lookup_insertEntry (k k' : κ) (v : ν) (l : List (κ × ν)) :
    (insertEntry k v l).lookup k' = if k' = k then some v else l.lookup k' := by
  induction l with
  | nil =>
    by_cases e : k' = k
    · rw [if_pos e, e]; exact lookup_cons_self k v []
    · rw [if_neg e]; exact lookup_cons_of_ne e
  | cons a rest ih =>
    simp only [insertEntry]
    split
    · by_cases e : k' = k
      · rw [if_pos e, e, lookup_cons_self]
      · rw [if_neg e, lookup_cons_of_ne e]
    · split
      · rename_i hb
        by_cases e : k' = a.1
        · rw [if_neg (e ▸ Before.ne hb), e]
          exact (lookup_cons_self a.1 a.2 _).trans (lookup_cons_self a.1 a.2 _).symm
        · rw [lookup_cons_of_ne e, ih, lookup_cons_of_ne e]
      · rename_i h₁ h₂
        have hx : k = a.1 := eq_of_not_before h₁ h₂
        by_cases e : k' = k
        · rw [if_pos e, e, lookup_cons_self]
        · rw [if_neg e, lookup_cons_of_ne e, lookup_cons_of_ne (hx ▸ e)]

@[simp] theorem get?_empty (k : κ) : (empty : SortedMap κ ν).get? k = none := rfl

theorem get?_insert (m : SortedMap κ ν) (k k' : κ) (v : ν) :
    (m.insert k v).get? k' = if k' = k then some v else m.get? k' :=
  lookup_insertEntry k k' v m.toList

theorem get?_filter (m : SortedMap κ ν) (p : κ → ν → Bool) (k : κ) :
    (m.filter p).get? k = (m.get? k).filter (p k) := by
  refine Option.ext fun v => ?_
  rw [get?_eq_some_iff, Option.filter_eq_some_iff, get?_eq_some_iff]
  exact List.mem_filter

theorem get?_erase (m : SortedMap κ ν) (k k' : κ) :
    (m.erase k).get? k' = if k' = k then none else m.get? k' := by
  rw [erase, get?_filter]
  by_cases e : k' = k
  · rw [if_pos e]; cases m.get? k' <;> simp [Option.filter, e]
  · rw [if_neg e]; cases m.get? k' <;> simp [Option.filter, e]

instance [DecidableEq ν] : DecidableEq (SortedMap κ ν) := fun a b =>
  if h : a.toList = b.toList then .isTrue (by cases a; cases b; cases h; rfl)
  else .isFalse fun e => h (e ▸ rfl)

end SortedMap

end GeneGraph
