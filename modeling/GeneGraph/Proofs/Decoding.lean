import GeneGraph.Proofs.Reading

/-!
# What can be decoded

Names of rows and kinds, lists of identifiers and entries of documents, each with what is decoded
from it. A list of identifiers is decoded if it is the flat form of a type and all of them are
registered (`Registry.decode_eq_ok_iff`).
-/

namespace GeneGraph

/-! ## Names -/

theorem Row.named_eq_ok_iff {name : String} {row : Row} :
    Row.named name = .ok row ↔ name = row.text := by
  constructor
  · intro h
    unfold Row.named at h
    split at h
    · rename_i hrow
      cases h
      have htext := List.find?_some (show Row.all.find? _ = some row from hrow)
      exact (of_decide_eq_true htext).symm
    · cases h
  · rintro rfl
    exact row.named_text

theorem GraphKind.named_eq_ok_iff {name : String} {k : GraphKind} :
    GraphKind.named name = .ok k ↔ name = k.text := by
  constructor
  · intro h
    unfold GraphKind.named at h
    split at h
    · rename_i hk
      cases h
      have htext := List.find?_some (show GraphKind.all.find? _ = some k from hk)
      exact (of_decide_eq_true htext).symm
    · cases h
  · rintro rfl
    exact k.named_text

/-! ## Types -/

namespace Ept

variable {us rest : List TypeUid} {es es' : List Ept} {e : Ept} {n : Nat}

theorem gather_eq_some {u : TypeUid} (h : gather u es = some es') :
    ∃ args rest, es = List.ofFn args ++ rest ∧ es' = node u args :: rest := by
  unfold gather at h
  split at h
  · rename_i hle
    cases h
    refine ⟨_, _, ?_, rfl⟩
    have htake : List.ofFn (fun i : Fin u.arity => es[i]) = es.take u.arity := by
      apply List.ext_getElem
      · simp [hle]
      · intro k hk hk'
        simp
    rw [htake, List.take_append_drop]
  · cases h

/-- The trees that are read are those of which the front of the list is the flat form. -/
theorem eq_of_read (h : read n us = some (es, rest)) :
    es.length = n ∧ us = (es.map flat).flatten ++ rest := by
  induction us generalizing n es rest with
  | nil =>
    cases n with
    | zero =>
      cases h
      exact ⟨rfl, rfl⟩
    | succ n => cases h
  | cons u us ih =>
    cases n with
    | zero =>
      cases h
      exact ⟨rfl, rfl⟩
    | succ n =>
      rw [read] at h
      split at h
      · cases h
      · rename_i l rest' hread
        obtain ⟨l', hgather, hl⟩ := Option.map_eq_some_iff.mp h
        cases hl
        obtain ⟨args, l₂, rfl, rfl⟩ := gather_eq_some hgather
        obtain ⟨hlength, rfl⟩ := ih hread
        rw [List.length_append, List.length_ofFn] at hlength
        refine ⟨?_, ?_⟩
        · rw [List.length_cons]
          omega
        · rw [List.map_append, List.flatten_append, List.map_ofFn, List.map_cons,
            List.flatten_cons, flat, List.append_assoc, List.append_assoc, List.cons_append]
          rfl

theorem eq_of_readOne (h : readOne us = some (e, rest)) : us = e.flat ++ rest := by
  unfold readOne at h
  split at h
  · rename_i l rest' hread
    cases h
    obtain ⟨hlength, hus⟩ := eq_of_read hread
    obtain rfl : l = [] := List.length_eq_zero_iff.mp (Nat.succ.inj hlength)
    rw [hus, List.map_singleton, List.flatten_singleton]
  · cases h

end Ept

namespace Registry

variable {r : Registry} {us : List TypeUid} {e : Ept}

theorem checkAll_eq_ok_iff : r.checkAll us = .ok () ↔ ∀ u ∈ us, r.contains u = true := by
  refine ⟨fun h => ?_, checkAll_eq_ok⟩
  induction us with
  | nil => exact fun u hu => absurd hu List.not_mem_nil
  | cons u us ih =>
    rw [checkAll] at h
    split at h
    · exact List.forall_mem_cons.mpr ⟨‹_›, ih h⟩
    · cases h

/-- Exactly the flat forms of registered types are decoded. -/
theorem decode_eq_ok_iff :
    r.decode us = .ok e ↔ us = e.flat ∧ ∀ u ∈ us, r.contains u = true := by
  constructor
  · intro h
    unfold decode at h
    obtain ⟨⟨e', rest⟩, hfirst, h⟩ := bind_eq_ok.mp h
    unfold decodeFirst at hfirst
    split at hfirst
    · cases hfirst
    · rename_i e'' rest' hread
      obtain ⟨⟨⟩, hcheck, hfirst⟩ := bind_eq_ok.mp hfirst
      cases hfirst
      simp only at h
      split at h
      · rename_i hrest
        cases h
        have hus := Ept.eq_of_readOne hread
        rw [List.length_eq_zero_iff.mp hrest, List.append_nil] at hus
        exact ⟨hus, hus ▸ checkAll_eq_ok_iff.mp hcheck⟩
      · cases h
  · rintro ⟨rfl, h⟩
    exact decode_flat h

end Registry

/-! ## Entries -/

namespace PointRecord

variable {r : Registry} {p : PointRecord} {e e' : Ept} {src src' : EndPoint}

/-- The identifiers of the entry are all registered and those of one type. -/
def HasType (r : Registry) (p : PointRecord) (e : Ept) : Prop :=
  p.uids = e.flat ∧ ∀ u ∈ p.uids, r.contains u = true

/-- The entry gives row and index of a source. -/
def Names (p : PointRecord) (src : EndPoint) : Prop :=
  p.row = some src.row.text ∧ p.index = some src.index

instance (p : PointRecord) (src : EndPoint) : Decidable (p.Names src) :=
  inferInstanceAs (Decidable (_ ∧ _))

/-- The entry has a type, and either names a source or gives neither row nor index of one. -/
def WellFormed (r : Registry) (p : PointRecord) : Prop :=
  (∃ e, p.HasType r e) ∧ ((p.row = none ∧ p.index = none) ∨ ∃ src, p.Names src)

theorem HasType.unique (h : p.HasType r e) (h' : p.HasType r e') : e = e' :=
  Ept.flat_injective (h.1.symm.trans h'.1)

theorem Names.unique (h : p.Names src) (h' : p.Names src') : src = src' :=
  EndPoint.ext (Row.text_injective (Option.some.inj (h.1.symm.trans h'.1)))
    (Option.some.inj (h.2.symm.trans h'.2))

theorem ept_eq_ok_iff : p.ept r = .ok e ↔ p.HasType r e := by
  unfold HasType ept
  rw [← Registry.decode_eq_ok_iff]
  cases r.decode p.uids <;> simp [Except.mapError]

theorem source?_eq_some_iff : p.source? = .ok (some src) ↔ p.Names src := by
  constructor
  · intro h
    unfold source? at h
    split at h
    · rename_i name k hname hk
      obtain ⟨row', hrow, h⟩ := bind_eq_ok.mp h
      cases h
      exact ⟨by rw [hname, Row.named_eq_ok_iff.mp hrow], hk⟩
    · cases h
    · cases h
  · rintro ⟨hrow, hindex⟩
    unfold source?
    simp only [hrow, hindex, Row.named_text]
    rfl

theorem source?_eq_none_iff : p.source? = .ok none ↔ p.row = none ∧ p.index = none := by
  constructor
  · intro h
    unfold source? at h
    split at h
    · obtain ⟨row', hrow, h⟩ := bind_eq_ok.mp h
      cases h
    · exact ⟨‹_›, ‹_›⟩
    · cases h
  · rintro ⟨hrow, hindex⟩
    unfold source?
    simp only [hrow, hindex]

/-- A well-formed entry can be read. -/
theorem WellFormed.source?_ok (h : p.WellFormed r) : ∃ source, p.source? = .ok source := by
  rcases h.2 with hnone | ⟨src, hsrc⟩
  · exact ⟨none, source?_eq_none_iff.mpr hnone⟩
  · exact ⟨some src, source?_eq_some_iff.mpr hsrc⟩

theorem wellFormed_of_ok {source : Option EndPoint} (he : p.ept r = .ok e)
    (hsource : p.source? = .ok source) : p.WellFormed r := by
  refine ⟨⟨e, ept_eq_ok_iff.mp he⟩, ?_⟩
  cases source with
  | none => exact Or.inl (source?_eq_none_iff.mp hsource)
  | some src => exact Or.inr ⟨src, source?_eq_some_iff.mp hsource⟩

end PointRecord

end GeneGraph
