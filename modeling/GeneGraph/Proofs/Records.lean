import GeneGraph.Graph.Document
import GeneGraph.Proofs.JsonText
import GeneGraph.Proofs.Maps
import GeneGraph.Proofs.Steps

/-!
# Records are read back

What is written for an identifier, an entry or a document is read back as it is: the word of an
identifier tells its fields, a list is read item by item, and the keys of a map come in their
order. A number has to be a machine integer (`PointRecord.Writable`).

`GraphRecord.ofText?_toText` puts this together with the reading of JSON texts.
-/

namespace GeneGraph

theorem Json.asInt?_nat {n : Nat} {lo hi : Int} (hlo : lo ≤ n) (hhi : n ≤ hi) :
    (nat n).asInt? lo hi = some (n : Int) := if_pos ⟨hlo, hhi⟩

/-! ## Identifiers -/

namespace TypeUid

theorem toNat_word (u : TypeUid) : u.word.toNat = u.number := by
  have hlt := u.number_lt
  unfold word
  rw [UInt32.toNat_ofNat', Nat.mod_eq_of_lt]
  omega

/-- The fields of an identifier can be read off its word. -/
theorem ofWord_word (u : TypeUid) : ofWord u.word = .ok u := by
  unfold ofWord
  simp only [toNat_word]
  obtain ⟨⟨a, ha⟩, role⟩ := u
  cases role with
  | plain inst n =>
    obtain ⟨i, hi⟩ := inst
    obtain ⟨n, hn⟩ := n
    simp only [number_plain]
    rw [if_neg (by omega), if_pos (by omega)]
    simp only [Except.ok.injEq, TypeUid.mk.injEq, TypeRole.plain.injEq, Fin.ext_iff, Fin.ofNat]
    omega
  | wildcard origin =>
    obtain ⟨⟨p, hp⟩, ⟨d, hd⟩⟩ := origin
    simp only [number_wildcard]
    rw [if_neg (by omega), if_neg (by omega), if_pos]
    · simp only [Except.ok.injEq, TypeUid.mk.injEq, TypeRole.wildcard.injEq, Origin.mk.injEq,
        Fin.ext_iff, Fin.ofNat]
      omega
    · simp only [Fin.ext_iff, Fin.ofNat]
      show _ % 8 = 0
      omega

/-- A word without sign is a small number. -/
theorem ofInt_ofNat {n : Nat} (h : n < 0x80000000) : ofInt n = ofWord (UInt32.ofNat n) := by
  have hmod : ((n : Int) % 0x100000000).toNat = n := by omega
  unfold ofInt
  rw [hmod]

theorem ofJson?_toJson (u : TypeUid) : ofJson? u.toJson = some u := by
  have hint : u.toJson.asInt? (-0x80000000) 0x7fffffff = some (u.number : Int) := by
    have hlt := u.number_lt
    unfold toJson
    apply Json.asInt?_nat <;> omega
  unfold ofJson?
  rw [hint, Option.bind_eq_bind, Option.bind_some, ofInt_ofNat u.number_lt]
  exact congrArg Except.toOption u.ofWord_word

end TypeUid

/-! ## Lists -/

namespace Json

theorem asList?_map {α : Type} {f : Json → Option α} {t : α → Json} {l : List α}
    (h : ∀ x ∈ l, f (t x) = some x) : (arr (l.map t)).asList? f = some l :=
  mapM_map_eq_some h

theorem asNat?_nat {n max : Nat} (h : n ≤ max) : (nat n).asNat? max = some n := by
  unfold asNat?
  rw [asInt?_nat (by omega) (by omega), Option.map_some, Int.toNat_natCast]

theorem asEntries?_record (fields : List (String × Json)) :
    (record fields).asEntries? = some fields :=
  mapM_map_eq_some fun _ _ => rfl

theorem allPlain_iff {items : List Json} : allPlain items = true ↔ ∀ j ∈ items, j.plain = true := by
  induction items with
  | nil => simp [allPlain]
  | cons j items ih => simp [allPlain, ih]

theorem plain_arr_map {α : Type} {t : α → Json} {l : List α} (h : ∀ x ∈ l, (t x).plain = true) :
    (arr (l.map t)).plain = true := by
  rw [plain, allPlain_iff]
  intro j hj
  obtain ⟨x, hx, rfl⟩ := List.mem_map.mp hj
  exact h x hx

theorem plain_record {fields : List (String × Json)} (h : ∀ e ∈ fields, e.2.plain = true) :
    (record fields).plain = true := by
  unfold record
  rw [plain]
  induction fields with
  | nil => rfl
  | cons e fields ih =>
    rw [List.map_cons, allFieldsPlain, h e List.mem_cons_self,
      ih fun e' he' => h e' (List.mem_cons_of_mem e he')]
    rfl

theorem plain_nat {n : Nat} (h : n ≤ maxWord) : (nat n).plain = true := by
  unfold maxWord at h
  unfold nat
  rw [plain, decide_eq_true_eq]
  omega

end Json

/-! ## Fields by their names -/

namespace Json

variable {names : List String} {l : List (String × Json)} {f : String → Option Json}
  {key : String}

theorem placeField_map (hnames : names.Nodup) (hkey : f key = none) (v : Json) :
    placeField names (names.map f) key v =
      some (names.map (Function.update f key (some v))) := by
  rw [hnames.map_update]
  unfold placeField
  cases hi : names.idxOf? key with
  | none => rw [if_neg (List.idxOf?_eq_none_iff.mp hi)]
  | some i =>
    obtain ⟨hlt, heq, -⟩ := List.idxOf?_eq_some_iff.mp hi
    have hidx : names.idxOf key = i := by rw [List.idxOf_eq_getD_idxOf?, hi, Option.getD_some]
    have hslot : (names.map f)[i]? = some none := by
      rw [List.getElem?_map, List.getElem?_eq_getElem hlt, heq, Option.map_some, hkey]
    rw [if_pos (heq ▸ List.getElem_mem hlt), hidx]
    simp only [hslot]

theorem foldlM_placeField (hnames : names.Nodup) (hl : (l.map Prod.fst).Nodup)
    (hf : ∀ e ∈ l, f e.1 = none) :
    l.foldlM (fun slots e => placeField names slots e.1 e.2) (names.map f) =
      some (names.map fun n => (l.lookup n).or (f n)) := by
  induction l generalizing f with
  | nil => rfl
  | cons e l ih =>
    obtain ⟨key, v⟩ := e
    obtain ⟨hkey, hl⟩ := List.nodup_cons.mp hl
    have hne : ∀ e ∈ l, e.1 ≠ key := fun e he heq =>
      hkey (List.mem_map.mpr ⟨e, he, heq⟩)
    have hupdate : ∀ e ∈ l, Function.update f key (some v) e.1 = none := by
      intro e he
      rw [Function.update_of_ne (hne e he)]
      exact hf e (List.mem_cons_of_mem _ he)
    rw [List.foldlM_cons, placeField_map hnames (hf _ List.mem_cons_self) v,
      Option.bind_eq_bind, Option.bind_some, ih hl hupdate]
    refine congrArg some (List.map_congr_left fun n _ => ?_)
    by_cases hn : n = key
    · subst hn
      have hlookup : l.lookup n = none :=
        List.lookup_eq_none_iff.mpr fun e he => bne_iff_ne.mpr (hne e he).symm
      rw [Function.update_self, hlookup, SortedMap.lookup_cons_self]
      rfl
    · rw [Function.update_of_ne hn, SortedMap.lookup_cons_of_ne hn]

/-- The fields of a record are what it has under their names. -/
theorem fields?_record (hnames : names.Nodup) (hl : (l.map Prod.fst).Nodup) :
    (record l).fields? names = some (names.map fun n => l.lookup n) := by
  have hfold := foldlM_placeField (f := fun _ => none) hnames hl fun _ _ => rfl
  unfold record fields?
  simp only [List.foldlM_map, Option.bind_some]
  refine hfold.trans (congrArg some (List.map_congr_left fun n _ => ?_))
  exact Option.or_none

end Json

/-! ## Entries and documents -/

namespace PointRecord

variable {p : PointRecord}

/-- The index of the entry is a machine integer. -/
def Writable (p : PointRecord) : Prop := ∀ index, p.index = some index → index ≤ Json.maxWord

theorem ofJson?_toJson (h : p.Writable) : ofJson? p.toJson = some p := by
  obtain ⟨row, index, uids⟩ := p
  have hrow : (row.elim .null Json.text).asOption? Json.asText? = some row := by
    cases row <;> rfl
  have hindex : (index.elim .null Json.nat).asOption? (Json.asNat? Json.maxWord) = some index := by
    cases index with
    | none => rfl
    | some n =>
      show ((Json.nat n).asNat? Json.maxWord).map some = _
      rw [Json.asNat?_nat (h n rfl), Option.map_some]
  have huids : (Json.arr (uids.map TypeUid.toJson)).asList? TypeUid.ofJson? = some uids :=
    Json.asList?_map fun u _ => u.ofJson?_toJson
  unfold ofJson? toJson
  simp only [Json.asList?, List.mapM_cons, List.mapM_nil, Option.bind_eq_bind, Option.bind_some,
    Option.pure_def, hrow, hindex]
  rw [Json.asList?] at huids
  rw [huids]
  rfl

theorem plain_toJson (h : p.Writable) : p.toJson.plain = true := by
  obtain ⟨row, index, uids⟩ := p
  have hrow : (row.elim .null Json.text).plain = true := by cases row <;> rfl
  have hindex : (index.elim .null Json.nat).plain = true := by
    cases index with
    | none => rfl
    | some n => exact Json.plain_nat (h n rfl)
  have huids : (Json.arr (uids.map TypeUid.toJson)).plain = true := by
    apply Json.plain_arr_map
    intro u _
    apply Json.plain_nat
    have := u.number_lt
    unfold Json.maxWord
    omega
  unfold toJson
  rw [Json.plain, Json.allPlain, Json.allPlain, Json.allPlain, Json.allPlain, hrow, hindex, huids]
  rfl

end PointRecord

namespace GraphRecord

variable {doc : GraphRecord}

/-- The indices of all entries are machine integers. -/
def Writable (doc : GraphRecord) : Prop := ∀ e ∈ doc.rows.toList, ∀ p ∈ e.2, p.Writable

theorem ofJson?_toJson (h : doc.Writable) : ofJson? doc.toJson = some doc := by
  obtain ⟨kind, rows⟩ := doc
  have hrows : (rows.toList.map fun e => (e.1, Json.arr (e.2.map PointRecord.toJson))).mapM
      (fun e => (e.2.asList? PointRecord.ofJson?).bind fun ps => some (e.1, ps)) =
        some rows.toList := by
    apply mapM_map_eq_some
    intro e he
    rw [Json.asList?_map fun p hp => PointRecord.ofJson?_toJson (h e he p hp), Option.bind_some]
  have hfields : (toJson ⟨kind, rows⟩).fields? ["graph_type", "rows"] =
      some [some (.text kind), some (.record (rows.toList.map fun e =>
        (e.1, .arr (e.2.map PointRecord.toJson))))] := rfl
  unfold ofJson?
  rw [hfields]
  simp only [Json.text, Json.asText?, Json.asEntries?_record, Option.bind_eq_bind,
    Option.bind_some, Option.pure_def, hrows, SortedMap.ofList_toList]

theorem plain_toJson (h : doc.Writable) : doc.toJson.plain = true := by
  apply Json.plain_record
  intro e he
  rcases List.mem_cons.mp he with rfl | he
  · rfl
  · rw [List.mem_singleton.mp he]
    apply Json.plain_record
    intro e' he'
    obtain ⟨x, hx, rfl⟩ := List.mem_map.mp he'
    exact Json.plain_arr_map fun p hp => PointRecord.plain_toJson (h x hx p hp)

/-- A document is read back from its text. -/
theorem ofText?_toText (h : doc.Writable) :
    Json.ofString? doc.toJson.compact >>= ofJson? = some doc := by
  rw [Json.ofString?_compact (plain_toJson h)]
  exact ofJson?_toJson h

end GraphRecord

end GeneGraph
