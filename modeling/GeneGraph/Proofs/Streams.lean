import GeneGraph.Proofs.Decoding
import GeneGraph.Samples

/-!
# Streams of types

The flat forms of some types, one behind the other, are a stream. Nothing separates them: where
one ends is found by counting the trees that are still to come (`Ept.span`), and this count finds
the ends of all types, of their template types and so on, whatever follows (`Ept.span_stream`).
So a stream is decoded in one way only, and what cannot be decoded is no stream of registered
types (`streams_decode_uniquely`).
-/

namespace GeneGraph

namespace Ept

variable {us rest : List TypeUid} {es : List Ept} {e : Ept} {u : TypeUid} {n k : Nat}

/-! ## Counting the trees to come -/

/-- How many identifiers the first `n` trees of a list have, as every identifier tells how many
trees it adds to those still to come. There is no answer if the list ends before. -/
def span : Nat → List TypeUid → Option Nat
  | 0, _ => some 0
  | _ + 1, [] => none
  | n + 1, u :: us => (span (u.arity + n) us).map (· + 1)

/-- Cuts a list where the count of trees to come is down to none; the last piece takes what is
left if the list ends before. -/
def cut : List TypeUid → List (List TypeUid)
  | [] => []
  | u :: us =>
    let n := (span u.arity us).getD us.length
    (u :: us.take n) :: cut (us.drop n)
termination_by us => us.length
decreasing_by rw [List.length_drop, List.length_cons]; omega

theorem gather_of_le (h : u.arity.val ≤ es.length) : ∃ es', gather u es = some es' :=
  ⟨_, dif_pos h⟩

/-- Trees end where they end for a reader that builds them, in any list. -/
theorem span_eq (n : Nat) (us : List TypeUid) :
    span n us = (read n us).map fun x => us.length - x.2.length := by
  induction us generalizing n with
  | nil => cases n <;> rfl
  | cons u us ih =>
    cases n with
    | zero => simp [span, read]
    | succ n =>
      rw [span, ih, read]
      cases hread : read (u.arity + n) us with
      | none => rfl
      | some x =>
        obtain ⟨es, rest⟩ := x
        have hlength := (eq_of_read hread).1
        have hrest := length_rest_of_read hread
        have hle : u.arity.val ≤ es.length := by omega
        obtain ⟨es', hes⟩ := gather_of_le hle
        simp only [hes, Option.map_some, List.length_cons, Option.some.injEq]
        omega

/-- Types are read one after the other, whatever follows. -/
theorem read_stream (l : List Ept) (us : List TypeUid) :
    read l.length (encodeSequence l ++ us) = some (l, us) := by
  have hnone : read 0 us = some ([], us) := by cases us <;> rfl
  have h := read_flatten_append (l := l) (fun e _ => e.read_flat_append) hnone
  rwa [List.append_nil] at h

/-- The count finds the end of every stream, whatever follows. -/
theorem span_stream (l : List Ept) (us : List TypeUid) :
    span l.length (encodeSequence l ++ us) = some (encodeSequence l).length := by
  rw [span_eq, read_stream, Option.map_some, List.length_append, Nat.add_sub_cancel]

theorem span_readOne (us : List TypeUid) :
    span 1 us = (readOne us).map fun x => us.length - x.2.length := by
  rw [span_eq, readOne]
  cases hread : read 1 us with
  | none => rfl
  | some x =>
    obtain ⟨es, rest⟩ := x
    obtain ⟨e, rfl⟩ := List.length_eq_one_iff.mp (eq_of_read hread).1
    rfl

theorem encodeSequence_cons (e : Ept) (l : List Ept) :
    encodeSequence (e :: l) = e.flat ++ encodeSequence l := rfl

theorem flat_eq (e : Ept) : e.flat = e.head :: encodeSequence e.args := by
  cases e with
  | node h args =>
    rw [flat, head, encodeSequence, Ept.args, List.map_ofFn]
    rfl

theorem ofFlat_flat (e : Ept) : ofFlat e.flat = .ok e := by
  have hread := readOne_flat_append e []
  rw [List.append_nil] at hread
  rw [ofFlat, hread]

/-- A stream is cut into the types that it was made from. -/
theorem cut_stream (l : List Ept) : cut (encodeSequence l) = l.map flat := by
  induction l with
  | nil => rw [encodeSequence, List.map_nil, List.flatten_nil, cut]
  | cons e l ih =>
    have hargs : e.args.length = e.head.arity := List.length_ofFn
    have hspan := span_stream e.args (encodeSequence l)
    rw [hargs] at hspan
    rw [encodeSequence_cons, flat_eq, List.cons_append, cut, hspan, Option.getD_some,
      List.take_left, List.drop_left, ih, List.map_cons, flat_eq]

theorem encodeSequence_injective : Function.Injective encodeSequence := by
  intro l l' h
  have hcut := cut_stream l
  rw [h, cut_stream] at hcut
  exact (List.map_inj_right fun _ _ => flat_injective).mp hcut.symm

/-- A type is built from a head and its template types, and from no others. -/
theorem ofArgs_eq_ok_iff : ofArgs u es = .ok e ↔ e.head = u ∧ e.args = es := by
  unfold ofArgs
  constructor
  · intro h
    split at h
    · rename_i hlength
      cases h
      refine ⟨rfl, List.ext_getElem ?_ fun k _ _ => ?_⟩
      · rw [args, List.length_ofFn, head, hlength]
      · exact List.getElem_ofFn ..
    · cases h
  · rintro ⟨rfl, rfl⟩
    have hlength : e.args.length = e.head.arity := List.length_ofFn
    rw [dif_pos hlength]
    cases e with
    | node h args =>
      congr 2
      funext i
      exact List.getElem_ofFn ..

/-- No type ends inside the flat form of another. -/
theorem readOne_take (h : k < e.length) : readOne (e.flat.take k) = none := by
  cases hread : readOne (e.flat.take k) with
  | none => rfl
  | some x =>
    obtain ⟨d, rest⟩ := x
    have hflat := eq_of_readOne hread
    have hd := readOne_flat_append d (rest ++ e.flat.drop k)
    have he := readOne_flat_append e []
    rw [← List.append_assoc, ← hflat, List.take_append_drop] at hd
    rw [List.append_nil, hd, Option.some.injEq, Prod.mk.injEq] at he
    have hdrop := congrArg List.length (List.append_eq_nil_iff.mp he.2).2
    rw [List.length_drop, List.length_nil] at hdrop
    unfold length at h
    omega

theorem length_take_flat (h : k < e.length) : (e.flat.take k).length = k :=
  List.length_take_of_le (Nat.le_of_lt h)

end Ept

namespace Registry

variable {r : Registry} {us rest : List TypeUid} {es : List Ept} {e : Ept} {k : Nat}

/-! ## Decoding streams -/

theorem eq_of_decodeSequence (h : r.decodeSequence us = .ok es) :
    Ept.encodeSequence es = us ∧ ∀ u ∈ us, r.contains u = true := by
  fun_induction decodeSequence r us generalizing es with
  | case1 =>
    cases h
    exact ⟨rfl, nofun⟩
  | case2 u us hread => cases h
  | case3 u us e rest hread ih =>
    obtain ⟨⟨⟩, hcheck, h⟩ := bind_eq_ok.mp h
    obtain ⟨es', hrest, h⟩ := bind_eq_ok.mp h
    cases h
    obtain ⟨rfl, hknown⟩ := ih hrest
    rw [Ept.eq_of_readOne hread, Ept.encodeSequence_cons]
    refine ⟨rfl, fun u hu => ?_⟩
    rcases List.mem_append.mp hu with hu | hu
    · exact checkAll_eq_ok_iff.mp hcheck u hu
    · exact hknown u hu

/-- The first type of a stream is taken off, whatever follows. -/
theorem decodeSequence_flat_append (he : ∀ u ∈ e.flat, r.contains u = true)
    (hrest : r.decodeSequence rest = .ok es) :
    r.decodeSequence (e.flat ++ rest) = .ok (e :: es) := by
  have hread := Ept.readOne_flat_append e rest
  rw [Ept.flat_eq, List.cons_append] at hread ⊢
  rw [decodeSequence]
  split
  · rename_i hnone
    rw [hread] at hnone
    cases hnone
  · rename_i e' rest' hsome
    rw [hread, Option.some.injEq, Prod.mk.injEq] at hsome
    obtain ⟨rfl, rfl⟩ := hsome
    rw [check, checkAll_eq_ok he, hrest]
    rfl

theorem decodeSequence_eq_ok_iff : r.decodeSequence us = .ok es ↔
    Ept.encodeSequence es = us ∧ ∀ u ∈ us, r.contains u = true := by
  refine ⟨eq_of_decodeSequence, ?_⟩
  rintro ⟨rfl, h⟩
  induction es with
  | nil =>
    rw [Ept.encodeSequence, List.map_nil, List.flatten_nil, decodeSequence]
  | cons e es ih =>
    rw [Ept.encodeSequence_cons] at h ⊢
    exact decodeSequence_flat_append (fun u hu => h u (List.mem_append_left _ hu))
      (ih fun u hu => h u (List.mem_append_right _ hu))

/-- A beginning of a flat form is complained of as such, be it registered or not. -/
theorem decodeFirst_take (h : k < e.length) :
    r.decodeFirst (e.flat.take k) = .error (.badEpt (.truncated k)) := by
  rw [decodeFirst, Ept.readOne_take h]
  show Except.error (TypeError.badEpt (.truncated (e.flat.take k).length)) = _
  rw [Ept.length_take_flat h]

end Registry

/-- Exactly the streams of registered types are decoded, to the types that they were made from; no
beginning of a type is one; the count of trees to come finds the end of a type in any list if
there is one; and a type is cut into its template types, from which it can be built again. -/
theorem streams_decode_uniquely (r : Registry) :
    (∀ us es, r.decodeSequence us = .ok es ↔
      Ept.encodeSequence es = us ∧ ∀ u ∈ us, r.contains u = true) ∧
    (∀ us e, r.decode us = .ok e ↔ e.flat = us ∧ ∀ u ∈ us, r.contains u = true) ∧
    Function.Injective Ept.encodeSequence ∧
    (∀ (e : Ept) k, k < e.length →
      r.decode (e.flat.take k) = .error (.badEpt (.truncated k)) ∧
      r.decodePrefix (e.flat.take k) = .error (.badEpt (.truncated k)) ∧
      Ept.ofFlat (e.flat.take k) = .error (.truncated k)) ∧
    (∀ us, Ept.span 1 us = (Ept.readOne us).map fun x => us.length - x.2.length) ∧
    (∀ (e : Ept) us, Ept.span 1 (e.flat ++ us) = some e.length) ∧
    ∀ e : Ept, Ept.cut e.flat.tail = e.args.map Ept.flat ∧
      ∀ u es, Ept.ofArgs u es = .ok e ↔ e.head = u ∧ e.args = es := by
  refine ⟨fun us es => Registry.decodeSequence_eq_ok_iff, fun us e => ?_,
    Ept.encodeSequence_injective, fun e k hk => ⟨?_, ?_, ?_⟩, Ept.span_readOne, fun e us => ?_,
    fun e => ⟨?_, fun u es => Ept.ofArgs_eq_ok_iff⟩⟩
  · rw [Registry.decode_eq_ok_iff, eq_comm]
  · rw [Registry.decode, Registry.decodeFirst_take hk]
    rfl
  · rw [Registry.decodePrefix, Registry.decodeFirst_take hk]
    rfl
  · rw [Ept.ofFlat, Ept.readOne_take hk]
    exact congrArg _ (congrArg _ (Ept.length_take_flat hk))
  · rw [Ept.span_readOne, Ept.readOne_flat_append, Option.map_some, List.length_append,
      Nat.add_sub_cancel]
    rfl
  · rw [Ept.flat_eq, List.tail_cons, Ept.cut_stream]

/-- Lists of integers under texts. -/
def Ept.table : Ept :=
  .node ⟨2, .plain 0 8⟩ fun i =>
    if i.val = 0 then .plain 0 5 else .node ⟨1, .plain 0 7⟩ fun _ => .plain 0 3

theorem streams_decode_uniquely_table :
    2 < Ept.table.length ∧
      sampleRegistry.decode (Ept.table.flat.take 2) = .error (.badEpt (.truncated 2)) ∧
      sampleRegistry.decodeSequence (Ept.table.flat ++ (Ept.plain 0 3).flat) =
        .ok [Ept.table, Ept.plain 0 3] := by
  have hlt : 2 < Ept.table.length := by decide +kernel
  obtain ⟨hsequence, -, -, htake, -⟩ := streams_decode_uniquely sampleRegistry
  exact ⟨hlt, (htake Ept.table 2 hlt).1, (hsequence _ _).mpr ⟨rfl, by decide +kernel⟩⟩

end GeneGraph
