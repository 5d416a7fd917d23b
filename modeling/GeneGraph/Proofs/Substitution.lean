import GeneGraph.Proofs.Sequences
import GeneGraph.Proofs.Streams

/-!
# Wildcards are substituted

`Ept.outermost` lists the wildcards of a type that are not below another one, and `Ept.replace`
puts types in their places, where whatever stood below a wildcard goes with it. `Ept.resolve_eq`
says that resolving a type is this substitution, and that the first wildcard that stands for
nothing is complained of.

On flat forms, resolving is a walk from left to right (`Ept.splice`): an identifier is copied, or
what its origin stands for is written in its place and the walk goes on behind the template types
of the wildcard. `Ept.splice_encodeSequence` says that the walk writes the flat form of the
resolved type, so the result can always be read back.
-/

namespace GeneGraph

namespace Ept

/-- What a wildcard of origin `o` stands for, if there is such an input and it goes so deep. -/
def target? (inputs : List Ept) (o : Origin) : Option Ept :=
  inputs[o.position.val]? >>= descend o.depth

/-- The origins of the wildcards that are not below another one, in pre-order. -/
def outermost : Ept → List Origin
  | .node u args =>
    match u.origin? with
    | some o => [o]
    | none => (List.ofFn fun i => (args i).outermost).flatten

/-- Puts a type in the place of each outermost wildcard and of what stands below it. -/
def replace (σ : Origin → Ept) : Ept → Ept
  | .node u args =>
    match u.origin? with
    | some o => σ o
    | none => .node u fun i => (args i).replace σ

variable {inputs : List Ept} {e t : Ept} {u : TypeUid} {args : Fin u.arity → Ept} {o : Origin}
  {σ σ' : Origin → Ept}

theorem outermost_wildcard (h : u.origin? = some o) : (node u args).outermost = [o] := by
  rw [outermost, h]

theorem outermost_plain (h : u.origin? = none) :
    (node u args).outermost = (List.ofFn fun i => (args i).outermost).flatten := by
  rw [outermost, h]

theorem mem_outermost_plain (h : u.origin? = none) :
    o ∈ (node u args).outermost ↔ ∃ i, o ∈ (args i).outermost := by
  simp [outermost_plain h]

theorem replace_wildcard (h : u.origin? = some o) : (node u args).replace σ = σ o := by
  rw [replace, h]

theorem replace_plain (h : u.origin? = none) :
    (node u args).replace σ = node u fun i => (args i).replace σ := by
  rw [replace, h]

theorem resolve_wildcard (h : u.origin? = some o) :
    (node u args).resolve inputs = ofOrigin inputs o := by
  rw [resolve, h]

theorem resolve_plain (h : u.origin? = none) : (node u args).resolve inputs =
    (traverse fun i => (args i).resolve inputs).map (node u) := by
  rw [resolve, h]
  rfl

/-! ## Substitution -/

theorem ofOrigin_eq (inputs : List Ept) (o : Origin) :
    ofOrigin inputs o = (target? inputs o).elim (.error (.wildcardUnresolved o)) .ok := by
  rw [ofOrigin, ← target?]
  cases target? inputs o <;> rfl

/-- Where each index has an answer or a first fault, so has the whole. -/
theorem traverse_eq {ε α β : Type} {n : Nat} {f : Fin n → Except ε α} {g : Fin n → α}
    {faults : Fin n → List β} {bad : β → Bool} {err : β → ε}
    (h : ∀ i, f i = ((faults i).find? bad).elim (.ok (g i)) fun b => .error (err b)) :
    traverse f =
      ((List.ofFn faults).flatten.find? bad).elim (.ok g) fun b => .error (err b) := by
  induction n with
  | zero =>
    have hg : g = fun i => i.elim0 := funext fun i => i.elim0
    rw [hg]
    rfl
  | succ n ih =>
    have htail := ih fun i => h i.succ
    rw [traverse, h 0, htail, List.ofFn_succ, List.flatten_cons, List.find?_append]
    cases (faults 0).find? bad with
    | some b => rfl
    | none =>
      rw [Option.none_or]
      cases (List.ofFn fun i => faults i.succ).flatten.find? bad with
      | some b => rfl
      | none =>
        have hg : (fun i => i.cases (g 0) fun i => g i.succ : Fin (n + 1) → α) = g := by
          funext i
          exact i.cases rfl fun _ => rfl
        exact congrArg Except.ok hg

/-- Resolving is substitution, unless an outermost wildcard stands for nothing. -/
theorem resolve_eq (hσ : ∀ o t, target? inputs o = some t → σ o = t) (e : Ept) :
    e.resolve inputs = (e.outermost.find? fun o => (target? inputs o).isNone).elim
      (.ok (e.replace σ)) fun o => .error (.wildcardUnresolved o) := by
  induction e with
  | node u args ih =>
    cases hu : u.origin? with
    | some o =>
      rw [resolve_wildcard hu, outermost_wildcard hu, replace_wildcard hu, ofOrigin_eq,
        List.find?_singleton]
      cases ho : target? inputs o with
      | none => rfl
      | some t =>
        rw [hσ o t ho]
        rfl
    | none =>
      rw [resolve_plain hu, outermost_plain hu, replace_plain hu, traverse_eq ih]
      cases List.find? _ _ <;> rfl

/-- Only the types for the outermost wildcards count. -/
theorem replace_congr (h : ∀ o ∈ e.outermost, σ o = σ' o) : e.replace σ = e.replace σ' := by
  induction e with
  | node u args ih =>
    cases hu : u.origin? with
    | some o =>
      rw [replace_wildcard hu, replace_wildcard hu]
      rw [outermost_wildcard hu] at h
      exact h o (List.mem_singleton_self o)
    | none =>
      rw [replace_plain hu, replace_plain hu]
      congr 1
      funext i
      exact ih i fun o ho => h o ((mem_outermost_plain hu).mpr ⟨i, ho⟩)

theorem resolve_eq_ok_iff : e.resolve inputs = .ok t ↔
    ∃ σ, (∀ o ∈ e.outermost, target? inputs o = some (σ o)) ∧ t = e.replace σ := by
  have hσ : ∀ o x, target? inputs o = some x → (target? inputs o).getD e = x := by
    intro o x ho
    rw [ho, Option.getD_some]
  rw [resolve_eq hσ]
  constructor
  · intro h
    cases hfind : e.outermost.find? fun o => (target? inputs o).isNone with
    | some o =>
      rw [hfind] at h
      cases h
    | none =>
      rw [hfind] at h
      cases h
      refine ⟨_, fun o ho => ?_, rfl⟩
      obtain ⟨x, hx⟩ := Option.ne_none_iff_exists'.mp fun hnone =>
        List.find?_eq_none.mp hfind o ho (Option.isNone_iff_eq_none.mpr hnone)
      rw [hx, Option.getD_some]
  · rintro ⟨σ, h, rfl⟩
    have hfind : e.outermost.find? (fun o => (target? inputs o).isNone) = none :=
      List.find?_eq_none.mpr fun o ho => by simp [h o ho]
    rw [hfind]
    exact congrArg _ (replace_congr fun o ho => hσ o _ (h o ho))

theorem resolve_eq_error_iff {err : TypeError} : e.resolve inputs = .error err ↔
    ∃ o, (e.outermost.find? fun o => (target? inputs o).isNone) = some o ∧
      err = .wildcardUnresolved o := by
  have hσ : ∀ o x, target? inputs o = some x → (target? inputs o).getD e = x := by
    intro o x ho
    rw [ho, Option.getD_some]
  rw [resolve_eq hσ]
  cases e.outermost.find? fun o => (target? inputs o).isNone <;> simp [eq_comm]

/-! ## Types without wildcards -/

theorem outermost_eq_nil (h : e.hasWildcard = false) : e.outermost = [] := by
  induction e with
  | node u args ih =>
    obtain ⟨hu, hargs⟩ := hasWildcard_eq_false_iff.mp h
    refine List.eq_nil_iff_forall_not_mem.mpr fun o ho => ?_
    obtain ⟨i, hi⟩ := (mem_outermost_plain hu).mp ho
    rw [ih i (hargs i)] at hi
    cases hi

/-- Nothing is replaced where there is no wildcard. -/
theorem replace_of_outermost_eq_nil (h : e.outermost = []) : e.replace σ = e := by
  induction e with
  | node u args ih =>
    cases hu : u.origin? with
    | some o =>
      rw [outermost_wildcard hu] at h
      cases h
    | none =>
      rw [replace_plain hu]
      congr 1
      funext i
      refine ih i (List.eq_nil_iff_forall_not_mem.mpr fun o ho => ?_)
      have hmem := (mem_outermost_plain hu).mpr ⟨i, ho⟩
      rw [h] at hmem
      cases hmem

theorem resolve_of_hasWildcard_eq_false (h : e.hasWildcard = false) (inputs : List Ept) :
    e.resolve inputs = .ok e := by
  have hnil := outermost_eq_nil h
  refine resolve_eq_ok_iff.mpr ⟨fun _ => e, fun o ho => ?_, (replace_of_outermost_eq_nil hnil).symm⟩
  rw [hnil] at ho
  cases ho

theorem hasWildcard_replace (h : ∀ o ∈ e.outermost, (σ o).hasWildcard = false) :
    (e.replace σ).hasWildcard = false := by
  induction e with
  | node u args ih =>
    cases hu : u.origin? with
    | some o =>
      rw [replace_wildcard hu]
      rw [outermost_wildcard hu] at h
      exact h o (List.mem_singleton_self o)
    | none =>
      rw [replace_plain hu]
      exact hasWildcard_eq_false_iff.mpr
        ⟨hu, fun i => ih i fun o ho => h o ((mem_outermost_plain hu).mpr ⟨i, ho⟩)⟩

theorem hasWildcard_arg (h : e.hasWildcard = false) (i : Fin e.head.arity) :
    (e.arg i).hasWildcard = false := by
  cases e with
  | node u args => exact (hasWildcard_eq_false_iff.mp h).2 i

theorem hasWildcard_descend {n : Nat} (h : e.hasWildcard = false) (ht : descend n e = some t) :
    t.hasWildcard = false := by
  induction n generalizing e with
  | zero =>
    cases ht
    exact h
  | succ n ih =>
    rw [descend] at ht
    split at ht
    · exact ih (hasWildcard_arg h _) ht
    · cases ht

/-- What is resolved with inputs that have no wildcards has none itself. -/
theorem hasWildcard_of_resolve (ht : e.resolve inputs = .ok t)
    (h : ∀ o ∈ e.outermost, ∀ d, inputs[o.position.val]? = some d → d.hasWildcard = false) :
    t.hasWildcard = false := by
  obtain ⟨σ, hσ, rfl⟩ := resolve_eq_ok_iff.mp ht
  refine hasWildcard_replace fun o ho => ?_
  obtain ⟨d, hd, hdescend⟩ := Option.bind_eq_some_iff.mp (hσ o ho)
  exact hasWildcard_descend (h o ho d hd) hdescend

/-! ## Flat forms -/

/-- Goes down `n` times to the first template type of a flat form. -/
def descendFlat : Nat → List TypeUid → Option (List TypeUid)
  | 0, us => some us
  | n + 1, us => (cut us.tail).head? >>= descendFlat n

/-- The flat form of the type that a wildcard of origin `o` stands for. -/
def flatOrigin (inputs : List Ept) (o : Origin) : Except TypeError (List TypeUid) :=
  match (inputs[o.position.val]?.map flat) >>= descendFlat o.depth with
  | some us => .ok us
  | none => .error (.wildcardUnresolved o)

/-- Copies a flat form from left to right, but writes what a wildcard stands for in the place of
the wildcard and its template types. -/
def splice (inputs : List Ept) : List TypeUid → Except TypeError (List TypeUid)
  | [] => .ok []
  | u :: us =>
    match u.origin? with
    | some o => do
      let piece ← flatOrigin inputs o
      let rest ← splice inputs (us.drop ((span u.arity us).getD us.length))
      return piece ++ rest
    | none => do
      let rest ← splice inputs us
      return u :: rest
termination_by us => us.length
decreasing_by
  · rw [List.length_drop, List.length_cons]
    omega
  · exact Nat.lt_succ_self us.length

/-- Resolves a type on its flat form, and reads the result back. -/
def resolveFlat (inputs : List Ept) (e : Ept) : Except TypeError Ept :=
  if e.hasWildcard then do
    let us ← splice inputs e.flat
    (ofFlat us).mapError .badEpt
  else .ok e

theorem head?_args (e : Ept) :
    e.args.head? = if h : 0 < e.head.arity.val then some (e.arg ⟨0, h⟩) else none := by
  rw [List.head?_eq_getElem?, args, List.getElem?_ofFn]

theorem descendFlat_flat (n : Nat) (e : Ept) :
    descendFlat n e.flat = (descend n e).map flat := by
  induction n generalizing e with
  | zero => rfl
  | succ n ih =>
    rw [descendFlat, flat_eq, List.tail_cons, cut_stream, List.head?_map, head?_args, descend]
    split
    · exact ih _
    · rfl

theorem flatOrigin_eq (inputs : List Ept) (o : Origin) :
    flatOrigin inputs o = (ofOrigin inputs o).map flat := by
  have htarget : ((inputs[o.position.val]?.map flat) >>= descendFlat o.depth) =
      (target? inputs o).map flat := by
    rw [target?]
    cases inputs[o.position.val]? with
    | none => rfl
    | some d => exact descendFlat_flat _ d
  rw [flatOrigin, htarget, ofOrigin_eq]
  cases target? inputs o <;> rfl

theorem mapM_ofFn_eq_traverse {ε α β : Type} {n : Nat} (f : α → Except ε β) (args : Fin n → α) :
    (List.ofFn args).mapM f = (traverse fun i => f (args i)).map List.ofFn := by
  induction n with
  | zero => rfl
  | succ n ih =>
    rw [List.ofFn_succ, List.mapM_cons, ih, traverse]
    cases f (args 0) with
    | error err => rfl
    | ok x =>
      cases traverse fun i => f (args i.succ) with
      | error err => rfl
      | ok xs =>
        show Except.ok (x :: List.ofFn xs) = Except.ok (List.ofFn _)
        rw [List.ofFn_succ]
        rfl

theorem encodeSequence_append (l l' : List Ept) :
    encodeSequence (l ++ l') = encodeSequence l ++ encodeSequence l' := by
  rw [encodeSequence, List.map_append, List.flatten_append]
  rfl

/-- A stream begins with the head of its first type and goes on with the template types. -/
theorem encodeSequence_eq_cons {us : List TypeUid} {es : List Ept}
    (h : encodeSequence es = u :: us) : ∃ (args : Fin u.arity → Ept) (es' : List Ept),
      es = node u args :: es' ∧ us = encodeSequence (List.ofFn args) ++ encodeSequence es' := by
  cases es with
  | nil => cases h
  | cons e es' =>
    rw [encodeSequence_cons, flat_eq, List.cons_append, List.cons.injEq] at h
    obtain ⟨rfl, rfl⟩ := h
    cases e with
    | node u args => exact ⟨args, es', rfl, rfl⟩

/-- The walk over types that stand one behind the other resolves each of them. -/
theorem splice_encodeSequence (inputs : List Ept) (es : List Ept) :
    splice inputs (encodeSequence es) = (es.mapM (resolve inputs)).map encodeSequence := by
  generalize hus : encodeSequence es = us
  fun_induction splice inputs us generalizing es with
  | case1 =>
    obtain rfl : es = [] := encodeSequence_injective hus
    rfl
  | case2 u us o hu ih =>
    obtain ⟨args, es', rfl, rfl⟩ := encodeSequence_eq_cons hus
    -- the template types of the wildcard are passed over
    have hspan := span_stream (List.ofFn args) (encodeSequence es')
    rw [List.length_ofFn] at hspan
    rw [hspan, Option.getD_some, List.drop_left] at ih ⊢
    rw [ih es' rfl, flatOrigin_eq, List.mapM_cons, resolve_wildcard hu]
    cases ofOrigin inputs o with
    | error err => rfl
    | ok t => cases es'.mapM (resolve inputs) <;> rfl
  | case3 u us hu ih =>
    obtain ⟨args, es', rfl, rfl⟩ := encodeSequence_eq_cons hus
    -- the template types come before the types that follow
    rw [ih (List.ofFn args ++ es') (encodeSequence_append _ _), List.mapM_append, List.mapM_cons,
      mapM_ofFn_eq_traverse, resolve_plain hu]
    cases traverse fun i => (args i).resolve inputs with
    | error err => rfl
    | ok ts =>
      cases es'.mapM (resolve inputs) with
      | error err => rfl
      | ok ts' =>
        show Except.ok (u :: encodeSequence (List.ofFn ts ++ ts')) =
          Except.ok (encodeSequence (node u ts :: ts'))
        rw [encodeSequence_append, encodeSequence_cons, flat_eq]
        rfl

theorem splice_flat (inputs : List Ept) (e : Ept) :
    splice inputs e.flat = (e.resolve inputs).map flat := by
  have h := splice_encodeSequence inputs [e]
  rw [encodeSequence_cons, show encodeSequence [] = [] from rfl, List.append_nil] at h
  rw [h, List.mapM_cons]
  cases e.resolve inputs with
  | error err => rfl
  | ok t => exact congrArg Except.ok (List.append_nil t.flat)

/-- Resolving on the flat form gives the same, and the result can always be read back. -/
theorem resolveFlat_eq (inputs : List Ept) (e : Ept) :
    resolveFlat inputs e = e.resolve inputs := by
  unfold resolveFlat
  split
  · rw [splice_flat]
    cases e.resolve inputs with
    | error err => rfl
    | ok t => exact congrArg (Except.mapError _) (ofFlat_flat t)
  · rename_i hw
    rw [resolve_of_hasWildcard_eq_false (by simpa using hw)]

/-- A type is resolved to what it becomes when each outermost wildcard, with all that stands below
it, is replaced by what it stands for in the inputs, and this can be done on flat forms. It fails
exactly if an outermost wildcard stands for nothing, and complains of the first one. The result
feeds the type; if no input that it was taken from has wildcards it has none, and resolving it
again changes nothing. -/
theorem resolve_substitutes (r : Registry) (inputs : List Ept) (output : Ept) :
    (∀ t, output.resolve inputs = .ok t ↔ ∃ σ : Origin → Ept,
      (∀ o ∈ output.outermost, target? inputs o = some (σ o)) ∧ t = output.replace σ) ∧
    (∀ err, output.resolve inputs = .error err ↔
      ∃ o, (output.outermost.find? fun o => (target? inputs o).isNone) = some o ∧
        err = .wildcardUnresolved o) ∧
    splice inputs output.flat = (output.resolve inputs).map flat ∧
    resolveFlat inputs output = output.resolve inputs ∧
    ∀ t, output.resolve inputs = .ok t →
      ofFlat t.flat = .ok t ∧ r.isCompatible t output = true ∧
      ((∀ o ∈ output.outermost, ∀ d, inputs[o.position.val]? = some d → d.hasWildcard = false) →
        t.hasWildcard = false ∧ ∀ inputs', t.resolve inputs' = .ok t) := by
  refine ⟨fun t => resolve_eq_ok_iff, fun err => resolve_eq_error_iff, splice_flat inputs output,
    resolveFlat_eq inputs output, fun t ht => ⟨ofFlat_flat t, r.isCompatible_of_resolve ht, ?_⟩⟩
  intro hinputs
  have hw := hasWildcard_of_resolve ht hinputs
  exact ⟨hw, resolve_of_hasWildcard_eq_false hw⟩

/-- Lists of the first input under what the second input is a list of. The wildcard for the keys
has a template type, which stands for nothing. -/
def lookups : Ept :=
  .node ⟨2, .plain 0 8⟩ fun i =>
    if i.val = 0 then .node ⟨1, .wildcard ⟨1, 1⟩⟩ fun _ => .node ⟨0, .wildcard ⟨9, 9⟩⟩ Fin.elim0
    else .node ⟨1, .plain 0 7⟩ fun _ => .node ⟨0, .wildcard ⟨0, 0⟩⟩ Fin.elim0

/-- An integer and a list of texts. -/
def lookupInputs : List Ept := [plain 0 3, .node ⟨1, .plain 0 7⟩ fun _ => plain 0 5]

theorem resolve_substitutes_lookups :
    lookups.resolve lookupInputs = .ok table ∧ sampleRegistry.isCompatible table lookups = true ∧
      (∀ d ∈ lookupInputs, d.hasWildcard = false) ∧
      table.hasWildcard = false ∧ table.resolve [] = .ok table := by
  have hflat : (lookups.resolve lookupInputs).toOption.map flat = some table.flat := by
    decide +kernel
  obtain ⟨t, ht, hflat⟩ := toOption_map_eq_some.mp hflat
  obtain rfl : t = table := flat_injective hflat
  have hinputs : ∀ d ∈ lookupInputs, d.hasWildcard = false := by decide +kernel
  obtain ⟨-, -, -, -, hall⟩ := resolve_substitutes sampleRegistry lookupInputs lookups
  obtain ⟨-, hfeeds, hplain⟩ := hall table ht
  obtain ⟨hw, hsame⟩ := hplain fun o _ d hd => hinputs d (List.mem_of_getElem? hd)
  exact ⟨ht, hfeeds, hinputs, hw, hsame []⟩

end Ept

end GeneGraph
