import GeneGraph.Nominal
import GeneGraph.Proofs.Ancestors
import GeneGraph.Proofs.Streams

/-!
# What the nominal reader accepts

`Nominal.Form` is the grammar of nominal forms, as a relation between a type, a text that begins
with a nominal form of it, and the text that follows. Which type a name stands for decides whether
brackets have to follow it, and how many types are in them.

The reader cuts a text into tokens (`Nominal.Begins`) and goes through them with a list of what is
expected. What it takes for one expected type is a nominal form (`Nominal.form_of_parseTokens`),
and it takes every nominal form, whatever is expected behind it (`Nominal.Form.takes`).
-/

namespace GeneGraph

namespace Nominal

/-! ## The grammar -/

/-- White space and symbols end a name. -/
def isDelimiter (c : Char) : Bool := Text.isBlank c || isSymbol c

/-- Nothing but white space. -/
def Blanks (b : List Char) : Prop := ∀ c ∈ b, Text.isBlank c = true

/-- The characters up to the next delimiter, or to the end of the text; `rest` follows them. -/
structure Run (run rest : List Char) : Prop where
  ne_nil : run ≠ []
  no_delimiter : ∀ c ∈ run, isDelimiter c = false
  maximal : ∀ c, rest.head? = some c → isDelimiter c = true

/-- The text has the token first, maybe after white space, and `rest` follows it. -/
inductive Begins : List Char → Token → List Char → Prop where
  | symbol {b rest : List Char} {c : Char} :
      Blanks b → isSymbol c = true → Begins (b ++ c :: rest) (.symbol c) rest
  | name {b run rest : List Char} :
      Blanks b → Run run rest → Begins (b ++ (run ++ rest)) (.name run) rest

mutual

/-- The text begins with a nominal form of the type, and `rest` follows it. -/
inductive Form (r : Registry) : Ept → List Char → List Char → Prop where
  | node {e : Ept} {d : TypeDef} {run cs cs' rest : List Char} :
      Begins cs (.name run) cs' → r.named? (String.ofList run) = some d → d.uid = e.head →
        Template r e.args cs' rest → Form r e cs rest

/-- The text begins with nominal forms of all template types, in brackets if there are any. -/
inductive Template (r : Registry) : List Ept → List Char → List Char → Prop where
  | none {cs : List Char} : Template r [] cs cs
  | some {e : Ept} {es : List Ept} {cs cs' cs'' rest : List Char} :
      Begins cs (.symbol '[') cs' → Form r e cs' cs'' → Others r es cs'' rest →
        Template r (e :: es) cs rest

/-- The text begins with the template types after the first, up to the closing bracket. -/
inductive Others (r : Registry) : List Ept → List Char → List Char → Prop where
  | close {cs rest : List Char} : Begins cs (.symbol ']') rest → Others r [] cs rest
  | comma {e : Ept} {es : List Ept} {cs cs' cs'' rest : List Char} :
      Begins cs (.symbol ',') cs' → Form r e cs' cs'' → Others r es cs'' rest →
        Others r (e :: es) cs rest

end

variable {r : Registry} {e : Ept} {es : List Ept} {b cs cs' run rest : List Char} {c : Char}
  {t : Token} {pos n : Nat} {us : List TypeUid} {next : List Expected}

theorem blanks_nil : Blanks [] := nofun

theorem Blanks.append {b' : List Char} (hb : Blanks b) (hb' : Blanks b') : Blanks (b ++ b') :=
  fun c hc => (List.mem_append.mp hc).elim (hb c) (hb' c)

/-- White space may come before a token. -/
theorem Begins.blanks (hb : Blanks b) (h : Begins cs t rest) : Begins (b ++ cs) t rest := by
  cases h with
  | symbol hb' hc =>
    rw [← List.append_assoc]
    exact .symbol (hb.append hb') hc
  | name hb' hrun =>
    rw [← List.append_assoc]
    exact .name (hb.append hb') hrun

theorem Form.blanks (hb : Blanks b) (h : Form r e cs rest) : Form r e (b ++ cs) rest := by
  cases h with
  | node hname hd hu htemplate => exact .node (hname.blanks hb) hd hu htemplate

theorem Begins.length_lt (h : Begins cs t rest) : rest.length < cs.length := by
  cases h with
  | symbol =>
    rw [List.length_append, List.length_cons]
    omega
  | @name b run rest _ hrun =>
    have hpos := List.length_pos_iff.mpr hrun.ne_nil
    rw [List.length_append, List.length_append]
    omega

theorem isSymbol_cases (h : isSymbol c = true) : c = '[' ∨ c = ']' ∨ c = ',' := by
  simpa [isSymbol, or_assoc] using h

theorem isBlank_of_isSymbol (h : isSymbol c = true) : Text.isBlank c = false := by
  rcases isSymbol_cases h with rfl | rfl | rfl <;> decide

theorem isDelimiter_eq_false (h : isDelimiter c = false) :
    Text.isBlank c = false ∧ isSymbol c = false := by
  simpa [isDelimiter] using h

/-- A text is white space, or has a first token. -/
theorem blanks_or_begins (cs : List Char) : Blanks cs ∨ ∃ t rest, Begins cs t rest := by
  induction cs with
  | nil => exact Or.inl blanks_nil
  | cons c cs ih =>
    by_cases hb : Text.isBlank c = true
    · -- white space goes with what follows
      have hblank : Blanks [c] := fun x hx => by rwa [List.mem_singleton.mp hx]
      rcases ih with h | ⟨t, rest, h⟩
      · exact Or.inl (hblank.append h)
      · exact Or.inr ⟨t, rest, h.blanks hblank⟩
    · refine Or.inr ?_
      by_cases hs : isSymbol c = true
      · exact ⟨_, cs, .symbol blanks_nil hs⟩
      · have hrun : Run (c :: cs.takeWhile fun x => !isDelimiter x)
            (cs.dropWhile fun x => !isDelimiter x) := by
          refine ⟨List.cons_ne_nil _ _, fun x hx => ?_, fun x hx => ?_⟩
          · rcases List.mem_cons.mp hx with rfl | hx
            · simp [isDelimiter, hb, hs]
            · simpa using List.all_eq_true.mp List.all_takeWhile x hx
          · have hhead := List.head?_dropWhile_not (fun x => !isDelimiter x) cs
            rw [hx] at hhead
            simpa using hhead
        have hbegins := Begins.name blanks_nil hrun
        rw [List.cons_append, List.takeWhile_append_dropWhile] at hbegins
        exact ⟨_, _, hbegins⟩

/-! ## Tokens -/

theorem tokens_blanks (hb : Blanks b) (pos : Nat) (cs : List Char) :
    ∃ q, tokens pos (b ++ cs) = tokens q cs := by
  induction b generalizing pos with
  | nil => exact ⟨pos, rfl⟩
  | cons c b ih =>
    have hc := hb c List.mem_cons_self
    obtain ⟨q, hq⟩ := ih (fun x hx => hb x (List.mem_cons_of_mem c hx)) (pos + c.utf8Size)
    refine ⟨q, ?_⟩
    rw [List.cons_append, tokens, if_pos hc, hq]

/-- No token is placed before the text begins. -/
theorem exists_tokens_eq_cons (pos : Nat) (cs : List Char) :
    ∃ q t ts, tokens pos cs = (q, t) :: ts ∧ pos ≤ q := by
  induction cs generalizing pos with
  | nil => exact ⟨pos, none, [], rfl, Nat.le_refl _⟩
  | cons c cs ih =>
    obtain ⟨q, t, ts, hq, hle⟩ := ih (pos + c.utf8Size)
    rw [tokens, hq]
    split
    · exact ⟨q, t, ts, rfl, by omega⟩
    · split
      · exact ⟨pos, _, _, rfl, Nat.le_refl _⟩
      · unfold extendName
        split
        · split
          · exact ⟨pos, _, _, rfl, Nat.le_refl _⟩
          · exact ⟨pos, _, _, rfl, Nat.le_refl _⟩
        · exact ⟨pos, _, _, rfl, Nat.le_refl _⟩

/-- Where no name goes on, a character makes a name of its own. -/
theorem extendName_of_delimited (hrest : ∀ x, cs.head? = some x → isDelimiter x = true) :
    extendName c pos (tokens (pos + c.utf8Size) cs) =
      (pos, some (.name [c])) :: tokens (pos + c.utf8Size) cs := by
  cases cs with
  | nil => rfl
  | cons x cs =>
    rw [tokens]
    split
    · -- the next token is behind the white space
      obtain ⟨q, t, ts, hq, hle⟩ := exists_tokens_eq_cons (pos + c.utf8Size + x.utf8Size) cs
      have hpos := x.utf8Size_pos
      rw [hq]
      unfold extendName
      split
      · rename_i heq
        rw [List.cons.injEq, Prod.mk.injEq] at heq
        rw [if_neg (by omega), heq.1.1, heq.1.2, heq.2]
      · rfl
    · rename_i hb
      have hx := hrest x rfl
      rw [isDelimiter, Bool.or_eq_true] at hx
      rw [if_pos (hx.resolve_left hb)]
      rfl

theorem tokens_run (hrun : Run run rest) (pos : Nat) :
    ∃ q, tokens pos (run ++ rest) = (pos, some (.name run)) :: tokens q rest := by
  obtain ⟨hne, hplain, hmax⟩ := hrun
  induction run generalizing pos with
  | nil => exact absurd rfl hne
  | cons c run ih =>
    obtain ⟨hb, hs⟩ := isDelimiter_eq_false (hplain c List.mem_cons_self)
    rw [List.cons_append, tokens, if_neg (by simp [hb]), if_neg (by simp [hs])]
    cases run with
    | nil => exact ⟨_, extendName_of_delimited hmax⟩
    | cons x run =>
      obtain ⟨q, hq⟩ := ih (pos + c.utf8Size) (List.cons_ne_nil _ _)
        fun y hy => hplain y (List.mem_cons_of_mem c hy)
      refine ⟨q, ?_⟩
      rw [hq, extendName, if_pos rfl]

/-- The first token of a text is the first of its tokens. -/
theorem Begins.tokens_eq (h : Begins cs t rest) (pos : Nat) :
    ∃ p q, tokens pos cs = (p, some t) :: tokens q rest := by
  cases h with
  | @symbol b rest c hb hc =>
    obtain ⟨q, hq⟩ := tokens_blanks hb pos (c :: rest)
    refine ⟨q, q + c.utf8Size, ?_⟩
    rw [hq, tokens, if_neg (by simp [isBlank_of_isSymbol hc]), if_pos hc]
  | @name b run rest hb hrun =>
    obtain ⟨p, hp⟩ := tokens_blanks hb pos (run ++ rest)
    obtain ⟨q, hq⟩ := tokens_run hrun p
    exact ⟨p, q, hp.trans hq⟩

theorem Blanks.tokens_eq (h : Blanks cs) (pos : Nat) : ∃ p, tokens pos cs = [(p, none)] := by
  obtain ⟨p, hp⟩ := tokens_blanks h pos []
  rw [List.append_nil] at hp
  exact ⟨p, hp⟩

/-! ## The reader -/

theorem expectations_succ (n : Nat) : expectations (n + 1) = .symbol '[' :: .typeName ::
    ((List.replicate n [Expected.symbol ',', .typeName]).flatten ++ [.symbol ']']) := rfl

theorem token_of_symbol {t : Option Token} {ts : List Placed}
    (h : parseTokens r (.symbol c :: next) ((pos, t) :: ts) = .ok us) :
    t = some (.symbol c) ∧ parseTokens r next ts = .ok us := by
  rcases t with _ | x | s
  · cases h
  · rw [parseTokens] at h
    split at h
    · rename_i hc
      exact ⟨by rw [hc], h⟩
    · cases h
  · cases h

theorem token_of_typeName {t : Option Token} {ts : List Placed}
    (h : parseTokens r (.typeName :: next) ((pos, t) :: ts) = .ok us) :
    ∃ s d us', t = some (.name s) ∧ r.named? (String.ofList s) = some d ∧ us = d.uid :: us' ∧
      parseTokens r (expectations d.uid.arity ++ next) ts = .ok us' := by
  rcases t with _ | x | s
  · cases h
  · cases h
  · rw [parseTokens] at h
    obtain ⟨d, hd, h⟩ := bind_eq_ok.mp h
    obtain ⟨us', hus, h⟩ := bind_eq_ok.mp h
    cases h
    refine ⟨s, d, us', rfl, ?_, rfl, hus⟩
    unfold Registry.lookup at hd
    split at hd
    · cases hd
      assumption
    · cases hd

/-- An expected symbol is the first token, and the reader goes on behind it. -/
theorem begins_of_symbol
    (h : parseTokens r (.symbol c :: next) (tokens pos cs) = .ok us) :
    ∃ rest q, Begins cs (.symbol c) rest ∧ parseTokens r next (tokens q rest) = .ok us := by
  rcases blanks_or_begins cs with hblank | ⟨t, rest, hbegins⟩
  · obtain ⟨p, hp⟩ := hblank.tokens_eq pos
    rw [hp] at h
    cases (token_of_symbol h).1
  · obtain ⟨p, q, hp⟩ := hbegins.tokens_eq pos
    rw [hp] at h
    obtain ⟨ht, hnext⟩ := token_of_symbol h
    cases ht
    exact ⟨rest, q, hbegins, hnext⟩

/-- For an expected type its name is the first token, which brings in what has to follow. -/
theorem begins_of_typeName
    (h : parseTokens r (.typeName :: next) (tokens pos cs) = .ok us) :
    ∃ run rest d us' q, Begins cs (.name run) rest ∧ r.named? (String.ofList run) = some d ∧
      us = d.uid :: us' ∧
      parseTokens r (expectations d.uid.arity ++ next) (tokens q rest) = .ok us' := by
  rcases blanks_or_begins cs with hblank | ⟨t, rest, hbegins⟩
  · obtain ⟨p, hp⟩ := hblank.tokens_eq pos
    rw [hp] at h
    obtain ⟨_, _, _, ht, -⟩ := token_of_typeName h
    cases ht
  · obtain ⟨p, q, hp⟩ := hbegins.tokens_eq pos
    rw [hp] at h
    obtain ⟨run, d, us', ht, hd, hus, hnext⟩ := token_of_typeName h
    cases ht
    exact ⟨run, rest, d, us', q, hbegins, hd, hus, hnext⟩

theorem parseTokens_nil_iff : parseTokens r [] (tokens pos cs) = .ok us ↔ us = [] ∧ Blanks cs := by
  rcases blanks_or_begins cs with hblank | ⟨t, rest, hbegins⟩
  · obtain ⟨p, hp⟩ := hblank.tokens_eq pos
    rw [hp]
    exact ⟨fun h => ⟨(Except.ok.inj h).symm, hblank⟩, fun h => congrArg Except.ok h.1.symm⟩
  · obtain ⟨p, q, hp⟩ := hbegins.tokens_eq pos
    rw [hp]
    refine ⟨nofun, fun ⟨_, hblank⟩ => ?_⟩
    obtain ⟨p', hp'⟩ := hblank.tokens_eq pos
    rw [hp] at hp'
    cases hp'

/-- Nominal forms of the types after the first are what is expected of a reader that has still to
find so many of them. -/
theorem others_of_parseTokens {N : Nat}
    (hform : ∀ {cs : List Char} {pos us next}, cs.length < N →
      parseTokens r (.typeName :: next) (tokens pos cs) = .ok us →
        ∃ e rest q us', Form r e cs rest ∧ us = e.flat ++ us' ∧ rest.length < cs.length ∧
          parseTokens r next (tokens q rest) = .ok us')
    (hn : cs.length < N)
    (h : parseTokens r ((List.replicate n [Expected.symbol ',', .typeName]).flatten ++
      [.symbol ']'] ++ next) (tokens pos cs) = .ok us) :
    ∃ es rest q us', es.length = n ∧ Others r es cs rest ∧ us = Ept.encodeSequence es ++ us' ∧
      rest.length < cs.length ∧ parseTokens r next (tokens q rest) = .ok us' := by
  induction n generalizing cs pos us with
  | zero =>
    obtain ⟨rest, q, hbegins, h⟩ := begins_of_symbol h
    exact ⟨[], rest, q, us, rfl, .close hbegins, rfl, hbegins.length_lt, h⟩
  | succ n ih =>
    obtain ⟨cs', q, hcomma, h⟩ := begins_of_symbol h
    have hlt := hcomma.length_lt
    obtain ⟨e, cs'', q', us', he, rfl, hlt', h⟩ := hform (by omega) h
    obtain ⟨es, rest, q'', us'', hes, hothers, rfl, hlt'', h⟩ := ih (by omega) h
    refine ⟨e :: es, rest, q'', us'', congrArg Nat.succ hes, .comma hcomma he hothers, ?_,
      by omega, h⟩
    rw [Ept.encodeSequence_cons, List.append_assoc]

theorem exists_ept (es : List Ept) {u : TypeUid} (h : es.length = u.arity) :
    ∃ e : Ept, e.head = u ∧ e.args = es := by
  have hargs : Ept.ofArgs u es = .ok _ := dif_pos h
  exact ⟨_, Ept.ofArgs_eq_ok_iff.mp hargs⟩

/-- What is read for one expected type is a nominal form. -/
theorem form_of_parseTokens (h : parseTokens r (.typeName :: next) (tokens pos cs) = .ok us) :
    ∃ e rest q us', Form r e cs rest ∧ us = e.flat ++ us' ∧ rest.length < cs.length ∧
      parseTokens r next (tokens q rest) = .ok us' := by
  induction hN : cs.length using Nat.strongRecOn generalizing cs pos us next with
  | ind N ih =>
    have hform {cs : List Char} {pos us next} (hlt : cs.length < N)
        (h : parseTokens r (.typeName :: next) (tokens pos cs) = .ok us) := ih _ hlt h rfl
    obtain ⟨run, cs', d, us', q, hname, hd, rfl, hnext⟩ := begins_of_typeName h
    have hlt := hname.length_lt
    cases ha : d.uid.arity.val with
    | zero =>
      obtain ⟨e, hhead, hargs⟩ := exists_ept [] ha.symm
      rw [ha] at hnext
      refine ⟨e, cs', q, us', .node hname hd hhead.symm (hargs ▸ .none), ?_, by omega, hnext⟩
      rw [e.flat_eq, hhead, hargs]
      rfl
    | succ n =>
      rw [ha, expectations_succ] at hnext
      obtain ⟨cs₁, q₁, hopen, hnext⟩ := begins_of_symbol hnext
      have hlt₁ := hopen.length_lt
      obtain ⟨e₁, cs₂, q₂, us₂, he₁, rfl, hlt₂, hnext⟩ := hform (by omega) hnext
      obtain ⟨es, rest, q₃, us₃, hes, hothers, rfl, hlt₃, hnext⟩ :=
        others_of_parseTokens hform (by omega) hnext
      obtain ⟨e, hhead, hargs⟩ := exists_ept (e₁ :: es) (by rw [ha, ← hes]; rfl)
      refine ⟨e, rest, q₃, us₃, .node hname hd hhead.symm (hargs ▸ .some hopen he₁ hothers), ?_,
        by omega, hnext⟩
      rw [e.flat_eq, hhead, hargs, Ept.encodeSequence_cons, List.cons_append, List.append_assoc]

/-! ## Every nominal form is read -/

/-- For what is expected the reader takes the text up to `rest` and gives `us`, whatever else is
expected. -/
def Takes (r : Registry) (xs : List Expected) (us : List TypeUid) (cs rest : List Char) : Prop :=
  ∀ pos, ∃ q, ∀ next, parseTokens r (xs ++ next) (tokens pos cs) =
    (parseTokens r next (tokens q rest)).map (us ++ ·)

theorem takes_nil (r : Registry) (cs : List Char) : Takes r [] [] cs cs := by
  intro pos
  refine ⟨pos, fun next => ?_⟩
  rw [List.nil_append]
  cases parseTokens r next (tokens pos cs) <;> rfl

theorem Takes.append {xs xs' : List Expected} {us' : List TypeUid}
    (h : Takes r xs us cs cs') (h' : Takes r xs' us' cs' rest) :
    Takes r (xs ++ xs') (us ++ us') cs rest := by
  intro pos
  obtain ⟨p, hp⟩ := h pos
  obtain ⟨q, hq⟩ := h' p
  refine ⟨q, fun next => ?_⟩
  rw [List.append_assoc, hp, hq]
  cases parseTokens r next (tokens q rest) with
  | error err => rfl
  | ok vs => exact congrArg Except.ok (List.append_assoc us us' vs).symm

theorem Begins.takes_symbol (h : Begins cs (.symbol c) rest) (r : Registry) :
    Takes r [.symbol c] [] cs rest := by
  intro pos
  obtain ⟨p, q, hp⟩ := h.tokens_eq pos
  refine ⟨q, fun next => ?_⟩
  rw [hp, List.singleton_append, parseTokens, if_pos rfl]
  cases parseTokens r next (tokens q rest) <;> rfl

theorem Begins.takes_name {d : TypeDef} (h : Begins cs (.name run) cs')
    (hd : r.named? (String.ofList run) = some d)
    (hargs : Takes r (expectations d.uid.arity) us cs' rest) :
    Takes r [.typeName] (d.uid :: us) cs rest := by
  intro pos
  obtain ⟨p, q, hp⟩ := h.tokens_eq pos
  obtain ⟨q', hq'⟩ := hargs q
  refine ⟨q', fun next => ?_⟩
  rw [hp, List.singleton_append, parseTokens, Registry.lookup, hd]
  show (parseTokens r (expectations d.uid.arity ++ next) (tokens q cs')).map (d.uid :: ·) = _
  rw [hq']
  cases parseTokens r next (tokens q' rest) <;> rfl

theorem Others.takes (hes : ∀ e ∈ es, ∀ {cs rest}, Form r e cs rest →
      Takes r [.typeName] e.flat cs rest) (h : Others r es cs rest) :
    Takes r ((List.replicate es.length [Expected.symbol ',', .typeName]).flatten ++ [.symbol ']'])
      (Ept.encodeSequence es) cs rest := by
  induction es generalizing cs with
  | nil =>
    cases h with
    | close hclose => exact hclose.takes_symbol r
  | cons e es ih =>
    cases h with
    | comma hcomma he hothers =>
      have hfirst := (hcomma.takes_symbol r).append (hes e List.mem_cons_self he)
      exact hfirst.append (ih (fun e he => hes e (List.mem_cons_of_mem _ he)) hothers)

theorem Template.takes (hes : ∀ e ∈ es, ∀ {cs rest}, Form r e cs rest →
      Takes r [.typeName] e.flat cs rest) (h : Template r es cs rest) :
    Takes r (expectations es.length) (Ept.encodeSequence es) cs rest := by
  cases h with
  | none => exact takes_nil r cs
  | @some e es cs cs' cs'' rest hopen he hothers =>
    have hfirst := (hopen.takes_symbol r).append (hes e List.mem_cons_self he)
    exact hfirst.append (hothers.takes fun e he => hes e (List.mem_cons_of_mem _ he))

/-- A nominal form is read as its type, whatever is expected behind it. -/
theorem Form.takes (h : Form r e cs rest) : Takes r [.typeName] e.flat cs rest := by
  induction e generalizing cs rest with
  | node u args ih =>
    obtain ⟨hname, hd, rfl, htemplate⟩ := h
    have hargs := htemplate.takes fun e he _ _ h => by
      obtain ⟨i, rfl⟩ := List.mem_ofFn.mp he
      exact ih i h
    rw [Ept.args, List.length_ofFn] at hargs
    rw [Ept.flat_eq]
    exact hname.takes_name hd hargs

/-! ## Errors -/

/-- The reader complains of names that are not registered, and else of the position where
something other was expected. -/
theorem parseTokens_error {xs : List Expected} {ts : List Placed} {err : TypeError}
    (h : parseTokens r xs ts = .error err) :
    (∃ p x, err = .nominal p x) ∨ ∃ name, err = .unknownName name := by
  fun_induction parseTokens r xs ts with
  | case1 => cases h
  | case2 pos => exact Or.inl ⟨pos, .endOfInput, (Except.error.inj h).symm⟩
  | case3 next pos s ts ih =>
    cases hd : r.lookup (String.ofList s) with
    | error err' =>
      rw [hd] at h
      cases h
      unfold Registry.lookup at hd
      split at hd
      · cases hd
      · exact Or.inr ⟨_, (Except.error.inj hd).symm⟩
    | ok d =>
      rw [hd] at h
      refine ih d ?_
      change (parseTokens r (expectations d.uid.arity ++ next) ts).map (d.uid :: ·) = _ at h
      cases hus : parseTokens r (expectations d.uid.arity ++ next) ts with
      | error err' =>
        rw [hus] at h
        exact h
      | ok us =>
        rw [hus] at h
        cases h
  | case4 _ _ _ _ ih => exact ih h
  | case5 c _ pos => exact Or.inl ⟨pos, .symbol c, (Except.error.inj h).symm⟩
  | case6 x _ pos => exact Or.inl ⟨pos, x, (Except.error.inj h).symm⟩
  | case7 => cases h

theorem parse_eq (r : Registry) (s : String) :
    parse r s = parseTokens r [.typeName] (tokens 0 s.toList) >>= fun us =>
      (Ept.ofFlat us).mapError .badEpt := rfl

/-- A text is read as the type of which it is a nominal form, up to white space behind it. -/
theorem parse_eq_ok_iff {s : String} :
    parse r s = .ok e ↔ ∃ rest, Form r e s.toList rest ∧ Blanks rest := by
  constructor
  · intro h
    obtain ⟨us, hus, h⟩ := bind_eq_ok.mp h
    obtain ⟨e', rest, q, us', hform, rfl, -, hnext⟩ := form_of_parseTokens hus
    obtain ⟨rfl, hblank⟩ := parseTokens_nil_iff.mp hnext
    rw [List.append_nil, Ept.ofFlat_flat] at h
    cases h
    exact ⟨rest, hform, hblank⟩
  · rintro ⟨rest, hform, hblank⟩
    obtain ⟨q, hq⟩ := hform.takes 0
    have hread := hq []
    rw [parseTokens_nil_iff.mpr ⟨rfl, hblank⟩] at hread
    rw [parse_eq]
    refine bind_eq_ok.mpr ⟨e.flat, ?_, ?_⟩
    · exact hread.trans (congrArg Except.ok (List.append_nil _))
    · rw [Ept.ofFlat_flat]
      rfl

/-- What is read is a type, so no text is complained of as one that makes no tree. -/
theorem parse_ne_badEpt (r : Registry) (s : String) (cause : EptError) :
    parse r s ≠ .error (.badEpt cause) := by
  intro h
  rw [parse_eq] at h
  cases hus : parseTokens r [.typeName] (tokens 0 s.toList) with
  | error err =>
    rw [hus] at h
    cases h
    rcases parseTokens_error hus with ⟨_, _, herr⟩ | ⟨_, herr⟩ <;> cases herr
  | ok us =>
    obtain ⟨e, rest, q, us', -, rfl, -, hnext⟩ := form_of_parseTokens hus
    obtain ⟨rfl, -⟩ := parseTokens_nil_iff.mp hnext
    rw [hus, List.append_nil] at h
    change (Ept.ofFlat e.flat).mapError TypeError.badEpt = _ at h
    rw [Ept.ofFlat_flat] at h
    cases h

/-! ## Written types -/

theorem intercalate_cons {α : Type} (sep x : List α) (l : List (List α)) :
    sep.intercalate (x :: l) = x ++ l.flatMap (sep ++ ·) := by
  induction l generalizing x with
  | nil => simp
  | cons y l ih => rw [List.intercalate_cons_cons, ih, List.flatMap_cons]; simp

/-- All identifiers of the type are registered, under names that no delimiter cuts. -/
def Nameable (r : Registry) (e : Ept) : Prop :=
  ∀ u ∈ e.flat, ∃ d, r.find? u = some d ∧ ∀ c ∈ d.name.toList, isDelimiter c = false

theorem nameable_iff : Nameable r e ↔
    ∀ u ∈ e.flat, (r.find? u).any (fun d => d.name.toList.all fun c => !isDelimiter c) = true := by
  simp [Nameable, Option.any_eq_true]

instance : Decidable (Nameable r e) := decidable_of_iff _ nameable_iff.symm

/-- A type is written in a nominal form of it, if something follows that ends a name. -/
def Written (r : Registry) (e : Ept) : Prop :=
  ∀ rest : List Char, (∀ c, rest.head? = some c → isDelimiter c = true) →
    Form r e ((display r e).toList ++ rest) rest

/-- The template types after the first, as they are written. -/
def writtenOthers (r : Registry) (es : List Ept) : List Char :=
  es.flatMap fun e => [',', ' '] ++ (display r e).toList

theorem isDelimiter_of_others (es : List Ept) (rest : List Char) :
    ∀ c, (writtenOthers r es ++ ']' :: rest).head? = some c → isDelimiter c = true := by
  intro c hc
  cases es <;> cases hc <;> rfl

theorem others_written (hes : ∀ e ∈ es, Written r e) (rest : List Char) :
    Others r es (writtenOthers r es ++ ']' :: rest) rest := by
  induction es with
  | nil => exact .close (.symbol blanks_nil rfl)
  | cons e es ih =>
    have hblank : Blanks [' '] := fun c hc => by
      rw [List.mem_singleton.mp hc]
      rfl
    have hform := hes e List.mem_cons_self _ (isDelimiter_of_others (r := r) es rest)
    have htext : writtenOthers r (e :: es) ++ ']' :: rest = ',' :: ([' '] ++
        ((display r e).toList ++ (writtenOthers r es ++ ']' :: rest))) := by
      simp [writtenOthers]
    rw [htext]
    exact .comma (.symbol blanks_nil rfl) (hform.blanks hblank)
      (ih fun e he => hes e (List.mem_cons_of_mem _ he))

theorem display_node {d : TypeDef} (hd : r.find? d.uid = some d)
    (args : Fin d.uid.arity → Ept) : (display r (.node d.uid args)).toList =
      match List.ofFn args with
      | [] => d.name.toList
      | e :: es =>
        d.name.toList ++ '[' :: ((display r e).toList ++ (writtenOthers r es ++ [']'])) := by
  have hlength : (List.ofFn args).length = d.uid.arity := List.length_ofFn
  have hparts : (List.ofFn fun i => display r (args i)) = (List.ofFn args).map (display r) :=
    (List.map_ofFn ..).symm
  rw [display, hd, hparts]
  cases hargs : List.ofFn args with
  | nil =>
    rw [hargs] at hlength
    rw [if_pos (Fin.ext hlength.symm)]
  | cons e es =>
    rw [hargs] at hlength
    rw [if_neg fun h0 => by rw [h0] at hlength; cases hlength]
    simp only [String.toList_append, String.toList_intercalate, List.map_cons, intercalate_cons]
    simp [writtenOthers, List.flatMap_map]

theorem name_pos_of_registered {defs : List TypeDef} (h : Registered defs) :
    ∀ d ∈ defs, 0 < d.name.length := by
  induction h with
  | nil => nofun
  | cons ha _ ih => exact List.forall_mem_cons.mpr ⟨ha.name_pos, ih⟩

/-- Nothing cuts the name of a registered type, if no character of it ends a name. -/
theorem run_name {d : TypeDef} (hd : d ∈ r.defs)
    (hplain : ∀ c ∈ d.name.toList, isDelimiter c = false)
    (hrest : ∀ c, rest.head? = some c → isDelimiter c = true) : Run d.name.toList rest where
  ne_nil := by
    have hpos := name_pos_of_registered r.registered d hd
    rw [← String.length_toList] at hpos
    exact List.length_pos_iff.mp hpos
  no_delimiter := hplain
  maximal := hrest

/-- What is displayed of a type is a nominal form of it. -/
theorem written_of_nameable (h : Nameable r e) : Written r e := by
  induction e with
  | node u args ih =>
    intro rest hrest
    rw [Nameable, Ept.flat_eq] at h
    obtain ⟨⟨d, hd, hplain⟩, hargs⟩ := List.forall_mem_cons.mp h
    obtain ⟨hmem, rfl⟩ := (r.coherent.find?_iff _ d).mp hd
    have hmem := Registry.mem_toList.mp hmem
    have hnamed : r.named? (String.ofList d.name.toList) = some d := by
      rw [String.ofList_toList]
      exact (r.coherent.named?_iff _ d).mpr ⟨Registry.mem_toList.mpr hmem, rfl⟩
    have hwritten : ∀ e ∈ List.ofFn args, Written r e := by
      intro e he
      obtain ⟨i, rfl⟩ := List.mem_ofFn.mp he
      exact ih i fun u hu => hargs u (List.mem_flatten.mpr ⟨_, List.mem_map_of_mem he, hu⟩)
    have htext := display_node hd args
    have hnode {cs : List Char} (hname : Run d.name.toList cs)
        (htemplate : Template r (List.ofFn args) cs rest) :
        Form r (.node d.uid args) (d.name.toList ++ cs) rest :=
      .node (.name blanks_nil hname) hnamed rfl htemplate
    cases hlist : List.ofFn args with
    | nil =>
      rw [htext, hlist]
      exact hnode (run_name hmem hplain hrest) (hlist ▸ .none)
    | cons e es =>
      rw [hlist] at hwritten
      obtain ⟨he, hes⟩ := List.forall_mem_cons.mp hwritten
      have htemplate : Template r (e :: es)
          ('[' :: ((display r e).toList ++ (writtenOthers r es ++ ']' :: rest))) rest :=
        .some (.symbol blanks_nil rfl) (he _ (isDelimiter_of_others es rest))
          (others_written hes rest)
      have hname : Run d.name.toList
          ('[' :: ((display r e).toList ++ (writtenOthers r es ++ ']' :: rest))) :=
        run_name hmem hplain fun c hc => by
          cases hc
          rfl
      rw [htext, hlist]
      simpa using hnode hname (hlist ▸ htemplate)

/-- The reader gives a type for the nominal forms of it, up to white space behind them, and for no
other text. It never complains of identifiers that make no tree, and it reads what is displayed of
a type if the type is nameable. -/
theorem parse_accepts_forms (r : Registry) :
    (∀ (s : String) (e : Ept),
      parse r s = .ok e ↔ ∃ rest, Form r e s.toList rest ∧ Blanks rest) ∧
    (∀ (s : String) (cause : EptError), parse r s ≠ .error (.badEpt cause)) ∧
    ∀ e : Ept, Nameable r e → parse r (display r e) = .ok e := by
  refine ⟨fun _ _ => parse_eq_ok_iff, parse_ne_badEpt r, fun e he => parse_eq_ok_iff.mpr ?_⟩
  have hform := written_of_nameable he [] nofun
  rw [List.append_nil] at hform
  exact ⟨[], hform, blanks_nil⟩

theorem parse_accepts_forms_table :
    Nameable sampleRegistry Ept.table ∧
      display sampleRegistry Ept.table = "dict[str, list[int]]" ∧
      parse sampleRegistry "dict[str, list[int]]" = .ok Ept.table ∧
      ∃ rest, Form sampleRegistry Ept.table " dict [str,list[ int]] ".toList rest ∧
        Blanks rest := by
  have hnameable : Nameable sampleRegistry Ept.table := by decide +kernel
  have hdisplay : display sampleRegistry Ept.table = "dict[str, list[int]]" := by decide +kernel
  have hflat : (parse sampleRegistry " dict [str,list[ int]] ").toOption.map Ept.flat =
      some Ept.table.flat := by decide +kernel
  obtain ⟨e, he, hflat⟩ := toOption_map_eq_some.mp hflat
  obtain rfl : e = Ept.table := Ept.flat_injective hflat
  obtain ⟨hforms, -, hread⟩ := parse_accepts_forms sampleRegistry
  exact ⟨hnameable, hdisplay, hdisplay ▸ hread _ hnameable, (hforms _ _).mp he⟩

end Nominal

end GeneGraph
