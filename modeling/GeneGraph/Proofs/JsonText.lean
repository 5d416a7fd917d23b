import GeneGraph.Json.Printer
import GeneGraph.Json.Reader

/-!
# Written values are read back

A text spells a value if it writes the value with blanks where they are allowed
(`Json.Spells`). The value is read back from any text that begins so, if what follows cannot be
taken for a part of a number (`Closed`). Both writers spell, so `Json.ofString?_compact` and
`Json.ofString?_indented` say this for whole texts. Excepted are numbers that are no machine
integers and strings without text; the others are `Json.plain`.
-/

namespace GeneGraph.Json

variable {b b' cs cs' rest : List Char} {n : Nat}

/-! ## Numbers -/

/-- The text does not go on with a part of a number. -/
def Closed (rest : List Char) : Prop :=
  ∀ c cs, rest = c :: cs → c.isDigit = false ∧ c ≠ '.' ∧ c ≠ 'e' ∧ c ≠ 'E'

theorem closed_nil : Closed [] := nofun

theorem closed_cons {c : Char} (h : c.isDigit = false ∧ c ≠ '.' ∧ c ≠ 'e' ∧ c ≠ 'E') :
    Closed (c :: rest) := by
  intro c' cs heq
  cases heq
  exact h

theorem digits?_append {ds : List Char} (hds : ∀ c ∈ ds, c.isDigit = true) (hne : ds ≠ [])
    (hr : Closed rest) : digits? (ds ++ rest) = some (ds, rest) := by
  have htake : rest.takeWhile Char.isDigit = [] := by
    cases rest with
    | nil => rfl
    | cons c cs => rw [List.takeWhile_cons_of_neg (by simp [(hr c cs rfl).1])]
  have hdrop : rest.dropWhile Char.isDigit = rest := by
    cases rest with
    | nil => rfl
    | cons c cs => rw [List.dropWhile_cons_of_neg (by simp [(hr c cs rfl).1])]
  unfold digits?
  rw [List.takeWhile_append_of_pos hds, List.dropWhile_append_of_pos hds, htake, hdrop,
    List.append_nil]
  cases ds with
  | nil => exact absurd rfl hne
  | cons d ds => rfl

theorem digitsValue_toDigits (n : Nat) : digitsValue (Nat.toDigits 10 n) = n := by
  have h : Nat.ofDigitChars 10 (Nat.toDigits 10 n) 0 = n := Nat.ofDigitChars_ten_toDigits
  unfold Nat.ofDigitChars at h
  unfold digitsValue
  simp only [Nat.mul_comm _ 10]
  exact h

theorem isDigit_of_mem_toDigits {c : Char} (h : c ∈ Nat.toDigits 10 n) : c.isDigit = true :=
  Nat.isDigit_of_mem_toDigits (by decide) (by decide) h

/-- No zero stands before other digits. -/
theorem toDigits_eq_zero_cons {ds : List Char} (h : Nat.toDigits 10 n = '0' :: ds) : ds = [] := by
  induction n using Nat.strongRecOn generalizing ds with
  | ind n ih =>
    rw [Nat.toDigits_eq_if (by decide)] at h
    split at h
    · exact (List.cons.inj h).2.symm
    · have hdiv : n / 10 < n := by omega
      cases hd : Nat.toDigits 10 (n / 10) with
      | nil => exact absurd hd Nat.toDigits_ne_nil
      | cons d ds' =>
        rw [hd, List.cons_append, List.cons.injEq] at h
        obtain ⟨rfl, -⟩ := h
        rw [ih (n / 10) hdiv hd] at hd
        have hval := digitsValue_toDigits (n / 10)
        rw [hd] at hval
        have hzero : digitsValue ['0'] = 0 := by decide
        omega

theorem whole?_toDigits (n : Nat) (hr : Closed rest) :
    whole? (Nat.toDigits 10 n ++ rest) = some (Nat.toDigits 10 n, rest) := by
  have hdigits := digits?_append (fun c => isDigit_of_mem_toDigits (n := n) (c := c))
    Nat.toDigits_ne_nil hr
  cases hd : Nat.toDigits 10 n with
  | nil => exact absurd hd Nat.toDigits_ne_nil
  | cons d ds =>
    rw [hd] at hdigits
    by_cases hzero : d = '0'
    · subst hzero
      rw [toDigits_eq_zero_cons hd]
      rfl
    · rw [← hdigits, List.cons_append, whole?]
      intro cs heq
      exact hzero (List.cons.inj heq).1

theorem unsigned?_toDigits (negative : Bool) (n : Nat) (hr : Closed rest) :
    unsigned? negative (Nat.toDigits 10 n ++ rest) =
      some (Numeral.toJson ⟨negative, Nat.toDigits 10 n, none, none⟩, rest) := by
  have hfraction : fraction? rest = some (none, rest) := by
    unfold fraction?
    split
    · exact absurd rfl (hr _ _ rfl).2.1
    · rfl
  have hexponent : exponent? rest = some (none, rest) := by
    unfold exponent?
    split
    · rfl
    · rename_i c cs
      obtain ⟨-, -, he, hE⟩ := hr c cs rfl
      rw [if_neg (by simp [he, hE])]
  unfold unsigned?
  rw [whole?_toDigits n hr]
  simp only [Option.bind_eq_bind, Option.bind_some, hfraction, hexponent]
  rfl

theorem number?_intChars {i : Int} (hlo : -0x8000000000000000 ≤ i) (hhi : i ≤ 0xffffffffffffffff)
    (hr : Closed rest) : number? (intChars i ++ rest) = some (.int i, rest) := by
  unfold intChars
  split
  · rename_i hneg
    rw [List.cons_append, number?, unsigned?_toDigits true _ hr]
    simp only [Numeral.toJson, digitsValue_toDigits, if_true]
    rw [if_pos (by omega), show -(i.natAbs : Int) = i by omega]
  · rename_i hpos
    have hnumber : number? (Nat.toDigits 10 i.natAbs ++ rest) =
        unsigned? false (Nat.toDigits 10 i.natAbs ++ rest) := by
      cases hd : Nat.toDigits 10 i.natAbs with
      | nil => exact absurd hd Nat.toDigits_ne_nil
      | cons d ds =>
        rw [List.cons_append, number?]
        intro cs heq
        have hdigit := isDigit_of_mem_toDigits (n := i.natAbs) (c := d) (by simp [hd])
        rw [(List.cons.inj heq).1] at hdigit
        exact absurd hdigit (by decide)
    rw [hnumber, unsigned?_toDigits false _ hr]
    simp only [Numeral.toJson, digitsValue_toDigits, Bool.false_eq_true, if_false]
    rw [if_pos (by unfold maxWord; omega), show (i.natAbs : Int) = i by omega]

/-! ## Strings -/

/-- The escape of a control character stands for it. -/
theorem hexPadded_control : ∀ n < 0x20,
    Text.hexPadded 4 n = ['0', '0', Nat.digitChar (n / 16), Nat.digitChar (n % 16)] ∧
      hexValues? '0' '0' (Nat.digitChar (n / 16)) (Nat.digitChar (n % 16)) = some n := by
  decide +kernel

/-- A character is read back from what is written for it. -/
theorem pieces?_stringChar (c : Char) (cs : List Char) :
    pieces? (stringChar c ++ cs) = (pieces? cs).map fun x => (.char c :: x.1, x.2) := by
  have hmap : ∀ c, ((pieces? cs).bind fun x => some (Piece.char c :: x.1, x.2)) =
      (pieces? cs).map fun x => (.char c :: x.1, x.2) := fun _ => Option.map_eq_bind.symm
  unfold stringChar
  iterate 7
    split
    · rename_i hc
      subst hc
      exact hmap _
  split
  · rename_i hc
    obtain ⟨hhex, hvalue⟩ := hexPadded_control c.toNat hc
    have hunit : Piece.ofUnit c.toNat = .char c := by
      unfold Piece.ofUnit
      rw [if_neg (by omega), Char.ofNat_toNat]
    rw [hhex]
    simp only [List.cons_append, List.nil_append, pieces?, hvalue, Option.bind_eq_bind,
      Option.bind_some, hunit]
    exact hmap c
  · rename_i hquote hback _ _ _ _ _ hcontrol
    rw [List.singleton_append, pieces?.eq_def]
    split
    · rename_i h
      cases h
    · rename_i h
      exact absurd (List.cons.inj h).1 hquote
    · rename_i h
      exact absurd (List.cons.inj h).1 hback
    · rename_i h
      exact absurd (List.cons.inj h).1 hback
    · rename_i h
      obtain ⟨rfl, rfl⟩ := List.cons.inj h
      rw [if_neg (by simp [hcontrol, hback])]
      exact hmap c

theorem pieces?_flatMap (cs rest : List Char) :
    pieces? (cs.flatMap stringChar ++ '"' :: rest) = some (cs.map .char, rest) := by
  induction cs with
  | nil => rfl
  | cons c cs ih =>
    rw [List.flatMap_cons, List.append_assoc, pieces?_stringChar, ih]
    rfl

theorem joinPieces?_char (cs : List Char) : joinPieces? (cs.map .char) = some cs := by
  induction cs with
  | nil => rfl
  | cons c cs ih => rw [List.map_cons, joinPieces?, ih, Option.map_some]

/-- A string is read back up to its closing quote. -/
theorem string?_stringChars (s : String) (rest : List Char) :
    string? (s.toList.flatMap stringChar ++ '"' :: rest) = some (some s, rest) := by
  unfold string?
  simp only [pieces?_flatMap, Option.bind_eq_bind, Option.bind_some, joinPieces?_char,
    Option.map_some, String.ofList_toList]
  rfl

/-! ## Values and their texts -/

mutual

/-- The value is read back as it is: strings have a text, and numbers are machine integers. -/
def plain : Json → Bool
  | null | bool _ => true
  | int n => decide (-0x8000000000000000 ≤ n ∧ n ≤ 0xffffffffffffffff)
  | real _ _ => false
  | str s => s.isSome
  | arr items => allPlain items
  | obj fields => allFieldsPlain fields

def allPlain : List Json → Bool
  | [] => true
  | j :: js => j.plain && allPlain js

def allFieldsPlain : List (Option String × Json) → Bool
  | [] => true
  | (key, j) :: fs => key.isSome && j.plain && allFieldsPlain fs

end

/-- Characters that may stand between the parts of a text. -/
def Blanks (b : List Char) : Prop := ∀ c ∈ b, isBlank c = true

theorem blanks_nil : Blanks [] := nofun

theorem blanks_newLine (level : Nat) : Blanks (newLine level) := by
  intro c hc
  rcases List.mem_cons.mp hc with rfl | hc
  · rfl
  · rw [(List.mem_replicate.mp hc).2]
    rfl

theorem Blanks.skipBlanks (hb : Blanks b) (cs : List Char) :
    skipBlanks (b ++ cs) = skipBlanks cs := List.dropWhile_append_of_pos hb

theorem Blanks.closed (hb : Blanks b) (hr : Closed rest) : Closed (b ++ rest) := by
  cases b with
  | nil => exact hr
  | cons c b =>
    have hc : isBlank c = true := hb c List.mem_cons_self
    unfold isBlank at hc
    simp only [Bool.or_eq_true, decide_eq_true_eq] at hc
    rcases hc with ((rfl | rfl) | rfl) | rfl <;> exact closed_cons (by decide)

mutual

/-- The text writes the value, with blanks between its parts. -/
inductive Spells : Json → List Char → Prop where
  | null : Spells null ['n', 'u', 'l', 'l']
  | yes : Spells (bool true) ['t', 'r', 'u', 'e']
  | no : Spells (bool false) ['f', 'a', 'l', 's', 'e']
  | int {i : Int} (hlo : -0x8000000000000000 ≤ i) (hhi : i ≤ 0xffffffffffffffff) :
      Spells (int i) (intChars i)
  | str {s : String} : Spells (str (some s)) (stringChars s)
  | arrNil : Spells (arr []) ['[', ']']
  | arrCons {b cs cs' : List Char} {j : Json} {js : List Json} (hb : Blanks b)
      (hj : Spells j cs) (hjs : SpellsItems js cs') :
      Spells (arr (j :: js)) ('[' :: (b ++ (cs ++ cs')))
  | objNil : Spells (obj []) ['\x7b', '\x7d']
  | objCons {b b' cs cs' : List Char} {key : String} {j : Json}
      {fs : List (Option String × Json)} (hb : Blanks b) (hb' : Blanks b') (hj : Spells j cs)
      (hfs : SpellsFields fs cs') :
      Spells (obj ((some key, j) :: fs))
        ('\x7b' :: (b ++ (stringChars key ++ ':' :: (b' ++ (cs ++ cs')))))

/-- The text writes the items of an array after the first, up to the closing bracket. -/
inductive SpellsItems : List Json → List Char → Prop where
  | nil {b : List Char} (hb : Blanks b) : SpellsItems [] (b ++ [']'])
  | cons {b cs cs' : List Char} {j : Json} {js : List Json} (hb : Blanks b) (hj : Spells j cs)
      (hjs : SpellsItems js cs') : SpellsItems (j :: js) (',' :: (b ++ (cs ++ cs')))

/-- The text writes the fields of an object after the first, up to the closing brace. -/
inductive SpellsFields : List (Option String × Json) → List Char → Prop where
  | nil {b : List Char} (hb : Blanks b) : SpellsFields [] (b ++ ['\x7d'])
  | cons {b b' cs cs' : List Char} {key : String} {j : Json} {fs : List (Option String × Json)}
      (hb : Blanks b) (hb' : Blanks b') (hj : Spells j cs) (hfs : SpellsFields fs cs') :
      SpellsFields ((some key, j) :: fs)
        (',' :: (b ++ (stringChars key ++ ':' :: (b' ++ (cs ++ cs')))))

end

/-- A text that begins like a value: no blank, no closing bracket or brace. -/
def Starts (cs : List Char) : Prop :=
  ∃ c rest, cs = c :: rest ∧ isBlank c = false ∧ c ≠ ']' ∧ c ≠ '\x7d'

theorem Starts.skipBlanks (h : Starts cs) : skipBlanks cs = cs := by
  obtain ⟨c, rest, rfl, hc, -⟩ := h
  exact List.dropWhile_cons_of_neg (by simp [hc])

theorem Starts.append (h : Starts cs) (rest : List Char) : Starts (cs ++ rest) := by
  obtain ⟨c, cs, rfl, hc⟩ := h
  exact ⟨c, cs ++ rest, rfl, hc⟩

/-- What an integer begins with. -/
theorem exists_intChars (i : Int) :
    ∃ c cs, intChars i = c :: cs ∧ (c.isDigit = true ∨ c = '-') := by
  unfold intChars
  split
  · exact ⟨'-', _, rfl, Or.inr rfl⟩
  · cases hd : Nat.toDigits 10 i.natAbs with
    | nil => exact absurd hd Nat.toDigits_ne_nil
    | cons d ds =>
      have hdigit : d.isDigit = true := isDigit_of_mem_toDigits (n := i.natAbs) (by simp [hd])
      exact ⟨d, ds, rfl, Or.inl hdigit⟩

theorem starts_number {c : Char} (hc : c.isDigit = true ∨ c = '-') : Starts (c :: cs) := by
  refine ⟨c, cs, rfl, ?_⟩
  rcases hc with hc | rfl
  · unfold isBlank
    simp only [Bool.or_eq_false_iff, decide_eq_false_iff_not]
    refine ⟨⟨⟨⟨?_, ?_⟩, ?_⟩, ?_⟩, ?_, ?_⟩ <;> rintro rfl <;> exact absurd hc (by decide)
  · decide

theorem starts_stringChars (s : String) : Starts (stringChars s) := ⟨_, _, rfl, by decide⟩

theorem Spells.starts {j : Json} (h : Spells j cs) : Starts cs := by
  cases h with
  | @int i =>
    obtain ⟨c, cs, heq, hc⟩ := exists_intChars i
    rw [heq]
    exact starts_number hc
  | _ => exact ⟨_, _, rfl, by decide⟩

/-! ## The reader -/

theorem value?_blanks (hb : Blanks b) (cs : List Char) : value? n (b ++ cs) = value? n cs := by
  cases n with
  | zero => rfl
  | succ n => rw [value?, value?, hb.skipBlanks]

theorem items?_blanks (hb : Blanks b) (cs : List Char) : items? n (b ++ cs) = items? n cs := by
  cases n with
  | zero => rfl
  | succ n => rw [items?, items?, value?_blanks hb]

theorem fieldsOf?_blanks (hb : Blanks b) (cs : List Char) :
    fieldsOf? n (b ++ cs) = fieldsOf? n cs := by
  cases n with
  | zero => rfl
  | succ n => rw [fieldsOf?, fieldsOf?, hb.skipBlanks]

/-- What begins with a digit or a minus sign is read as a number. -/
theorem value?_number {c : Char} (hc : c.isDigit = true ∨ c = '-') :
    value? (n + 1) (c :: cs) = number? (c :: cs) := by
  rw [value?, (starts_number hc).skipBlanks]
  split
  all_goals first
    | rfl
    | (rename_i heq
       obtain ⟨rfl, -⟩ := List.cons.inj heq
       exact absurd hc (by decide))

theorem value?_intChars {i : Int} (hlo : -0x8000000000000000 ≤ i) (hhi : i ≤ 0xffffffffffffffff)
    (hr : Closed rest) : value? (n + 1) (intChars i ++ rest) = some (.int i, rest) := by
  have hnumber := number?_intChars hlo hhi hr
  obtain ⟨c, cs, heq, hc⟩ := exists_intChars i
  rw [heq] at hnumber ⊢
  rw [List.cons_append] at hnumber ⊢
  rw [value?_number hc, hnumber]

theorem value?_stringChars (s : String) (rest : List Char) :
    value? (n + 1) (stringChars s ++ rest) = some (.str (some s), rest) := by
  have htext : stringChars s ++ rest = '"' :: (s.toList.flatMap stringChar ++ '"' :: rest) := by
    simp [stringChars]
  rw [htext, value?]
  show (string? _).map _ = _
  rw [string?_stringChars]
  rfl

theorem value?_bracket (hb : Blanks b) (h : Starts cs) :
    value? (n + 1) ('[' :: (b ++ cs)) = (items? n cs).map fun x => (.arr x.1, x.2) := by
  have hskip : skipBlanks ('[' :: (b ++ cs)) = '[' :: (b ++ cs) := rfl
  rw [value?, hskip]
  simp only [hb.skipBlanks, h.skipBlanks]
  split
  · obtain ⟨c, rest, heq, -, hc, -⟩ := h
    exact absurd (List.cons.inj heq).1.symm hc
  · rfl

theorem value?_brace (hb : Blanks b) (h : Starts cs) :
    value? (n + 1) ('\x7b' :: (b ++ cs)) = (fieldsOf? n cs).map fun x => (.obj x.1, x.2) := by
  have hskip : skipBlanks ('\x7b' :: (b ++ cs)) = '\x7b' :: (b ++ cs) := rfl
  rw [value?, hskip]
  simp only [hb.skipBlanks, h.skipBlanks]
  split
  · obtain ⟨c, rest, heq, -, -, hc⟩ := h
    exact absurd (List.cons.inj heq).1.symm hc
  · rfl

/-- A key is read back with its colon. -/
theorem fieldsOf?_key (s : String) (cs : List Char) :
    fieldsOf? (n + 1) (stringChars s ++ ':' :: cs) =
      match value? n cs with
      | none => none
      | some (j, cs) =>
        match skipBlanks cs with
        | ',' :: cs => (fieldsOf? n cs).map fun (fs, rest) => ((some s, j) :: fs, rest)
        | '\x7d' :: cs => some ([(some s, j)], cs)
        | _ => none := by
  have hkey : stringChars s ++ ':' :: cs =
      '"' :: (s.toList.flatMap stringChar ++ '"' :: ':' :: cs) := by
    simp [stringChars]
  have hskip : ∀ cs, skipBlanks ('"' :: cs) = '"' :: cs := fun _ => rfl
  rw [hkey, fieldsOf?, hskip]
  simp only [string?_stringChars]
  rfl

/-- A reader with bound `n` reads back what is written shorter than that. -/
structure ReadsBack (n : Nat) : Prop where
  value : ∀ {j cs rest}, Spells j cs → cs.length < n → Closed rest →
    value? n (cs ++ rest) = some (j, rest)
  /-- The items of an array, whatever follows the bracket. -/
  items : ∀ {j cs js cs'} (rest), Spells j cs → SpellsItems js cs' →
    cs.length + cs'.length < n → items? n (cs ++ (cs' ++ rest)) = some (j :: js, rest)
  /-- The fields of an object, whatever follows the brace. -/
  fields : ∀ {key b j cs fs cs'} (rest), Blanks b → Spells j cs → SpellsFields fs cs' →
    (stringChars key).length + cs.length + cs'.length < n →
      fieldsOf? n (stringChars key ++ ':' :: (b ++ (cs ++ (cs' ++ rest)))) =
        some ((some key, j) :: fs, rest)

namespace ReadsBack

variable {j : Json}

theorem value_succ (h : ReadsBack n) (hj : Spells j cs) (hn : cs.length < n + 1)
    (hr : Closed rest) : value? (n + 1) (cs ++ rest) = some (j, rest) := by
  cases hj with
  | null | yes | no | arrNil | objNil => rfl
  | int hlo hhi => exact value?_intChars hlo hhi hr
  | str => exact value?_stringChars _ _
  | arrCons hb hj hjs =>
    simp only [List.length_cons, List.length_append] at hn
    rw [List.cons_append, List.append_assoc, List.append_assoc,
      value?_bracket hb (hj.starts.append _), h.items rest hj hjs (by omega)]
    rfl
  | objCons hb hb' hj hfs =>
    simp only [List.length_cons, List.length_append] at hn
    simp only [List.cons_append, List.append_assoc]
    rw [value?_brace hb ((starts_stringChars _).append _),
      h.fields rest hb' hj hfs (by omega)]
    rfl

theorem items_succ (h : ReadsBack n) {js : List Json} (hj : Spells j cs)
    (hjs : SpellsItems js cs') (hn : cs.length + cs'.length < n + 1) :
    items? (n + 1) (cs ++ (cs' ++ rest)) = some (j :: js, rest) := by
  cases hjs with
  | nil hb =>
    rw [List.length_append, List.length_singleton] at hn
    have hclosed : Closed (']' :: rest) := closed_cons (by decide)
    rw [items?, List.append_assoc, List.singleton_append,
      h.value hj (by omega) (hb.closed hclosed)]
    simp only [hb.skipBlanks]
    rfl
  | cons hb hj' hjs =>
    simp only [List.length_cons, List.length_append] at hn
    simp only [List.cons_append, List.append_assoc]
    rw [items?, h.value hj (by omega) (closed_cons (by decide))]
    show (items? n _).map _ = _
    rw [items?_blanks hb, h.items rest hj' hjs (by omega)]
    rfl

theorem fields_succ (h : ReadsBack n) {key : String} {fs : List (Option String × Json)}
    (hb : Blanks b) (hj : Spells j cs) (hfs : SpellsFields fs cs')
    (hn : (stringChars key).length + cs.length + cs'.length < n + 1) :
    fieldsOf? (n + 1) (stringChars key ++ ':' :: (b ++ (cs ++ (cs' ++ rest)))) =
      some ((some key, j) :: fs, rest) := by
  rw [fieldsOf?_key, value?_blanks hb]
  cases hfs with
  | nil hb' =>
    rw [List.length_append, List.length_singleton] at hn
    have hclosed : Closed ('\x7d' :: rest) := closed_cons (by decide)
    rw [List.append_assoc, List.singleton_append, h.value hj (by omega) (hb'.closed hclosed)]
    simp only [hb'.skipBlanks]
    rfl
  | cons hb' hb'' hj' hfs =>
    simp only [List.length_cons, List.length_append] at hn
    simp only [List.cons_append, List.append_assoc]
    rw [h.value hj (by omega) (closed_cons (by decide))]
    show (fieldsOf? n _).map _ = _
    rw [fieldsOf?_blanks hb', h.fields rest hb'' hj' hfs (by omega)]
    rfl

end ReadsBack

theorem readsBack (n : Nat) : ReadsBack n := by
  induction n with
  | zero =>
    constructor
    · intro j cs rest _ hn
      cases hn
    · intro j cs js cs' rest _ _ hn
      cases hn
    · intro key b j cs fs cs' rest _ _ _ hn
      cases hn
  | succ n ih =>
    constructor
    · intro j cs rest hj hn hr
      exact ih.value_succ hj hn hr
    · intro j cs js cs' rest hj hjs hn
      exact ih.items_succ hj hjs hn
    · intro key b j cs fs cs' rest hb hj hfs hn
      exact ih.fields_succ hb hj hfs hn

/-- A value is read back from a text that spells it. -/
theorem Spells.ofString? {j : Json} (h : Spells j cs) :
    Json.ofString? (String.ofList cs) = some j := by
  have hvalue := (readsBack _).value h (Nat.lt_succ_self _) closed_nil
  rw [List.append_nil] at hvalue
  rw [Json.ofString?, String.toList_ofList, ofChars?, hvalue]
  rfl

/-! ## The writers -/

mutual

theorem spells_compact : ∀ {j : Json}, j.plain = true → Spells j j.compactChars
  | .null, _ => .null
  | .bool true, _ => .yes
  | .bool false, _ => .no
  | .int _, h => .int (of_decide_eq_true h).1 (of_decide_eq_true h).2
  | .str (some _), _ => .str
  | .arr [], _ => .arrNil
  | .arr (j :: js), h => by
    obtain ⟨hj, hjs⟩ := Bool.and_eq_true_iff.mp h
    have htext : compactChars (arr (j :: js)) =
        '[' :: ([] ++ (j.compactChars ++ (compactItems js ++ [']']))) := by
      simp [compactChars]
    rw [htext]
    exact .arrCons blanks_nil (spells_compact hj) (spells_compactItems hjs)
  | .obj [], _ => .objNil
  | .obj ((some key, j) :: fs), h => by
    obtain ⟨hj, hfs⟩ := Bool.and_eq_true_iff.mp h
    have htext : compactChars (obj ((some key, j) :: fs)) = '\x7b' :: ([] ++ (stringChars key ++
        ':' :: ([] ++ (j.compactChars ++ (compactFields fs ++ ['\x7d']))))) := by
      simp [compactChars, keyChars]
    rw [htext]
    exact .objCons blanks_nil blanks_nil (spells_compact hj) (spells_compactFields hfs)

theorem spells_compactItems : ∀ {js : List Json}, allPlain js = true →
    SpellsItems js (compactItems js ++ [']'])
  | [], _ => .nil blanks_nil
  | j :: js, h => by
    obtain ⟨hj, hjs⟩ := Bool.and_eq_true_iff.mp h
    have htext : compactItems (j :: js) ++ [']'] =
        ',' :: ([] ++ (j.compactChars ++ (compactItems js ++ [']']))) := by
      simp [compactItems]
    rw [htext]
    exact .cons blanks_nil (spells_compact hj) (spells_compactItems hjs)

theorem spells_compactFields : ∀ {fs : List (Option String × Json)}, allFieldsPlain fs = true →
    SpellsFields fs (compactFields fs ++ ['\x7d'])
  | [], _ => .nil blanks_nil
  | (some key, j) :: fs, h => by
    obtain ⟨hj, hfs⟩ := Bool.and_eq_true_iff.mp h
    have htext : compactFields ((some key, j) :: fs) ++ ['\x7d'] = ',' :: ([] ++
        (stringChars key ++
          ':' :: ([] ++ (j.compactChars ++ (compactFields fs ++ ['\x7d']))))) := by
      simp [compactFields, keyChars]
    rw [htext]
    exact .cons blanks_nil blanks_nil (spells_compact hj) (spells_compactFields hfs)

end

theorem blanks_space : Blanks [' '] := by
  intro c hc
  rw [List.mem_singleton.mp hc]
  rfl

mutual

theorem spells_indented (level : Nat) :
    ∀ {j : Json}, j.plain = true → Spells j (j.indentedChars level)
  | .null, _ => .null
  | .bool true, _ => .yes
  | .bool false, _ => .no
  | .int _, h => .int (of_decide_eq_true h).1 (of_decide_eq_true h).2
  | .str (some _), _ => .str
  | .arr [], _ => .arrNil
  | .arr (j :: js), h => by
    obtain ⟨hj, hjs⟩ := Bool.and_eq_true_iff.mp h
    have htext : indentedChars level (arr (j :: js)) = '[' :: (newLine (level + 1) ++
        (j.indentedChars (level + 1) ++
          (indentedItems (level + 1) js ++ (newLine level ++ [']'])))) := by
      simp [indentedChars]
    rw [htext]
    exact .arrCons (blanks_newLine _) (spells_indented _ hj)
      (spells_indentedItems _ (blanks_newLine _) hjs)
  | .obj [], _ => .objNil
  | .obj ((some key, j) :: fs), h => by
    obtain ⟨hj, hfs⟩ := Bool.and_eq_true_iff.mp h
    have htext : indentedChars level (obj ((some key, j) :: fs)) = '\x7b' ::
        (newLine (level + 1) ++ (stringChars key ++ ':' :: ([' '] ++
          (j.indentedChars (level + 1) ++
            (indentedFields (level + 1) fs ++ (newLine level ++ ['\x7d'])))))) := by
      simp [indentedChars, keyChars]
    rw [htext]
    exact .objCons (blanks_newLine _) blanks_space (spells_indented _ hj)
      (spells_indentedFields _ (blanks_newLine _) hfs)

theorem spells_indentedItems (level : Nat) {b : List Char} (hb : Blanks b) :
    ∀ {js : List Json}, allPlain js = true →
      SpellsItems js (indentedItems level js ++ (b ++ [']']))
  | [], _ => .nil hb
  | j :: js, h => by
    obtain ⟨hj, hjs⟩ := Bool.and_eq_true_iff.mp h
    have htext : indentedItems level (j :: js) ++ (b ++ [']']) = ',' :: (newLine level ++
        (j.indentedChars level ++ (indentedItems level js ++ (b ++ [']'])))) := by
      simp [indentedItems]
    rw [htext]
    exact .cons (blanks_newLine _) (spells_indented _ hj) (spells_indentedItems _ hb hjs)

theorem spells_indentedFields (level : Nat) {b : List Char} (hb : Blanks b) :
    ∀ {fs : List (Option String × Json)}, allFieldsPlain fs = true →
      SpellsFields fs (indentedFields level fs ++ (b ++ ['\x7d']))
  | [], _ => .nil hb
  | (some key, j) :: fs, h => by
    obtain ⟨hj, hfs⟩ := Bool.and_eq_true_iff.mp h
    have htext : indentedFields level ((some key, j) :: fs) ++ (b ++ ['\x7d']) = ',' ::
        (newLine level ++ (stringChars key ++ ':' :: ([' '] ++ (j.indentedChars level ++
          (indentedFields level fs ++ (b ++ ['\x7d'])))))) := by
      simp [indentedFields, keyChars]
    rw [htext]
    exact .cons (blanks_newLine _) blanks_space (spells_indented _ hj)
      (spells_indentedFields _ hb hfs)

end

/-- A value that is written without blanks is read back. -/
theorem ofString?_compact {j : Json} (hj : j.plain = true) : ofString? j.compact = some j :=
  (spells_compact hj).ofString?

/-- A value that is written on several lines is read back. -/
theorem ofString?_indented {j : Json} (hj : j.plain = true) : ofString? j.indented = some j :=
  (spells_indented 0 hj).ofString?

end GeneGraph.Json
