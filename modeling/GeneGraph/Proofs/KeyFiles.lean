import GeneGraph.Proofs.Profiles

/-!
# Keys and the names of their files

A key is accepted if it is segments joined by dots (`Settings.isKey_iff`). The file of a key is
the key with an extension, and while it is written it has another extension in place of that
(`Directory.stagedName_eq`). Keys have dots of their own, so it is the last dot that counts
(`Path.splitExtension`).

`Directory.keys_contained` says that the files of keys lie in the directory of the store, that
no two keys share one, and that a staged file is not taken for the file of a key.
-/

namespace GeneGraph

/-! ## Segments -/

namespace Settings

/-- A letter or a digit of ASCII, a hyphen or an underscore. -/
def SegmentChar (c : Char) : Prop :=
  ('A' ≤ c ∧ c ≤ 'Z') ∨ ('a' ≤ c ∧ c ≤ 'z') ∨ ('0' ≤ c ∧ c ≤ '9') ∨ c = '-' ∨ c = '_'

def IsSegment (s : List Char) : Prop := s ≠ [] ∧ ∀ c ∈ s, SegmentChar c

/-- One or more segments joined by dots. -/
def IsDotted (cs : List Char) : Prop :=
  ∃ segments, segments ≠ [] ∧ (∀ s ∈ segments, IsSegment s) ∧ cs = ['.'].intercalate segments

variable {c : Char} {s cs : List Char} {name key : String}

theorem isSegmentChar_iff : isSegmentChar c = true ↔ SegmentChar c := by
  have hupper : c.isUpper = decide ('A' ≤ c ∧ c ≤ 'Z') := rfl
  have hlower : c.isLower = (decide ('a' ≤ c) && decide (c ≤ 'z')) := rfl
  have hdigit : c.isDigit = (decide ('0' ≤ c) && decide (c ≤ '9')) := rfl
  have halphanum : c.isAlphanum = (c.isUpper || c.isLower || c.isDigit) := rfl
  simp only [isSegmentChar, SegmentChar, halphanum, hupper, hlower, hdigit, Bool.or_eq_true,
    Bool.and_eq_true, decide_eq_true_eq, or_assoc]

instance (c : Char) : Decidable (SegmentChar c) := decidable_of_iff _ isSegmentChar_iff

theorem all_isSegmentChar_iff :
    s.isEmpty = false ∧ s.all isSegmentChar = true ↔ IsSegment s := by
  simp only [IsSegment, List.isEmpty_eq_false_iff, List.all_eq_true, isSegmentChar_iff]

instance (s : List Char) : Decidable (IsSegment s) := decidable_of_iff _ all_isSegmentChar_iff

theorem IsSegment.not_mem (h : IsSegment s) (hc : ¬ SegmentChar c) : c ∉ s := fun hmem =>
  hc (h.2 c hmem)

theorem hasDoubleDot_cons : hasDoubleDot (c :: cs) = true ↔
    (c = '.' ∧ cs.head? = some '.') ∨ hasDoubleDot cs = true := by
  cases cs with
  | nil => simp [hasDoubleDot]
  | cons d cs =>
    by_cases hc : c = '.'
    · by_cases hd : d = '.'
      · simp [hasDoubleDot, hc, hd]
      · simp [hasDoubleDot, hc, hd]
    · simp [hasDoubleDot, hc]

/-- Where a text is empty before its first dot, between two dots or behind its last. -/
theorem splitOn_dot_cases (cs : List Char) : ∃ first rest, cs.splitOn '.' = first :: rest ∧
    (first = [] ↔ cs = [] ∨ cs.head? = some '.') ∧
    ([] ∈ rest ↔ cs.getLast? = some '.' ∨ hasDoubleDot cs = true) := by
  induction cs with
  | nil => exact ⟨[], [], rfl, by simp, by simp [hasDoubleDot]⟩
  | cons c cs ih =>
    obtain ⟨first, rest, hsplit, hfirst, hrest⟩ := ih
    rw [List.splitOn_cons_eq_if_modifyHead, hsplit]
    by_cases hc : c = '.'
    · refine ⟨[], first :: rest, by simp [hc], by simp [hc], ?_⟩
      rw [List.mem_cons, eq_comm, hfirst, hrest, hasDoubleDot_cons]
      cases cs with
      | nil => simp [hc]
      | cons d cs =>
        rw [List.getLast?_cons_cons]
        simp only [hc, true_and, reduceCtorEq, false_or, or_left_comm]
    · refine ⟨c :: first, rest, by simp [hc], by simp [hc], ?_⟩
      rw [hrest, hasDoubleDot_cons]
      cases cs with
      | nil => simp [hc]
      | cons d cs =>
        rw [List.getLast?_cons_cons]
        simp [hc]

theorem mem_splitOn_dot_iff : (∃ s ∈ cs.splitOn '.', c ∈ s) ↔ c ∈ cs ∧ c ≠ '.' := by
  induction cs with
  | nil => simp
  | cons d cs ih =>
    obtain ⟨first, rest, hsplit, -, -⟩ := splitOn_dot_cases cs
    rw [hsplit, List.exists_mem_cons_iff] at ih
    rw [List.splitOn_cons_eq_if_modifyHead, hsplit, List.mem_cons]
    by_cases hd : d = '.'
    · simp only [hd, beq_self_eq_true, if_true, List.exists_mem_cons_iff, List.not_mem_nil,
        false_or, ih, or_and_right, ne_eq, and_not_self_iff]
    · simp only [beq_iff_eq, hd, if_false, List.modifyHead_cons, List.exists_mem_cons_iff]
      rw [List.mem_cons]
      by_cases hc : c = d
      · simp [hc, hd]
      · simp only [hc, false_or, ih]

/-- The tests of a key look for a part between dots that is no segment. -/
theorem isKey_iff_splitOn : isKey key = true ↔ ∀ s ∈ key.toList.splitOn '.', IsSegment s := by
  obtain ⟨first, rest, hsplit, hfirst, hrest⟩ := splitOn_dot_cases key.toList
  -- All tests but that of the characters look for an empty part.
  have hnil : (∀ s ∈ key.toList.splitOn '.', s ≠ []) ↔ ¬ (key.toList = [] ∨
      key.toList.head? = some '.' ∨ key.toList.getLast? = some '.' ∨
      hasDoubleDot key.toList = true) := by
    rw [← or_assoc, ← hfirst, ← hrest, hsplit, List.forall_mem_cons, not_or]
    refine and_congr_right fun _ => ⟨fun h hmem => h _ hmem rfl, ?_⟩
    rintro h _ hmem rfl
    exact h hmem
  have hchars : (∀ s ∈ key.toList.splitOn '.', ∀ c ∈ s, SegmentChar c) ↔
      ∀ c ∈ key.toList, SegmentChar c ∨ c = '.' := by
    constructor
    · intro h c hc
      by_cases hdot : c = '.'
      · exact Or.inr hdot
      · obtain ⟨s, hs, hcs⟩ := mem_splitOn_dot_iff.mpr ⟨hc, hdot⟩
        exact Or.inl (h s hs c hcs)
    · intro h s hs c hcs
      obtain ⟨hc, hdot⟩ := mem_splitOn_dot_iff.mp ⟨s, hs, hcs⟩
      exact (h c hc).resolve_right hdot
  unfold IsSegment
  rw [forall₂_and, hnil, hchars]
  unfold isKey
  simp only [Bool.and_eq_true, Bool.not_eq_true', List.all_eq_true, Bool.or_eq_true,
    isSegmentChar_iff, decide_eq_true_eq, List.isEmpty_iff, Bool.eq_false_iff, ne_eq, not_or]
  constructor
  · rintro ⟨⟨⟨⟨hempty, hall⟩, hhead⟩, hlast⟩, hdouble⟩
    exact ⟨⟨hempty, hhead, hlast, hdouble⟩, hall⟩
  · rintro ⟨⟨hempty, hhead, hlast, hdouble⟩, hall⟩
    exact ⟨⟨⟨⟨hempty, hall⟩, hhead⟩, hlast⟩, hdouble⟩

/-- A key is accepted if it is segments joined by dots. -/
theorem isKey_iff : isKey key = true ↔ IsDotted key.toList := by
  rw [isKey_iff_splitOn]
  constructor
  · intro h
    exact ⟨_, List.splitOn_ne_nil _ _, h, (List.intercalate_splitOn '.').symm⟩
  · rintro ⟨segments, hne, hsegments, hkey⟩
    rwa [hkey, List.splitOn_intercalate '.' (fun s hs => ?_) hne]
    exact (hsegments s hs).not_mem (by decide)

theorem checkKey_eq_ok_iff : checkKey key = .ok () ↔ isKey key = true := by
  unfold checkKey
  split
  · rename_i h
    simp [h]
  · rename_i h
    simp [h]

theorem profileKey_eq_ok_iff :
    profileKey name = .ok key ↔ IsSegment name.toList ∧ profileStart ++ name = key := by
  unfold profileKey
  rw [ite_eq_iff, ← all_isSegmentChar_iff]
  simp only [Bool.and_eq_true, Bool.not_eq_true', Except.ok.injEq, reduceCtorEq, and_false,
    or_false, String.isEmpty_eq_false_iff, List.isEmpty_eq_false_iff, ne_eq,
    String.toList_eq_nil_iff]

/-- A further segment behind a key makes a key. -/
theorem isKey_append_segment (hkey : isKey key = true) (hname : IsSegment name.toList) :
    isKey (key ++ "." ++ name) = true := by
  have hlist : (key ++ "." ++ name).toList = key.toList ++ '.' :: name.toList := by simp
  have hdot : '.' ∉ name.toList := hname.not_mem (by decide)
  rw [isKey_iff_splitOn, hlist, List.splitOn_append_cons_self, List.splitOn_eq_singleton hdot,
    List.forall_mem_append, List.forall_mem_singleton]
  exact ⟨isKey_iff_splitOn.mp hkey, hname⟩

theorem isEntryName_of_isKey (h : isKey key = true) : Path.isEntryName key = true := by
  have hslash : '/' ∉ key.toList := fun hmem => by
    obtain ⟨s, hs, hc⟩ := mem_splitOn_dot_iff.mpr ⟨hmem, by decide⟩
    exact (isKey_iff_splitOn.mp h s hs).not_mem (by decide) hc
  have hne : key ≠ "" ∧ key ≠ "." ∧ key ≠ ".." := by
    refine ⟨?_, ?_, ?_⟩ <;> rintro rfl <;> cases h
  unfold Path.isEntryName
  simp [hne, hslash]

theorem isKey_profileStart (h : IsSegment name.toList) : isKey (profileStart ++ name) = true :=
  isKey_append_segment (by decide) h

end Settings

/-! ## Names with an extension -/

namespace Path

/-- What stands before and behind the last dot. -/
def splitLastDot : List Char → Option (List Char × List Char)
  | [] => none
  | c :: cs =>
    match splitLastDot cs with
    | some (before, behind) => some (c :: before, behind)
    | none => if c = '.' then some ([], cs) else none

/-- The stem of a name and its extension. A dot at the beginning does not make an extension. -/
def splitExtension (name : String) : String × Option String :=
  match splitLastDot name.toList with
  | some (c :: before, behind) => (String.ofList (c :: before), some (String.ofList behind))
  | _ => (name, none)

/-- Puts an extension in place of the one that a name has. -/
def withExtension (name ext : String) : String := (splitExtension name).1 ++ "." ++ ext

variable {name stem ext : String} {cs before behind : List Char}

theorem splitLastDot_eq_none_iff : splitLastDot cs = none ↔ '.' ∉ cs := by
  induction cs with
  | nil => simp [splitLastDot]
  | cons c cs ih =>
    rw [List.mem_cons, not_or, ← ih]
    cases hcs : splitLastDot cs with
    | none => simp [splitLastDot, hcs, eq_comm]
    | some e => simp [splitLastDot, hcs]

theorem eq_of_splitLastDot (h : splitLastDot cs = some (before, behind)) :
    cs = before ++ '.' :: behind := by
  induction cs generalizing before with
  | nil => cases h
  | cons c cs ih =>
    cases hcs : splitLastDot cs with
    | none =>
      obtain ⟨hc, he⟩ : c = '.' ∧ ([], cs) = (before, behind) := by
        simpa [splitLastDot, hcs] using h
      cases he
      rw [hc, List.nil_append]
    | some e =>
      have he : (c :: e.1, e.2) = (before, behind) := by simpa [splitLastDot, hcs] using h
      cases he
      rw [ih hcs, List.cons_append]

theorem splitLastDot_append (hbehind : '.' ∉ behind) (before : List Char) :
    splitLastDot (before ++ '.' :: behind) = some (before, behind) := by
  induction before with
  | nil => simp [splitLastDot, splitLastDot_eq_none_iff.mpr hbehind]
  | cons c before ih => simp [splitLastDot, ih]

theorem eq_of_splitExtension (h : splitExtension name = (stem, some ext)) :
    name = stem ++ "." ++ ext ∧ stem ≠ "" := by
  unfold splitExtension at h
  split at h
  · rename_i c before behind hname
    cases h
    refine ⟨String.toList_injective ?_, fun h => ?_⟩
    · simpa using eq_of_splitLastDot hname
    · have hlist := congrArg String.toList h
      simp at hlist
  · cases h

theorem splitExtension_append (hstem : stem ≠ "") (hext : '.' ∉ ext.toList) :
    splitExtension (stem ++ "." ++ ext) = (stem, some ext) := by
  have hlist : (stem ++ "." ++ ext).toList = stem.toList ++ '.' :: ext.toList := by simp
  unfold splitExtension
  rw [hlist, splitLastDot_append hext]
  cases hcs : stem.toList with
  | nil => exact absurd (String.toList_eq_nil_iff.mp hcs) hstem
  | cons c before =>
    dsimp only
    rw [← hcs, String.ofList_toList, String.ofList_toList]

/-! ## Names as components of paths -/

theorem names_eq_splitOn (cs : List Char) : names cs = cs.splitOn '/' := by
  fun_induction names cs with
  | case1 => rfl
  | case2 cs ih =>
    rw [ih, List.splitOn_cons_eq_if_modifyHead]
    rfl
  | case3 c cs hc hn ih => exact absurd (ih.symm.trans hn) (List.splitOn_ne_nil _ _)
  | case4 c cs hc n ns hn ih =>
    have hne : c ≠ '/' := fun h => hc h
    rw [List.splitOn_cons_eq_if_modifyHead, ← ih, hn, if_neg (by simpa using hne)]
    rfl

/-- A slash stands between a directory and the name behind it. -/
theorem exists_toList_join (directory : String) :
    ∃ as, ∀ name, (join directory name).toList = as ++ '/' :: name.toList := by
  unfold join
  by_cases h : directory.endsWith "/" = true
  · have hend := h
    rw [String.endsWith_eq_endsWith_toSlice, String.Slice.endsWith_string_iff,
      String.copy_toSlice] at hend
    obtain ⟨as, has⟩ := hend
    refine ⟨as, fun name => ?_⟩
    rw [if_pos h, String.toList_append, ← has, List.append_assoc]
    rfl
  · refine ⟨directory.toList, fun name => ?_⟩
    rw [if_neg h, String.toList_append, String.toList_append, List.append_assoc]
    rfl

/-- The name is that of an entry, and behind any directory it is one more component. -/
def IsComponent (name : String) : Prop :=
  isEntryName name = true ∧ ∀ directory, names (join directory name).toList =
    (names (join directory "").toList).dropLast ++ [name.toList]

theorem isComponent_of_isEntryName (h : isEntryName name = true) : IsComponent name := by
  refine ⟨h, fun directory => ?_⟩
  have hslash : '/' ∉ name.toList := by
    unfold isEntryName at h
    simpa using (Bool.and_eq_true_iff.mp h).2
  obtain ⟨as, has⟩ := exists_toList_join directory
  rw [has, has, names_eq_splitOn, names_eq_splitOn, List.splitOn_append_cons_self,
    List.splitOn_append_cons_self, List.splitOn_eq_singleton hslash]
  simp

end Path

/-! ## Files of keys -/

namespace Directory

variable {key key' name : String} {names names' : List String} {d d' d'' : Directory}
  {data : ByteArray}

theorem fileName_eq (key : String) : fileName key = key ++ "." ++ "json" := by
  rw [fileName, String.append_assoc]
  rfl

theorem fileName_injective (h : fileName key = fileName key') : key = key' :=
  (String.append_left_inj _).mp h

theorem stagedName_injective (h : stagedName key = stagedName key') : key = key' :=
  fileName_injective ((String.append_left_inj _).mp h)

/-- The names end differently. -/
theorem stagedName_ne_fileName (key key' : String) : stagedName key ≠ fileName key' := by
  intro h
  have hlast := congrArg (fun s : String => s.toList.getLast?) h
  have hstaged : (stagedName key).toList = (fileName key).toList ++ ['.', 't', 'm', 'p'] :=
    String.toList_append
  have hfile : (fileName key').toList = key'.toList ++ ['.', 'j', 's', 'o', 'n'] :=
    String.toList_append
  rw [hstaged, hfile] at hlast
  simp at hlast

theorem ne_empty_of_isKey (h : Settings.isKey key = true) : key ≠ "" := by
  rintro rfl
  cases h

theorem splitExtension_fileName (h : key ≠ "") :
    Path.splitExtension (fileName key) = (key, some "json") := by
  rw [fileName_eq]
  exact Path.splitExtension_append h (by decide)

/-- The staged name has another extension in place of that of the file. -/
theorem stagedName_eq (h : key ≠ "") :
    stagedName key = Path.withExtension (fileName key) "json.tmp" := by
  rw [Path.withExtension, splitExtension_fileName h, stagedName, fileName_eq]
  simp only [String.append_assoc]
  rfl

theorem isKey_fileName (h : Settings.isKey key = true) : Settings.isKey (fileName key) = true := by
  rw [fileName_eq]
  exact Settings.isKey_append_segment h (by decide)

theorem isKey_stagedName (h : Settings.isKey key = true) :
    Settings.isKey (stagedName key) = true := by
  have heq : stagedName key = fileName key ++ "." ++ "tmp" := by
    rw [stagedName, String.append_assoc]
    rfl
  rw [heq]
  exact Settings.isKey_append_segment (isKey_fileName h) (by decide)

theorem keyOf?_eq_some_iff :
    keyOf? name = some key ↔ Settings.isKey key = true ∧ name = fileName key := by
  unfold keyOf?
  simp only [Bool.and_eq_true, decide_eq_true_eq]
  constructor
  · intro h
    obtain ⟨⟨⟨-, hname⟩, hkey⟩, hstem⟩ := Option.ite_none_right_eq_some.mp h
    cases hstem
    exact ⟨hkey, hname.symm⟩
  · rintro ⟨hkey, rfl⟩
    have hstem : (fileName key).toList.take ((fileName key).toList.length - 5) = key.toList := by
      have hlist : (fileName key).toList = key.toList ++ ".json".toList := String.toList_append
      have hlength : ".json".toList.length = 5 := by decide
      rw [hlist, List.length_append, hlength, Nat.add_sub_cancel, List.take_left]
    rw [hstem, String.ofList_toList, if_pos]
    have hne := ne_empty_of_isKey hkey
    exact ⟨⟨by simpa using hne, rfl⟩, hkey⟩

/-- A file is taken for that of a key by its extension and its stem. -/
theorem keyOf?_eq (name : String) : keyOf? name =
    if (Path.splitExtension name).2 = some "json" ∧
      Settings.isKey (Path.splitExtension name).1 = true
    then some (Path.splitExtension name).1 else none := by
  apply Option.ext
  intro key
  rw [keyOf?_eq_some_iff, Option.ite_none_right_eq_some, Option.some.injEq]
  constructor
  · rintro ⟨hkey, rfl⟩
    rw [splitExtension_fileName (ne_empty_of_isKey hkey)]
    exact ⟨⟨rfl, hkey⟩, rfl⟩
  · rintro ⟨⟨hext, hkey⟩, rfl⟩
    refine ⟨hkey, ?_⟩
    rw [fileName_eq]
    exact (Path.eq_of_splitExtension (Prod.ext rfl hext)).1

/-! ## Entries -/

def find? (d : Directory) (name : String) : Option FileEntry := d.entries.bind (·.get? name)

theorem mem_keys :
    key ∈ d.keys ↔ Settings.isKey key = true ∧ (d.find? (fileName key)).isSome = true := by
  have hnames : ∀ name, name ∈ d.names?.getD [] ↔ (d.find? name).isSome = true := by
    intro name
    unfold names? find?
    cases d.entries with
    | none => simp
    | some m => exact SortedMap.mem_keys
  have hkeys : key ∈ d.keys ↔ ∃ name ∈ d.names?.getD [], keyOf? name = some key := by
    unfold keys
    rw [SortedMap.mem_keys]
    refine (SortedMap.contains_insertAll .empty).trans ?_
    simp [SortedMap.contains]
  rw [hkeys]
  constructor
  · rintro ⟨name, hname, hkey⟩
    obtain ⟨hk, rfl⟩ := keyOf?_eq_some_iff.mp hkey
    exact ⟨hk, (hnames _).mp hname⟩
  · rintro ⟨hk, hname⟩
    exact ⟨_, (hnames _).mpr hname, keyOf?_eq_some_iff.mpr ⟨hk, rfl⟩⟩

/-- The directories differ in the entries of some names only. -/
structure AgreeBeside (names : List String) (d d' : Directory) : Prop where
  path : d'.path = d.path
  gone : d'.entries.isNone = d.entries.isNone
  entry : ∀ name, name ∉ names → d'.find? name = d.find? name

theorem AgreeBeside.refl (names : List String) (d : Directory) : AgreeBeside names d d :=
  ⟨rfl, rfl, fun _ _ => rfl⟩

theorem AgreeBeside.trans (h : AgreeBeside names d d') (h' : AgreeBeside names d' d'') :
    AgreeBeside names d d'' where
  path := h'.path.trans h.path
  gone := h'.gone.trans h.gone
  entry name hname := (h'.entry name hname).trans (h.entry name hname)

theorem AgreeBeside.mono (h : AgreeBeside names d d') (hsub : names ⊆ names') :
    AgreeBeside names' d d' where
  path := h.path
  gone := h.gone
  entry name hname := h.entry name fun hmem => hname (hsub hmem)

theorem find?_of_entries {m : SortedMap String FileEntry} (h : d.entries = some m)
    (name : String) : d.find? name = m.get? name := by
  rw [find?, h, Option.bind_some]

theorem AgreeBeside.writeFile (h : d.writeFile name data = some d') : AgreeBeside [name] d d' := by
  obtain ⟨m, hm, h⟩ := Option.bind_eq_some_iff.mp h
  split at h
  · cases h
  · split at h
    · cases h
    · cases h
      refine ⟨rfl, by rw [hm]; rfl, fun other hother => ?_⟩
      rw [find?_of_entries rfl, find?_of_entries hm, SortedMap.get?_insert,
        if_neg (mt List.mem_singleton.mpr hother)]

theorem AgreeBeside.rename {old new : String} (h : d.rename old new = some d') :
    AgreeBeside [new, old] d d' := by
  obtain ⟨m, hm, h⟩ := Option.bind_eq_some_iff.mp h
  have hd : ∀ e, AgreeBeside [new, old] d
      { d with entries := some ((m.erase old).insert new e) } := by
    intro e
    refine ⟨rfl, by rw [hm]; rfl, fun other hother => ?_⟩
    rw [List.mem_pair, not_or] at hother
    rw [find?_of_entries rfl, find?_of_entries hm, SortedMap.get?_insert, if_neg hother.1,
      SortedMap.get?_erase, if_neg hother.2]
  split at h
  · cases h
    exact hd _
  · cases h
    exact hd _
  · cases h

/-- What is read under a key depends on the entry of its file. -/
def answer (d : Directory) (key : String) : Except SettingsError ByteArray := do
  Settings.checkKey key
  if !d.reaches (fileName key) then .error (.io key)
  else if d.entries.isNone then .error (.notFound key)
  else if !Path.fitsName (fileName key) then .error (.io key)
  else
    match d.find? (fileName key) with
    | none => .error (.notFound key)
    | some .directory => .error (.io key)
    | some (.file data) => .ok data

theorem outcome_loadRaw (d : Directory) (key : String) :
    (loadRaw key).outcome d = (d.answer key, d) := by
  unfold loadRaw answer find?
  cases Settings.checkKey key with
  | error e => rfl
  | ok =>
    refine (Procedure.outcome_bind_ok rfl).trans ?_
    refine (Procedure.outcome_bind_ok (a := d) rfl).trans ?_
    dsimp only
    cases d.reaches (fileName key) with
    | false => rfl
    | true =>
      refine (Procedure.outcome_bind_ok (a := d) rfl).trans ?_
      cases d.entries with
      | none => rfl
      | some m =>
        dsimp only
        cases Path.fitsName (fileName key) with
        | false => rfl
        | true =>
          show (match m.get? (fileName key) with
            | none => throw (.notFound key)
            | some .directory => throw (.io key)
            | some (.file data) => pure data : Access Directory ByteArray).outcome d =
              (match m.get? (fileName key) with
            | none => .error (.notFound key)
            | some .directory => .error (.io key)
            | some (.file data) => .ok data, d)
          rcases m.get? (fileName key) with _ | _ | _ <;> rfl

theorem outcome_saveRaw (d : Directory) (key : String) (data : ByteArray) :
    (saveRaw key data).outcome d =
      match Settings.checkKey key with
      | .error e => (.error e, d)
      | .ok () =>
        match d.writeFile (stagedName key) data with
        | none => (.error (.io key), d)
        | some d =>
          match d.rename (stagedName key) (fileName key) with
          | none => (.error (.io key), d)
          | some d => (.ok (), d) := by
  unfold saveRaw
  cases Settings.checkKey key with
  | error e => rfl
  | ok =>
    show (match d.writeFile (stagedName key) data with
      | none => throw (.io key)
      | some d => do
        set d
        match d.rename (stagedName key) (fileName key) with
        | none => throw (.io key)
        | some d => set d : Access Directory Unit).outcome d = _
    dsimp only
    cases d.writeFile (stagedName key) data with
    | none => rfl
    | some d =>
      show (match d.rename (stagedName key) (fileName key) with
        | none => throw (.io key)
        | some d => set d : Access Directory Unit).outcome d = _
      dsimp only
      cases d.rename (stagedName key) (fileName key) with
      | none => rfl
      | some d => rfl

/-- Saving changes the entries of the file and of the staged file only. -/
theorem agreeBeside_saveRaw (d : Directory) (key : String) (data : ByteArray) :
    AgreeBeside [fileName key, stagedName key] d ((saveRaw key data).outcome d).2 := by
  rw [outcome_saveRaw]
  cases Settings.checkKey key with
  | error e => exact .refl _ _
  | ok =>
    cases hwrite : d.writeFile (stagedName key) data with
    | none => exact .refl _ _
    | some d' =>
      have hstaged : AgreeBeside [fileName key, stagedName key] d d' :=
        (AgreeBeside.writeFile hwrite).mono (List.subset_cons_self _ _)
      dsimp only
      cases hrename : d'.rename (stagedName key) (fileName key) with
      | none => exact hstaged
      | some d'' => exact hstaged.trans (.rename hrename)

theorem AgreeBeside.answer (h : AgreeBeside names d d') (hname : fileName key ∉ names) :
    d'.answer key = d.answer key := by
  unfold Directory.answer reaches
  rw [h.path, h.gone, h.entry _ hname]

/-- The entries of other names than those of files do not matter for the keys. -/
theorem AgreeBeside.keys (h : AgreeBeside names d d') (hnames : ∀ key, fileName key ∉ names) :
    d'.keys = d.keys := by
  refine eq_of_ascending (SortedMap.pairwise_keys _) (SortedMap.pairwise_keys _) fun key => ?_
  rw [mem_keys, mem_keys, h.entry _ (hnames key)]

/-! ## What keys are good for -/

/-- The files of a key lie in the directory, under names that no other key has. -/
structure Contained (key : String) : Prop where
  file : Path.IsComponent (fileName key)
  staged : Path.IsComponent (stagedName key)
  /-- The key is what stands before the extension of its file. -/
  stem : Path.splitExtension (fileName key) = (key, some "json")
  replaced : stagedName key = Path.withExtension (fileName key) "json.tmp"
  file_injective : ∀ key', fileName key' = fileName key → key' = key
  staged_injective : ∀ key', stagedName key' = stagedName key → key' = key
  staged_ne_file : ∀ key', stagedName key ≠ fileName key'
  /-- A staged file is not taken for the file of a key. -/
  unlisted : keyOf? (stagedName key) = none
  /-- Whatever is done to the staged file, the keys of the directory stay the same. -/
  keys : ∀ d d' : Directory, AgreeBeside [stagedName key] d d' → d'.keys = d.keys

theorem contained_of_isKey (h : Settings.isKey key = true) : Contained key where
  file := Path.isComponent_of_isEntryName (Settings.isEntryName_of_isKey (isKey_fileName h))
  staged := Path.isComponent_of_isEntryName (Settings.isEntryName_of_isKey (isKey_stagedName h))
  stem := splitExtension_fileName (ne_empty_of_isKey h)
  replaced := stagedName_eq (ne_empty_of_isKey h)
  file_injective _ := fileName_injective
  staged_injective _ := stagedName_injective
  staged_ne_file := stagedName_ne_fileName key
  unlisted := by
    apply Option.eq_none_iff_forall_not_mem.mpr
    intro key' hkey'
    exact stagedName_ne_fileName key key' (keyOf?_eq_some_iff.mp hkey').2
  keys _ _ h := h.keys fun key' hmem =>
    stagedName_ne_fileName key key' (List.mem_singleton.mp hmem).symm

/-- Accepted keys are segments joined by dots, and those of profiles are among them, each for its
own name and none the base key. The files of accepted keys are contained in the directory. It
lists a key if its file is there, and tells that file by its extension and stem. Saving under a
key touches no entries but its two files, for a key that is not accepted none at all, and leaves
what is read under other keys as it is. -/
theorem keys_contained :
    (∀ key, Settings.checkKey key = .ok () ↔ Settings.IsDotted key.toList) ∧
    (∀ name, (∃ key, Settings.profileKey name = .ok key) ↔ Settings.IsSegment name.toList) ∧
    (∀ name key, Settings.profileKey name = .ok key →
      Settings.checkKey key = .ok () ∧ key ≠ Settings.baseKey ∧
        ∀ name', Settings.profileKey name' = .ok key → name' = name) ∧
    (∀ key, Settings.checkKey key = .ok () → Contained key) ∧
    (∀ name, keyOf? name =
      if (Path.splitExtension name).2 = some "json" ∧
        Settings.isKey (Path.splitExtension name).1 = true
      then some (Path.splitExtension name).1 else none) ∧
    (∀ (d : Directory) key, key ∈ d.keys ↔
      Settings.checkKey key = .ok () ∧ (d.find? (fileName key)).isSome = true) ∧
    ∀ (d : Directory) key data,
      AgreeBeside [fileName key, stagedName key] d ((saveRaw key data).outcome d).2 ∧
      (Settings.checkKey key ≠ .ok () →
        (saveRaw key data).outcome d = (.error (.invalidKey key), d)) ∧
      ∀ key', key' ≠ key →
        ((loadRaw key').outcome ((saveRaw key data).outcome d).2).1 =
          ((loadRaw key').outcome d).1 := by
  refine ⟨fun key => ?_, fun name => ?_, fun name key h => ?_, fun key h => ?_, keyOf?_eq,
    fun d key => ?_,
    fun d key data => ⟨agreeBeside_saveRaw d key data, fun h => ?_, fun key' hne => ?_⟩⟩
  · rw [Settings.checkKey_eq_ok_iff, Settings.isKey_iff]
  · simp only [Settings.profileKey_eq_ok_iff, exists_and_left, exists_eq', and_true]
  · obtain ⟨hname, rfl⟩ := Settings.profileKey_eq_ok_iff.mp h
    refine ⟨Settings.checkKey_eq_ok_iff.mpr (Settings.isKey_profileStart hname),
      Settings.profileStart_ne_baseKey name, fun name' h' => ?_⟩
    exact (String.append_right_inj _).mp (Settings.profileKey_eq_ok_iff.mp h').2
  · exact contained_of_isKey (Settings.checkKey_eq_ok_iff.mp h)
  · rw [Settings.checkKey_eq_ok_iff, mem_keys]
  · have hkey : Settings.checkKey key = .error (.invalidKey key) :=
      if_neg (mt Settings.checkKey_eq_ok_iff.mpr h)
    rw [outcome_saveRaw, hkey]
  · rw [outcome_loadRaw, outcome_loadRaw]
    refine (agreeBeside_saveRaw d key data).answer ?_
    rw [List.mem_pair, not_or]
    exact ⟨fun h => hne (fileName_injective h), fun h => stagedName_ne_fileName key key' h.symm⟩

/-- A key that looks like the name of a file, and one that leads out of the directory. -/
theorem keys_contained_dotted :
    Settings.profileKey "fast" = .ok "stabilizer.fast" ∧ "stabilizer.fast" ≠ Settings.baseKey ∧
      Settings.checkKey "a.json" = .ok () ∧ Contained "a.json" ∧
      Settings.checkKey "../up" ≠ .ok () ∧
      (saveRaw "../up" .empty).outcome ⟨"/tmp", some .empty⟩ =
        (.error (.invalidKey "../up"), ⟨"/tmp", some .empty⟩) ∧
      "a" ≠ "a.json" ∧
      ((loadRaw "a").outcome ((saveRaw "a.json" .empty).outcome ⟨"/tmp", some .empty⟩).2).1 =
        ((loadRaw "a").outcome ⟨"/tmp", some .empty⟩).1 := by
  obtain ⟨-, -, hprofile, hcontained, -, -, hsave⟩ := keys_contained
  have hup : Settings.checkKey "../up" ≠ .ok () := by decide
  exact ⟨rfl, (hprofile "fast" _ rfl).2.1, rfl, hcontained "a.json" rfl, hup,
    (hsave _ "../up" .empty).2.1 hup, by decide, (hsave _ "a.json" .empty).2.2 "a" (by decide)⟩

end Directory

end GeneGraph
