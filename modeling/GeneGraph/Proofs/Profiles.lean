import GeneGraph.Proofs.Overlay

/-!
# Profiles over any history of saves

The base and the profiles are saved any number of times, and some calls are refused. What is in
force afterwards are `Settings.Layers`: the base saved last, and for every profile the tuning
saved last with the base as it was then. The store holds the texts of their fields under
different keys (`Settings.Holds`), which every call keeps (`Settings.Holds.step`). So
`Settings.history_layered` says what the store answers after any calls.
-/

namespace GeneGraph

/-! ## A store in memory -/

namespace MemoryStore

variable {m : MemoryStore} {key : String}

/-- The store after an attempt to load. -/
def loaded (m : MemoryStore) : MemoryStore := { m with loads := m.loads + 1 }

/-- The store after bytes are written under a key. -/
def written (m : MemoryStore) (key : String) (data : ByteArray) : MemoryStore :=
  { m with saves := m.saves + 1, blobs := m.blobs.insert key data }

theorem outcome_loadRaw (h : m.failLoads = false) (key : String) :
    (SettingsStore.loadRaw key : Access MemoryStore ByteArray).outcome m =
      (match m.blobs.get? key with
        | some data => .ok data
        | none => .error (.notFound key), m.loaded) := by
  obtain ⟨blobs, loads, saves, failLoads, failSaves⟩ := m
  cases h
  show (match blobs.get? key with
    | some data => pure data
    | none => throw (.notFound key) : Access MemoryStore ByteArray).outcome
      (loaded ⟨blobs, loads, saves, false, failSaves⟩) = _
  dsimp only
  cases blobs.get? key <;> rfl

theorem outcome_saveRaw (h : m.failSaves = false) (key : String) (data : ByteArray) :
    (SettingsStore.saveRaw key data : Access MemoryStore Unit).outcome m =
      (.ok (), m.written key data) := by
  obtain ⟨blobs, loads, saves, failLoads, failSaves⟩ := m
  cases h
  rfl

end MemoryStore

/-! ## Keys -/

namespace Settings

variable {name key : String}

theorem profileName?_eq_some_iff : profileName? key = some name ↔ key = profileStart ++ name := by
  unfold profileName? stripStart?
  constructor
  · intro h
    split at h
    · rename_i hprefix
      obtain ⟨rest, hrest⟩ := List.isPrefixOf_iff_prefix.mp hprefix
      rw [← hrest, List.drop_left, Option.map_some, Option.some.injEq] at h
      apply String.toList_injective
      rw [← hrest, String.toList_append, ← h, String.toList_ofList]
    · cases h
  · rintro rfl
    rw [String.toList_append, if_pos (List.isPrefixOf_iff_prefix.mpr (List.prefix_append _ _)),
      List.drop_left, Option.map_some, String.ofList_toList]

theorem profileName?_profileStart (name : String) :
    profileName? (profileStart ++ name) = some name := profileName?_eq_some_iff.mpr rfl

theorem profileName?_baseKey : profileName? baseKey = none := by decide

theorem profileStart_ne_baseKey (name : String) : profileStart ++ name ≠ baseKey := by
  intro h
  have hname := profileName?_profileStart name
  rw [h, profileName?_baseKey] at hname
  cases hname

/-- The keys of profiles are ordered as their names. -/
theorem before_of_profileStart {a b : String} (h : Before (profileStart ++ a) (profileStart ++ b)) :
    Before a b := by
  have happend : ∀ c : String, sortKey (profileStart ++ c) = sortKey profileStart ++ sortKey c := by
    intro c
    show (profileStart ++ c).toList.map _ = profileStart.toList.map _ ++ c.toList.map _
    rw [String.toList_append, List.map_append]
  by_contra hab
  by_cases hba : Before b a
  · refine h.asymm ?_
    unfold Before
    rw [happend, happend]
    exact List.append_left_lt hba
  · rw [eq_of_not_before hab hba] at h
    exact Before.irrefl _ h

/-- A name is refused, or its key is the name behind the common beginning. -/
theorem profileKey_cases (name : String) :
    profileKey name = .ok (profileStart ++ name) ∨ profileKey name = .error (.invalidKey name) := by
  unfold profileKey
  split
  · exact Or.inl rfl
  · exact Or.inr rfl

/-! ## Layers -/

/-- What the accepted calls leave in force. -/
structure Layers where
  /-- The base saved last, if any. -/
  saved? : Option Tuning
  /-- For the name of a profile the base when it was saved last, and the tuning saved. -/
  profile? : String → Option (Tuning × Tuning)

namespace Layers

/-- Nothing is saved. -/
def initial : Layers := ⟨none, fun _ => none⟩

def base (l : Layers) : Tuning := l.saved?.getD .default

/-- The fields that are kept under a key. -/
def fields? (l : Layers) (key : String) : Option Fields :=
  if key = baseKey then l.saved?.map Tuning.toMap
  else (profileName? key).bind fun name => (l.profile? name).map fun e => changedFields e.1 e.2

end Layers

/-- A call that saves something. -/
inductive Call where
  | save (t : Tuning)
  | saveProfile (name : String) (t : Tuning)

namespace Call

def run : Call → Access MemoryStore Unit
  | save t => Settings.save t
  | saveProfile name t => Settings.saveProfile name t

/-- Whether a call is accepted: its name has to be usable and its tuning in range. -/
def verdict : Call → Except SettingsError Unit
  | save t => check baseKey t
  | saveProfile name t => do check (← profileKey name) t

end Call

theorem check_eq_ok_iff {key : String} {t : Tuning} : check key t = .ok () ↔ t.fault? = none := by
  unfold check
  cases t.fault? <;> simp

namespace Call

variable {c : Call} {name : String} {t : Tuning} {e : SettingsError}

theorem verdict_saveProfile (name : String) (t : Tuning) :
    (saveProfile name t).verdict = profileKey name >>= fun key => check key t := rfl

theorem verdict_saveProfile_eq_ok_iff : (saveProfile name t).verdict = .ok () ↔
    profileKey name = .ok (profileStart ++ name) ∧ t.fault? = none := by
  rw [verdict_saveProfile]
  rcases profileKey_cases name with hkey | hkey
  · rw [hkey, and_iff_right rfl]
    exact check_eq_ok_iff
  · rw [hkey]
    constructor
    · intro h
      cases h
    · rintro ⟨h, -⟩
      cases h

/-- A call that is refused changes nothing. -/
theorem run_error (hc : c.verdict = .error e) (m : MemoryStore) :
    c.run.outcome m = (.error e, m) := by
  cases c with
  | save t => exact Procedure.outcome_bind_error (Procedure.outcome_lift hc m)
  | saveProfile name t =>
    rw [verdict_saveProfile] at hc
    cases hkey : profileKey name with
    | error e' =>
      rw [hkey] at hc
      cases hc
      exact Procedure.outcome_bind_error (Procedure.outcome_lift hkey m)
    | ok key =>
      have hcheck : check key t = .error e := by rwa [hkey] at hc
      refine (Procedure.outcome_bind_ok (Procedure.outcome_lift hkey m)).trans ?_
      exact Procedure.outcome_bind_error (Procedure.outcome_lift hcheck m)

end Call

/-- What is in force after a call that is accepted. -/
def Layers.after (l : Layers) : Call → Layers
  | .save t => { l with saved? := some t }
  | .saveProfile name t =>
    { l with profile? := Function.update l.profile? name (some (l.base, t)) }

/-- Makes a call; what is in force changes if it is accepted. -/
def step (s : MemoryStore × Layers) (c : Call) : MemoryStore × Layers :=
  match c.run.outcome s.1 with
  | (.ok _, m) => (m, s.2.after c)
  | (.error _, m) => (m, s.2)

/-- The store after some calls, and what is in force. -/
def history (calls : List Call) : MemoryStore × Layers := calls.foldl step (.empty, .initial)

/-! ## What the store holds -/

/-- The bytes that are stored for fields. -/
def blobOf (fields : Fields) : ByteArray := (textOf fields).toUTF8

/-- The store does not fail, and holds what is in force; the tunings are in range and the names
usable. -/
structure Holds (m : MemoryStore) (l : Layers) : Prop where
  loads : m.failLoads = false
  saves : m.failSaves = false
  blobs : ∀ key, m.blobs.get? key = (l.fields? key).map blobOf
  base : l.base.fault? = none
  profile : ∀ name old t, l.profile? name = some (old, t) →
    t.fault? = none ∧ profileKey name = .ok (profileStart ++ name)

namespace Layers

variable {l : Layers} {name key : String} {old t : Tuning}

theorem fields?_baseKey (l : Layers) : l.fields? baseKey = l.saved?.map Tuning.toMap := if_pos rfl

theorem fields?_profileStart (l : Layers) (name : String) :
    l.fields? (profileStart ++ name) = (l.profile? name).map fun e => changedFields e.1 e.2 := by
  rw [fields?, if_neg (profileStart_ne_baseKey name), profileName?_profileStart, Option.bind_some]

theorem allWords_fields? {fields : Fields} (h : l.fields? key = some fields) : AllWords fields := by
  unfold fields? at h
  split at h
  · obtain ⟨t, -, rfl⟩ := Option.map_eq_some_iff.mp h
    exact allWords_toMap t
  · obtain ⟨name, -, h⟩ := Option.bind_eq_some_iff.mp h
    obtain ⟨e, -, rfl⟩ := Option.map_eq_some_iff.mp h
    exact allWords_changedFields _ _

/-- Saving a base changes the fields under its key only. -/
theorem fields?_after_save (l : Layers) (t : Tuning) (key : String) :
    (l.after (.save t)).fields? key = if key = baseKey then some t.toMap else l.fields? key := by
  unfold after fields?
  split <;> rfl

theorem profile?_after_saveProfile (l : Layers) (name : String) (t : Tuning) :
    (l.after (.saveProfile name t)).profile? =
      Function.update l.profile? name (some (l.base, t)) := rfl

theorem fields?_after_saveProfile (l : Layers) (name : String) (t : Tuning) (key : String) :
    (l.after (.saveProfile name t)).fields? key =
      if key = profileStart ++ name then some (changedFields l.base t) else l.fields? key := by
  by_cases hkey : key = profileStart ++ name
  · rw [if_pos hkey, hkey, fields?_profileStart, profile?_after_saveProfile,
      Function.update_self]
    rfl
  · rw [if_neg hkey]
    unfold fields?
    split
    · rfl
    · cases hname : profileName? key with
      | none => rfl
      | some name' =>
        have hne : name' ≠ name := fun h => hkey (profileName?_eq_some_iff.mp (h ▸ hname))
        rw [Option.bind_some, Option.bind_some, profile?_after_saveProfile,
          Function.update_of_ne hne]

end Layers

namespace Holds

variable {m : MemoryStore} {l : Layers} {name key : String} {old t : Tuning}

theorem empty : Holds .empty .initial where
  loads := rfl
  saves := rfl
  blobs key := by
    unfold Layers.fields?
    split
    · rfl
    · cases profileName? key <;> rfl
  base := by decide
  profile _ _ _ h := by cases h

theorem loaded (h : Holds m l) : Holds m.loaded l := ⟨h.loads, h.saves, h.blobs, h.base, h.profile⟩

/-- The fields under a key are read back. -/
theorem loadFields (h : Holds m l) (key : String) :
    (Settings.loadFields key).outcome m = (.ok (l.fields? key), m.loaded) := by
  unfold Settings.loadFields
  rw [Procedure.outcome_bind, Procedure.outcome_tryCatch, Procedure.outcome_map,
    MemoryStore.outcome_loadRaw h.loads, h.blobs]
  cases hfields : l.fields? key with
  | none => rfl
  | some fields =>
    have hwords := Layers.allWords_fields? hfields
    show Procedure.outcome (if (blobOf fields).isEmpty = true then _ else _) m.loaded = _
    rw [blobOf, isEmpty_textOf hwords, fieldsOf?_textOf hwords]
    rfl

/-- The base is read back. -/
theorem load (h : Holds m l) : Settings.load.outcome m = (.ok l.base, m.loaded) := by
  refine (Procedure.outcome_bind_ok (h.loadFields baseKey)).trans ?_
  rw [Layers.fields?_baseKey]
  unfold Layers.base
  cases hsaved : l.saved? with
  | none => rfl
  | some t =>
    have ht : t.fault? = none := by
      have hbase := h.base
      rwa [Layers.base, hsaved] at hbase
    exact Procedure.outcome_lift (tuningOf_toMap baseKey ht) m.loaded

/-- A profile is read back over the base as it is now. -/
theorem loadProfile (h : Holds m l) (hp : l.profile? name = some (old, t)) :
    (Settings.loadProfile name).outcome m = (.ok (old.overlay t l.base), m.loaded.loaded) := by
  obtain ⟨ht, hkey⟩ := h.profile name old t hp
  have hfields := h.loadFields (profileStart ++ name)
  rw [Layers.fields?_profileStart, hp, Option.map_some] at hfields
  unfold Settings.loadProfile
  refine (Procedure.outcome_bind_ok (Procedure.outcome_lift hkey m)).trans ?_
  refine (Procedure.outcome_bind_ok hfields).trans ?_
  refine (Procedure.outcome_bind_ok h.loaded.load).trans ?_
  exact Procedure.outcome_lift (tuningOf_overlay _ ht h.base) _

/-- A profile that was never saved is not found. -/
theorem loadProfile_missing (h : Holds m l) (hp : l.profile? name = none) :
    ((Settings.loadProfile name).outcome m).1 =
      profileKey name >>= fun key => .error (.notFound key) := by
  unfold Settings.loadProfile
  rcases profileKey_cases name with hkey | hkey
  · have hfields := h.loadFields (profileStart ++ name)
    rw [Layers.fields?_profileStart, hp, Option.map_none] at hfields
    rw [Procedure.outcome_bind_ok (Procedure.outcome_lift hkey m),
      Procedure.outcome_bind_ok hfields, hkey]
    rfl
  · rw [Procedure.outcome_bind_error (Procedure.outcome_lift hkey m), hkey]
    rfl

/-- The names of the profiles are those behind the keys. -/
theorem profiles (h : Holds m l) : ∃ names,
    Settings.profiles.outcome m = (.ok names, m) ∧ names.Pairwise Before ∧
      ∀ name, name ∈ names ↔ (l.profile? name).isSome := by
  refine ⟨m.keys.filterMap profileName?, rfl, ?_, fun name => ?_⟩
  · rw [List.pairwise_filterMap, MemoryStore.keys, SortedMap.keys, List.pairwise_map]
    refine m.blobs.ascending.imp fun hab a ha b hb => ?_
    rw [profileName?_eq_some_iff.mp ha, profileName?_eq_some_iff.mp hb] at hab
    exact before_of_profileStart hab
  · simp only [List.mem_filterMap, profileName?_eq_some_iff, exists_eq_right]
    rw [MemoryStore.keys, SortedMap.mem_keys, h.blobs, Option.isSome_map,
      Layers.fields?_profileStart, Option.isSome_map]

/-- Bytes that are written stand for what comes into force. -/
theorem written (h : Holds m l) {l' : Layers} {fields : Fields}
    (hfields : ∀ k, l'.fields? k = if k = key then some fields else l.fields? k)
    (hbase : l'.base.fault? = none)
    (hprofile : ∀ name old t, l'.profile? name = some (old, t) →
      t.fault? = none ∧ profileKey name = .ok (profileStart ++ name)) :
    Holds (m.written key (blobOf fields)) l' where
  loads := h.loads
  saves := h.saves
  blobs k := by
    show (m.blobs.insert key (blobOf fields)).get? k = _
    rw [SortedMap.get?_insert, hfields, h.blobs]
    split <;> rfl
  base := hbase
  profile := hprofile

/-- A call that is accepted comes into force. -/
theorem run_ok {c : Call} (h : Holds m l) (hc : c.verdict = .ok ()) :
    ∃ m', c.run.outcome m = (.ok (), m') ∧ Holds m' (l.after c) := by
  cases c with
  | save t =>
    have ht : t.fault? = none := check_eq_ok_iff.mp hc
    refine ⟨_, ?_, h.written (l.fields?_after_save t) ht h.profile⟩
    refine (Procedure.outcome_bind_ok (Procedure.outcome_lift hc m)).trans ?_
    exact MemoryStore.outcome_saveRaw h.saves _ _
  | saveProfile name t =>
    obtain ⟨hkey, ht⟩ := Call.verdict_saveProfile_eq_ok_iff.mp hc
    have hcheck : check (profileStart ++ name) t = .ok () := check_eq_ok_iff.mpr ht
    refine ⟨_, ?_, h.loaded.written (l.fields?_after_saveProfile name t) h.base ?_⟩
    · refine (Procedure.outcome_bind_ok (Procedure.outcome_lift hkey m)).trans ?_
      refine (Procedure.outcome_bind_ok (Procedure.outcome_lift hcheck m)).trans ?_
      refine (Procedure.outcome_bind_ok h.load).trans ?_
      exact MemoryStore.outcome_saveRaw h.loaded.saves _ _
    · intro name' old' t' hp
      rw [Layers.profile?_after_saveProfile] at hp
      by_cases hname : name' = name
      · subst hname
        rw [Function.update_self] at hp
        cases hp
        exact ⟨ht, hkey⟩
      · rw [Function.update_of_ne hname] at hp
        exact h.profile name' old' t' hp

theorem step {s : MemoryStore × Layers} (h : Holds s.1 s.2) (c : Call) :
    Holds (Settings.step s c).1 (Settings.step s c).2 := by
  unfold Settings.step
  cases hc : c.verdict with
  | error e =>
    rw [Call.run_error hc]
    exact h
  | ok =>
    obtain ⟨m', hrun, h'⟩ := h.run_ok hc
    rw [hrun]
    exact h'

end Holds

theorem history_holds (calls : List Call) : Holds (history calls).1 (history calls).2 := by
  have hrun : ∀ s : MemoryStore × Layers, Holds s.1 s.2 →
      Holds (calls.foldl step s).1 (calls.foldl step s).2 := by
    induction calls with
    | nil => exact fun _ h => h
    | cons c calls ih => exact fun s h => ih _ (h.step c)
  exact hrun _ .empty

/-! ## What the store answers -/

/-- The answers of a store in which the layers are in force. -/
structure Layered (m : MemoryStore) (l : Layers) : Prop where
  /-- The base is the one saved last; the default, if there is none. -/
  load : (Settings.load.outcome m).1 = .ok l.base
  /-- A profile is the fields in which it differed from the base when it was saved last, and the
  others from the base as it is now. -/
  loadProfile : ∀ name old saved, l.profile? name = some (old, saved) →
    ((Settings.loadProfile name).outcome m).1 = .ok (old.overlay saved l.base)
  /-- A name under which no profile was accepted is not found, or refused. -/
  loadMissing : ∀ name, l.profile? name = none → ((Settings.loadProfile name).outcome m).1 =
    profileKey name >>= fun key => .error (.notFound key)
  /-- A profile is loaded right after it is saved as it was saved. -/
  loadSaved : ∀ name t m', (saveProfile name t).outcome m = (.ok (), m') →
    ((Settings.loadProfile name).outcome m').1 = .ok t
  /-- The names are those of the profiles that were accepted, ascending. -/
  profiles : ∃ names, (Settings.profiles.outcome m).1 = .ok names ∧ names.Pairwise Before ∧
    ∀ name, name ∈ names ↔ (l.profile? name).isSome
  /-- A call is refused for its name and its tuning only. -/
  verdict : ∀ c : Call, (c.run.outcome m).1 = c.verdict
  /-- What is refused leaves the stored bytes alone. -/
  refused : ∀ (c : Call) e m', c.run.outcome m = (.error e, m') → m'.blobs = m.blobs

theorem Holds.layered {m : MemoryStore} {l : Layers} (h : Holds m l) : Layered m l where
  load := by rw [h.load]
  loadProfile name old saved hp := by rw [h.loadProfile hp]
  loadMissing name hp := h.loadProfile_missing hp
  loadSaved name t m' hrun := by
    cases hc : (Call.saveProfile name t).verdict with
    | error e =>
      have hrefused := Call.run_error hc m
      rw [Call.run, hrun] at hrefused
      cases hrefused
    | ok =>
      obtain ⟨m'', hrun', h'⟩ := h.run_ok hc
      rw [Call.run, hrun] at hrun'
      cases hrun'
      have hp : (l.after (.saveProfile name t)).profile? name = some (l.base, t) := by
        rw [Layers.profile?_after_saveProfile, Function.update_self]
      have hbase : (l.after (.saveProfile name t)).base = l.base := rfl
      rw [h'.loadProfile hp, hbase, Tuning.overlay_self]
  profiles := by
    obtain ⟨names, hnames, hpairwise, hmem⟩ := h.profiles
    exact ⟨names, by rw [hnames], hpairwise, hmem⟩
  verdict c := by
    cases hc : c.verdict with
    | error e => rw [Call.run_error hc]
    | ok =>
      obtain ⟨m', hrun, -⟩ := h.run_ok hc
      rw [hrun]
  refused c e m' hrun := by
    cases hc : c.verdict with
    | error e' =>
      rw [Call.run_error hc] at hrun
      cases hrun
      rfl
    | ok =>
      obtain ⟨m'', hrun', -⟩ := h.run_ok hc
      rw [hrun'] at hrun
      cases hrun

/-- After any calls the base and the profiles are layered as they were saved. -/
theorem history_layered (calls : List Call) : Layered (history calls).1 (history calls).2 :=
  (history_holds calls).layered

end Settings

end GeneGraph
