import GeneGraph.Proofs.Counting
import GeneGraph.Proofs.Freezing
import GeneGraph.Workspace
import Mathlib.Algebra.Order.Group.Multiset
import Mathlib.Tactic.Abel

/-!
# Programs that share codes

A `Ledger` is a workspace with the counts of the handles that its names, its arena and its frozen
codes hold. A program gives commands (`Ledger.perform`): it makes and changes working codes,
freezes, thaws, copies and drops, puts handles into slots, interns and collects. A collection
goes by the counts alone: it drops an entry if there is no handle to its object but that of the
arena, and with the last handle to a code go those in its slots, in the middle of the sweep.

`Ledger.sound_after` says that whatever the program did, the counts are right.
-/

namespace GeneGraph

/-- A workspace with its objects and the counts of handles to them. -/
structure Ledger where
  workspace : Workspace
  /-- The objects that were made. -/
  objects : List Frozen
  count : Counts

/-- How an item is had from what is there without making an object. -/
inductive Recipe where
  /-- A working code with a graph and without sub-codes. -/
  | create (g : Graph)
  /-- What a name stands for: a handle, or a working code, is copied. -/
  | copy (name : String)
  /-- A working code like what a name stands for. -/
  | thaw (name : String)
  /-- The same with another graph. -/
  | edit (name : String) (g : Graph)
  /-- The same with a frozen code placed in a row. -/
  | place (name : String) (row : Row) (sub : String)
  /-- The same with an empty slot. -/
  | clear (name : String) (row : Row)
  /-- The handle in a slot of what a name stands for is copied. -/
  | lift (name : String) (row : Row)
  /-- The handle in the arena is copied. -/
  | get (d : Digest)

/-- The item that is had, if the names stand for something. -/
def Recipe.item? (w : Workspace) : Recipe → Option Item
  | .create g => some (.working (.ofGraph g))
  | .copy name => w.item? name
  | .thaw name => (w.item? name).map fun i => .working i.code
  | .edit name g => (w.item? name).map fun i => .working { i.code with graph := g }
  | .place name row sub =>
    match w.item? name, w.item? sub with
    | some i, some (.frozen f) => some (.working (i.code.setSub row f))
    | _, _ => none
  | .clear name row => (w.item? name).map fun i => .working (i.code.attach row none)
  | .lift name row => (w.item? name).bind fun i => (i.code.sub? row).map .frozen
  | .get d => (w.arena.get? d).map .frozen

/-- What a program does with the codes that names stand for. -/
inductive Command where
  /-- Lets a name stand for an item, if it can be had. -/
  | put (name : String) (recipe : Recipe)
  | drop (name : String)
  /-- Lets a name stand for a code that is frozen now, or for the one that is frozen already. -/
  | freeze (name target : String)
  /-- Lets a name stand for the code in the arena with the digest of another, which is interned
  if there is none. -/
  | intern (name target : String)
  /-- Collects, visiting the entries in an order that may depend on what is there. -/
  | collect (order : Arena → List Digest)

namespace Ledger

/-! ## Handles -/

def acquire (l : Ledger) (fs : List Frozen) : Ledger :=
  { l with count := fs.foldl Counts.acquire l.count }

def release (l : Ledger) (fs : List Frozen) : Ledger :=
  { l with count := fs.foldl Frozen.release l.count }

/-- The handles that a name holds. -/
def heldBy (l : Ledger) (name : String) : List Frozen :=
  (l.workspace.item? name).toList.flatMap Item.held

/-- Lets a name stand for an item. The handles that the name held go afterwards. -/
def assign (l : Ledger) (name : String) (i : Item) : Ledger :=
  { l.acquire i.held with workspace := l.workspace.define name i }.release (l.heldBy name)

def drop (l : Ledger) (name : String) : Ledger :=
  { l with workspace := l.workspace.drop name }.release (l.heldBy name)

/-- Makes an object of a copy of a code, with a first handle to it. -/
def freeze (l : Ledger) (c : Code) : Frozen × Ledger :=
  let (f, w) := l.workspace.freeze c
  (f, ⟨w, f :: l.objects, Function.update (l.acquire c.subs).count f.serial 1⟩)

/-- Interns an object. The handle to it goes into the arena, or is given up if the arena has an
object already; there is a new handle to the object in the arena. -/
def intern (l : Ledger) (f : Frozen) : Frozen × Ledger :=
  let (g, w) := l.workspace.intern f
  let l' : Ledger := { l.acquire [g] with workspace := w }
  (g, if l.workspace.arena.contains f.digest then l'.release [f] else l')

/-! ## Collections by counts -/

/-- Drops the entry of a digest if there is no other handle to its object. -/
def visit (l : Ledger) (d : Digest) : Ledger :=
  match l.workspace.arena.get? d with
  | none => l
  | some f =>
    if 1 < l.count f.serial then l
    else
      { l with workspace := { l.workspace with
        arena := ⟨l.workspace.arena.entries.erase d⟩ } }.release [f]

def sweep (l : Ledger) (ds : List Digest) : Ledger := ds.foldl visit l

/-- Sweeps until nothing more is dropped. -/
def settle (order : Arena → List Digest) (l : Ledger) : Ledger :=
  let l' := l.sweep (order l.workspace.arena)
  if l'.workspace.arena.size < l.workspace.arena.size then settle order l' else l'
termination_by l.workspace.arena.size

/-- Collects, and counts the entries that are dropped. -/
def collect (order : Arena → List Digest) (l : Ledger) : Nat × Ledger :=
  (l.workspace.arena.size - (l.settle order).workspace.arena.size, l.settle order)

/-! ## Commands -/

def perform (l : Ledger) : Command → Ledger
  | .put name recipe =>
    match recipe.item? l.workspace with
    | some i => l.assign name i
    | none => l
  | .drop name => l.drop name
  | .freeze name target =>
    match l.workspace.item? name with
    | some (.working c) =>
      let (f, l) := l.freeze c
      (l.assign target (.frozen f)).release [f]
    | some (.frozen f) => l.assign target (.frozen f)
    | none => l
  | .intern name target =>
    match l.workspace.item? name with
    | some (.frozen f) =>
      let (g, l) := (l.acquire [f]).intern f
      (l.assign target (.frozen g)).release [g]
    | _ => l
  | .collect order => (l.collect order).2

/-- The ledger before the first command. -/
def start (r : Registry) : Ledger := ⟨.ofRegistry r, [], fun _ => 0⟩

/-- The ledger after some commands. -/
def after (r : Registry) (history : List Command) : Ledger := history.foldl perform (start r)

/-! ## Right counts -/

/-- The handles of the names and of the arena. -/
def roots (l : Ledger) : List Frozen := l.workspace.heldByItems ++ l.workspace.arena.codes

/-- The counts are right, where `hands` are the handles that are on their way from one place to
another. -/
structure Sound (l : Ledger) (hands : List Frozen) : Prop where
  heap : Heap l.workspace.serial l.objects
  known : hands ++ l.roots ⊆ l.objects
  balanced : Balanced l.objects (hands ++ l.roots) l.count
  /-- The arena has its objects at their digests. -/
  keyed : ∀ d f, l.workspace.arena.get? d = some f → f.digest = d
  pool : l.workspace.pool.held = []

variable {l : Ledger} {w : Workspace} {hands hands' fs : List Frozen} {name : String} {i : Item}
  {c : Code} {row : Row} {f g : Frozen} {d : Digest}

theorem sound_start (r : Registry) : (start r).Sound [] where
  heap := ⟨nofun, List.nodup_nil, nofun, nofun⟩
  known := nofun
  balanced := nofun
  keyed := nofun
  pool := rfl

/-- Handles are copied from others, which may be deep inside. -/
theorem Sound.acquire (h : l.Sound hands)
    (hfs : ∀ f ∈ fs, ∃ g ∈ hands ++ l.roots, f.Within g) : (l.acquire fs).Sound (fs ++ hands) where
  heap := h.heap
  known := by
    rw [List.append_assoc, List.append_subset]
    refine ⟨fun f hf => ?_, h.known⟩
    obtain ⟨g, hg, hin⟩ := hfs f hf
    exact h.heap.mem_of_within (h.known hg) hin
  balanced := by
    rw [List.append_assoc]
    refine h.balanced.acquireAll fun f hf => ?_
    obtain ⟨g, hg, hin⟩ := hfs f hf
    exact (h.balanced.pos_iff h.heap h.known (h.heap.mem_of_within (h.known hg) hin)).mpr
      ⟨g, hg, hin⟩
  keyed := h.keyed
  pool := h.pool

/-- A handle is copied. -/
theorem Sound.copy (h : l.Sound hands) (hf : f ∈ hands ++ l.roots) :
    (l.acquire [f]).Sound (f :: hands) :=
  h.acquire fun _ hd => ⟨f, hf, List.mem_singleton.mp hd ▸ .refl⟩

theorem Sound.release (h : l.Sound (fs ++ hands)) : (l.release fs).Sound hands := by
  have hknown := h.known
  have hbalanced := h.balanced
  rw [List.append_assoc] at hbalanced
  rw [List.append_assoc, List.append_subset] at hknown
  exact ⟨h.heap, hknown.2,
    hbalanced.releaseAll fun f hf _ _ hb => hb.release h.heap (hknown.1 hf), h.keyed, h.pool⟩

/-- Handles are passed on. -/
theorem Sound.pass (h : l.Sound hands) (hserial : w.serial = l.workspace.serial)
    (hperm : (hands ++ l.roots).Perm (hands' ++ (w.heldByItems ++ w.arena.codes)))
    (hkeyed : ∀ d f, w.arena.get? d = some f → f.digest = d) (hpool : w.pool.held = []) :
    ({ l with workspace := w } : Ledger).Sound hands' where
  heap := hserial ▸ h.heap
  known := fun _ hf => h.known (hperm.mem_iff.mpr hf)
  balanced := h.balanced.perm hperm
  keyed := hkeyed
  pool := hpool

/-! ## Names -/

theorem heldByItems_perm (l : Ledger) (name : String) :
    l.workspace.heldByItems.Perm (l.heldBy name ++ (l.workspace.drop name).heldByItems) := by
  unfold heldBy Workspace.heldByItems Workspace.drop Workspace.item?
  cases hget : l.workspace.items.get? name with
  | none =>
    rw [SortedMap.erase_of_get?_none hget]
    exact List.Perm.refl _
  | some i =>
    refine ((SortedMap.toList_perm_of_get? hget).flatMap_right _).trans ?_
    rw [Option.toList_some, List.flatMap_singleton]
    exact List.Perm.refl _

theorem heldByItems_define_perm (w : Workspace) (name : String) (i : Item) :
    (w.define name i).heldByItems.Perm (i.held ++ (w.drop name).heldByItems) :=
  (w.items.toList_insert_perm name i).flatMap_right _

theorem mem_roots_of_item (hi : l.workspace.item? name = some i) (hf : f ∈ i.held) :
    f ∈ l.roots := by
  refine List.mem_append_left _ ((heldByItems_perm l name).mem_iff.mpr (List.mem_append_left _ ?_))
  rwa [heldBy, hi, Option.toList_some, List.flatMap_singleton]

/-- Handles `new` come in exchange for handles `old`. -/
theorem exchange_perm {items items' new old rest : List Frozen} (hands codes : List Frozen)
    (h : items.Perm (old ++ rest)) (h' : items'.Perm (new ++ rest)) :
    (new ++ hands ++ (items ++ codes)).Perm (old ++ hands ++ (items' ++ codes)) := by
  rw [← Multiset.coe_eq_coe] at h h' ⊢
  simp only [← Multiset.coe_add] at h h' ⊢
  rw [h, h']
  abel

theorem Sound.assign (h : l.Sound hands)
    (hi : ∀ f ∈ i.held, ∃ g ∈ hands ++ l.roots, f.Within g) : (l.assign name i).Sound hands :=
  Sound.release ((h.acquire hi).pass rfl (exchange_perm hands _ (heldByItems_perm l name)
    (heldByItems_define_perm l.workspace name i)) h.keyed h.pool)

theorem Sound.drop (h : l.Sound hands) : (l.drop name).Sound hands := by
  have hperm := exchange_perm hands l.workspace.arena.codes (heldByItems_perm l name)
    (List.Perm.refl ([] ++ (l.workspace.drop name).heldByItems))
  exact Sound.release (h.pass rfl hperm h.keyed h.pool)

/-! ## Objects -/

theorem Sound.freeze (h : l.Sound hands) (hc : ∀ f ∈ c.subs, ∃ g ∈ hands ++ l.roots, f.Within g) :
    (l.freeze c).2.Sound ((l.freeze c).1 :: hands) := by
  have hacquire := h.acquire hc
  have hknown := hacquire.known
  have hbalanced := hacquire.balanced
  rw [List.append_assoc] at hbalanced
  rw [List.append_assoc, List.append_subset] at hknown
  exact {
    heap := h.heap.make rfl hknown.1
    known := List.cons_subset.mpr
      ⟨List.mem_cons_self, List.Subset.trans h.known (List.subset_cons_self _ _)⟩
    balanced := hbalanced.make h.heap h.known rfl hknown.1
    keyed := h.keyed
    pool := h.pool }

/-! ## The arena -/

/-- A handle comes out of the arena. -/
theorem store_perm {codes codes' : List Frozen} (hands items : List Frozen)
    (h : codes.Perm (f :: codes')) :
    (hands ++ (items ++ codes)).Perm (f :: hands ++ (items ++ codes')) :=
  ((h.append_left items).trans List.perm_middle).append_left hands |>.trans List.perm_middle

theorem codes_erase_perm {a : Arena} (h : a.get? d = some f) :
    a.codes.Perm (f :: (⟨a.entries.erase d⟩ : Arena).codes) :=
  (SortedMap.toList_perm_of_get? h).map Prod.snd

theorem codes_insert_perm {a : Arena} (h : a.get? f.digest = none) :
    (⟨a.entries.insert f.digest f⟩ : Arena).codes.Perm (f :: a.codes) := by
  have hinsert := (a.entries.toList_insert_perm f.digest f).map Prod.snd
  rwa [SortedMap.erase_of_get?_none h] at hinsert

theorem Sound.intern (h : l.Sound (f :: hands)) :
    (l.intern f).2.Sound ((l.intern f).1 :: hands) := by
  unfold Ledger.intern Workspace.intern Arena.intern
  cases hget : l.workspace.arena.get? f.digest with
  | some g =>
    have hcontains : l.workspace.arena.contains f.digest = true :=
      Option.isSome_iff_exists.mpr ⟨g, hget⟩
    simp only [hcontains, if_true]
    have hcopy : (l.acquire [g]).Sound (g :: f :: hands) := h.copy
      (List.mem_append_right _ (List.mem_append_right _ (Arena.mem_codes.mpr ⟨_, hget⟩)))
    have hswap : (l.acquire [g]).Sound ([f] ++ g :: hands) :=
      hcopy.pass rfl ((List.Perm.swap f g hands).append_right _) h.keyed h.pool
    exact hswap.release
  | none =>
    have hcontains : l.workspace.arena.contains f.digest = false :=
      Option.isSome_eq_false_iff.mpr (Option.isNone_iff_eq_none.mpr hget)
    simp only [hcontains, Bool.false_eq_true, if_false]
    have hcopy := h.copy (List.mem_append_left l.roots List.mem_cons_self)
    refine hcopy.pass rfl ?_ (fun d g hg => ?_) h.pool
    · exact (store_perm (f :: hands) _ (codes_insert_perm hget)).symm
    · rw [Arena.get?, SortedMap.get?_insert] at hg
      split at hg
      · rename_i hd
        rw [hd, Option.some.inj hg]
      · exact h.keyed d g hg

theorem Sound.visit (h : l.Sound hands) : (l.visit d).Sound hands := by
  unfold Ledger.visit
  cases hget : l.workspace.arena.get? d with
  | none => exact h
  | some f =>
    dsimp only
    split
    · exact h
    · refine Sound.release (h.pass rfl (store_perm hands _ (codes_erase_perm hget))
        (fun d' g hg => ?_) h.pool)
      rw [Arena.get?_erase] at hg
      split at hg
      · cases hg
      · exact h.keyed d' g hg

theorem Sound.sweep (h : l.Sound hands) (ds : List Digest) : (l.sweep ds).Sound hands := by
  induction ds generalizing l with
  | nil => exact h
  | cons d ds ih => exact ih h.visit

theorem Sound.settle (h : l.Sound hands) (order : Arena → List Digest) :
    (l.settle order).Sound hands := by
  induction l using settle.induct order with
  | case1 l l' hlt ih =>
    rw [Ledger.settle, if_pos hlt]
    exact ih (h.sweep _)
  | case2 l l' hlt =>
    rw [Ledger.settle, if_neg hlt]
    exact h.sweep _

/-! ## Histories -/

/-- The sub-codes of what a name stands for can be reached from the names. -/
theorem within_of_subs (hi : l.workspace.item? name = some i) (hf : f ∈ i.code.subs) :
    ∃ g ∈ l.roots, f.Within g := by
  cases i with
  | working c => exact ⟨f, mem_roots_of_item hi hf, .refl⟩
  | frozen g => exact ⟨g, mem_roots_of_item hi (List.mem_singleton_self g), .inside hf .refl⟩

theorem mem_subs_attach {o : Option Frozen} (h : f ∈ (c.attach row o).subs) :
    o = some f ∨ f ∈ c.subs := by
  simp only [Code.subs, List.mem_append, Option.mem_toList] at h ⊢
  cases row with
  | A => exact h.imp_right Or.inr
  | B => exact h.symm.imp_right Or.inl
  | _ => exact Or.inr h

/-- A recipe has no other handles than those that can be reached. -/
theorem within_of_recipe {recipe : Recipe} (h : recipe.item? l.workspace = some i)
    (hf : f ∈ i.held) : ∃ g ∈ l.roots, f.Within g := by
  cases recipe with
  | create g =>
    obtain rfl := Option.some.inj h
    cases hf
  | copy name => exact ⟨f, mem_roots_of_item h hf, .refl⟩
  | thaw name | edit name g =>
    obtain ⟨j, hj, rfl⟩ := Option.map_eq_some_iff.mp h
    exact within_of_subs hj hf
  | place name row sub =>
    unfold Recipe.item? at h
    dsimp only at h
    split at h
    · rename_i j g hj hg
      obtain rfl := Option.some.inj h
      rcases mem_subs_attach hf with hf | hf
      · obtain rfl := Option.some.inj hf
        exact ⟨g, mem_roots_of_item hg (List.mem_singleton_self g), .refl⟩
      · exact within_of_subs hj hf
    · cases h
  | clear name row =>
    obtain ⟨j, hj, rfl⟩ := Option.map_eq_some_iff.mp h
    rcases mem_subs_attach hf with hf | hf
    · cases hf
    · exact within_of_subs hj hf
  | lift name row =>
    obtain ⟨j, hj, hsub⟩ := Option.bind_eq_some_iff.mp h
    obtain ⟨g, hg, rfl⟩ := Option.map_eq_some_iff.mp hsub
    obtain rfl := List.mem_singleton.mp hf
    exact within_of_subs hj (Code.mem_subs.mpr ⟨row, hg⟩)
  | get d =>
    obtain ⟨g, hg, rfl⟩ := Option.map_eq_some_iff.mp h
    obtain rfl := List.mem_singleton.mp hf
    exact ⟨f, List.mem_append_right _ (Arena.mem_codes.mpr ⟨d, hg⟩), .refl⟩

/-- The handle at hand is given to a name. -/
theorem Sound.give (h : l.Sound (f :: hands)) :
    ((l.assign name (.frozen f)).release [f]).Sound hands :=
  Sound.release (h.assign fun _ hd => ⟨f, List.mem_cons_self, List.mem_singleton.mp hd ▸ .refl⟩)

/-- Every command keeps the counts right. -/
theorem Sound.perform (h : l.Sound []) (command : Command) : (l.perform command).Sound [] := by
  cases command with
  | put name recipe =>
    rw [Ledger.perform]
    split
    · rename_i i hi
      exact h.assign fun f hf => within_of_recipe hi hf
    · exact h
  | drop name => exact h.drop
  | freeze name target =>
    rw [Ledger.perform]
    split
    · rename_i c hitem
      exact (h.freeze fun f hf => within_of_subs hitem hf).give
    · rename_i f hitem
      exact h.assign fun d hd => ⟨d, mem_roots_of_item hitem hd, .refl⟩
    · exact h
  | intern name target =>
    rw [Ledger.perform]
    split
    · rename_i f hitem
      exact (h.copy (mem_roots_of_item hitem (List.mem_singleton_self f))).intern.give
    · exact h
  | collect order => exact h.settle order

theorem Sound.objects_known (h : l.Sound []) : l.workspace.heldByItems ⊆ l.objects ∧
    l.workspace.arena.codes ⊆ l.objects := by
  have hknown := h.known
  rwa [List.nil_append, roots, List.append_subset] at hknown

/-- Whatever was done, the counts are right. -/
theorem sound_after (r : Registry) (history : List Command) : (after r history).Sound [] := by
  have hfold : ∀ l : Ledger, l.Sound [] → (history.foldl Ledger.perform l).Sound [] := by
    induction history with
    | nil => exact fun l h => h
    | cons command history ih => exact fun l h => ih _ (h.perform command)
  exact hfold _ (sound_start r)

end Ledger

end GeneGraph
