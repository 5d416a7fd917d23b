import GeneGraph.Proofs.Reach
import Mathlib.Logic.Function.Basic

/-!
# Counting handles

An object is shared by counting the handles to it. A handle is acquired by counting one more, and
given up by counting one less (`Frozen.release`); with the last handle the object goes, and gives
up the handles in its slots.

The counts are right if they are `Balanced`: each object has as many handles as are counted, in
the hands of the program and in the slots of the objects that are still there. Making an object,
acquiring a handle and giving one up keep the balance, and in balance an object is still there
exactly if the program can reach it (`Balanced.pos_iff`): objects hold older ones only, so none
keeps itself alive.
-/

namespace GeneGraph

/-! ## Counts -/

/-- How many handles there are to the object with a serial number. -/
abbrev Counts := Nat → Nat

/-- Counts one more handle. -/
def Counts.acquire (n : Counts) (f : Frozen) : Counts :=
  Function.update n f.serial (n f.serial + 1)

mutual

/-- Counts one handle less. If there is none left, the handles in the slots are given up, too. -/
def Frozen.release (n : Counts) : Frozen → Counts
  | ⟨serial, _, _, subA, subB⟩ =>
    let n := Function.update n serial (n serial - 1)
    if n serial = 0 then releaseSub (releaseSub n subA) subB else n

/-- Gives up the handle in a slot, if there is one. -/
def releaseSub (n : Counts) : Option Frozen → Counts
  | none => n
  | some f => f.release n

end

theorem Frozen.release_eq (f : Frozen) (n : Counts) : f.release n =
    if n f.serial - 1 = 0 then f.subs.foldl Frozen.release (Function.update n f.serial 0)
    else Function.update n f.serial (n f.serial - 1) := by
  obtain ⟨serial, digest, graph, subA, subB⟩ := f
  simp only [release, Function.update_self]
  split
  · rename_i hlast
    rw [hlast]
    cases subA <;> cases subB <;> rfl
  · rfl

/-! ## Handles -/

/-- The number of handles to the object of `f`. -/
def handlesTo (f : Frozen) (hs : List Frozen) : Nat := hs.countP fun g => f.serial = g.serial

/-- The handles in the slots of the objects that are still there. -/
def Counts.slots (n : Counts) (objects : List Frozen) : List Frozen :=
  (objects.filter fun f => 0 < n f.serial).flatMap Frozen.subs

/-- Each object has as many handles as are counted; those of the program are `roots`. -/
def Balanced (objects roots : List Frozen) (n : Counts) : Prop :=
  ∀ f ∈ objects, n f.serial = handlesTo f roots + handlesTo f (n.slots objects)

variable {next : Nat} {objects roots roots' hs hs' ds : List Frozen} {d f g : Frozen} {n : Counts}
  {k v : Nat}

theorem handlesTo_cons (f g : Frozen) (hs : List Frozen) :
    handlesTo f (g :: hs) = handlesTo f hs + if f.serial = g.serial then 1 else 0 := by
  rw [handlesTo, List.countP_cons]
  simp only [decide_eq_true_eq]
  rfl

theorem handlesTo_append (f : Frozen) (hs hs' : List Frozen) :
    handlesTo f (hs ++ hs') = handlesTo f hs + handlesTo f hs' := List.countP_append

theorem handlesTo_perm (f : Frozen) (h : hs.Perm hs') : handlesTo f hs = handlesTo f hs' :=
  h.countP_eq _

theorem handlesTo_pos_iff (h : Heap next objects) (hhs : hs ⊆ objects) (hf : f ∈ objects) :
    0 < handlesTo f hs ↔ f ∈ hs := by
  rw [handlesTo, List.countP_pos_iff]
  simp only [decide_eq_true_eq]
  constructor
  · rintro ⟨g, hg, hserial⟩
    exact h.eq_of_serial hf (hhs hg) hserial ▸ hg
  · exact fun hmem => ⟨f, hmem, rfl⟩

/-- There is no handle yet to an object that is made next. -/
theorem handlesTo_next (h : Heap next objects) (hhs : hs ⊆ objects) (hf : f.serial = next) :
    handlesTo f hs = 0 := by
  rw [handlesTo, List.countP_eq_zero]
  intro g hg
  have hlt := h.serial_lt g (hhs hg)
  simp only [decide_eq_true_eq]
  omega

theorem mem_slots : d ∈ n.slots objects ↔ ∃ f ∈ objects, 0 < n f.serial ∧ d ∈ f.subs := by
  simp only [Counts.slots, List.mem_flatMap, List.mem_filter, decide_eq_true_eq, and_assoc]

theorem slots_subset (h : Heap next objects) : n.slots objects ⊆ objects := by
  intro d hd
  obtain ⟨f, hf, -, hd⟩ := mem_slots.mp hd
  exact h.mem_of_subs f hf d hd

/-- There is a handle if it is in the hands of the program or in a slot. -/
theorem handles_pos_iff (h : Heap next objects) (hroots : roots ⊆ objects) (hf : f ∈ objects) :
    0 < handlesTo f roots + handlesTo f (n.slots objects) ↔
      f ∈ roots ∨ f ∈ n.slots objects := by
  rw [Nat.add_pos_iff_pos_or_pos, handlesTo_pos_iff h hroots hf,
    handlesTo_pos_iff h (slots_subset h) hf]

/-- Slots change only if a count becomes zero or does not stay zero. -/
theorem slots_update (h : 0 < v ↔ 0 < n k) :
    Counts.slots (Function.update n k v) objects = n.slots objects := by
  unfold Counts.slots
  congr 2
  funext f
  by_cases hk : f.serial = k
  · rw [hk, Function.update_self, decide_eq_decide]
    exact h
  · rw [Function.update_of_ne hk]

theorem slots_update_of_not_mem (h : ∀ f ∈ objects, f.serial ≠ k) :
    Counts.slots (Function.update n k v) objects = n.slots objects := by
  unfold Counts.slots
  congr 1
  refine List.filter_congr fun f hf => ?_
  rw [Function.update_of_ne (h f hf)]

/-- The slots of an object that goes are no longer there. -/
theorem slots_perm (h : Heap next objects) (hf : f ∈ objects) (hn : 0 < n f.serial) :
    (n.slots objects).Perm
      (f.subs ++ Counts.slots (Function.update n f.serial 0) objects) := by
  obtain ⟨pre, post, rfl⟩ := List.append_of_mem hf
  have hnodup := h.nodup
  rw [List.map_append, List.map_cons, List.nodup_middle, List.nodup_cons, List.mem_append,
    not_or] at hnodup
  have hpre : ∀ g ∈ pre, g.serial ≠ f.serial := fun g hg he =>
    hnodup.1.1 (List.mem_map.mpr ⟨g, hg, he⟩)
  have hpost : ∀ g ∈ post, g.serial ≠ f.serial := fun g hg he =>
    hnodup.1.2 (List.mem_map.mpr ⟨g, hg, he⟩)
  have hsplit : ∀ m : Counts, m.slots (pre ++ f :: post) =
      m.slots pre ++ ((if 0 < m f.serial then f.subs else []) ++ m.slots post) := by
    intro m
    simp only [Counts.slots, List.filter_append, List.filter_cons, decide_eq_true_eq,
      List.flatMap_append]
    split <;> simp
  rw [hsplit, hsplit, if_pos hn, Function.update_self, if_neg (Nat.lt_irrefl 0),
    slots_update_of_not_mem hpre, slots_update_of_not_mem hpost, List.nil_append]
  exact List.perm_append_comm_assoc ..

namespace Balanced

theorem perm (h : Balanced objects roots n) (hroots : roots.Perm roots') :
    Balanced objects roots' n := fun f hf => by
  rw [← handlesTo_perm f hroots]
  exact h f hf

/-- The objects that are still there are those that the program can reach. -/
theorem pos_iff (hb : Balanced objects roots n) (h : Heap next objects) (hroots : roots ⊆ objects)
    (hf : f ∈ objects) : 0 < n f.serial ↔ ∃ g ∈ roots, f.Within g := by
  have hlive : ∀ f ∈ objects, 0 < n f.serial ↔ f ∈ roots ∨ f ∈ n.slots objects := fun f hf => by
    rw [hb f hf, handles_pos_iff h hroots hf]
  constructor
  · refine h.newest_first (P := fun f => 0 < n f.serial → ∃ g ∈ roots, f.Within g)
      (fun f hf ih hpos => ?_) f hf
    rcases (hlive f hf).mp hpos with hroot | hslot
    · exact ⟨f, hroot, .refl⟩
    · obtain ⟨p, hp, hpos, hsub⟩ := mem_slots.mp hslot
      obtain ⟨g, hg, hin⟩ := ih p hp (h.subs_lt p hp f hsub) hpos
      exact ⟨g, hg, (Frozen.Within.inside hsub .refl).trans hin⟩
  · rintro ⟨g, hg, hin⟩
    have hobject := hroots hg
    have hpos := (hlive g hobject).mpr (Or.inl hg)
    clear hg
    induction hin with
    | refl => exact hpos
    | inside he _ ih =>
      have hmem := h.mem_of_subs _ hobject _ he
      exact ih hmem ((hlive _ hmem).mpr (Or.inr (mem_slots.mpr ⟨_, hobject, hpos, he⟩)))

/-- There is a second handle to an object if the program has one, or if it can reach a code with
one in a slot. -/
theorem one_lt_iff (hb : Balanced objects (f :: roots) n) (h : Heap next objects)
    (hroots : f :: roots ⊆ objects) :
    1 < n f.serial ↔ f ∈ roots ∨ ∃ g ∈ f :: roots, ∃ e ∈ g.subs, f.Within e := by
  obtain ⟨hf, hrest⟩ := List.cons_subset.mp hroots
  have hcount := hb f hf
  rw [handlesTo_cons, if_pos rfl] at hcount
  have hslot : f ∈ n.slots objects ↔ ∃ g ∈ f :: roots, ∃ e ∈ g.subs, f.Within e := by
    rw [mem_slots]
    constructor
    · rintro ⟨p, hp, hpos, hsub⟩
      obtain ⟨g, hg, hin⟩ := (hb.pos_iff h hroots hp).mp hpos
      exact ⟨g, hg, Frozen.within_sub_iff.mp ⟨p, hin, hsub⟩⟩
    · rintro ⟨g, hg, hin⟩
      obtain ⟨p, hin, hsub⟩ := Frozen.within_sub_iff.mpr hin
      have hp := h.mem_of_within (hroots hg) hin
      exact ⟨p, hp, (hb.pos_iff h hroots hp).mpr ⟨g, hg, hin⟩, hsub⟩
  rw [← hslot, ← handles_pos_iff h hrest hf]
  omega

/-- A handle is copied. -/
theorem acquire (hb : Balanced objects roots n) (hf : 0 < n f.serial) :
    Balanced objects (f :: roots) (n.acquire f) := by
  intro g hg
  have hcount := hb g hg
  rw [Counts.acquire, slots_update (by omega), handlesTo_cons, Function.update_apply]
  split
  · rename_i he
    rw [← he]
    omega
  · omega

theorem acquireAll (hb : Balanced objects roots n) (hds : ∀ d ∈ ds, 0 < n d.serial) :
    Balanced objects (ds ++ roots) (ds.foldl Counts.acquire n) := by
  induction ds generalizing roots n with
  | nil => exact hb
  | cons d ds ih =>
    have hd := hds d List.mem_cons_self
    refine (ih (hb.acquire hd) fun e he => ?_).perm List.perm_middle
    have hpos := hds e (List.mem_cons_of_mem d he)
    rw [Counts.acquire, Function.update_apply]
    split
    · exact Nat.succ_pos _
    · exact hpos

/-- Handles are given up one after another. -/
theorem releaseAll (hb : Balanced objects (ds ++ roots) n)
    (hrelease : ∀ d ∈ ds, ∀ roots n, Balanced objects (d :: roots) n →
      Balanced objects roots (d.release n)) :
    Balanced objects roots (ds.foldl Frozen.release n) := by
  induction ds generalizing n with
  | nil => exact hb
  | cons d ds ih =>
    exact ih (hrelease d List.mem_cons_self _ _ hb) fun e he =>
      hrelease e (List.mem_cons_of_mem d he)

/-- A handle is given up. -/
theorem release (hb : Balanced objects (f :: roots) n) (h : Heap next objects)
    (hf : f ∈ objects) : Balanced objects roots (f.release n) := by
  induction f using Frozen.subs_induction generalizing roots n with
  | _ f ih =>
    have hpos : 0 < n f.serial := by
      rw [hb f hf, handlesTo_cons, if_pos rfl]
      omega
    rw [f.release_eq]
    split
    · rename_i hlast
      -- The handles in the slots are now in the hands of the program, which gives them up.
      have hsubs : Balanced objects (f.subs ++ roots) (Function.update n f.serial 0) := by
        intro g hg
        have hcount := hb g hg
        rw [handlesTo_cons, handlesTo_perm g (slots_perm h hf hpos), handlesTo_append] at hcount
        rw [handlesTo_append, Function.update_apply]
        split at hcount
        · rename_i he
          rw [if_pos he]
          rw [he] at hcount
          omega
        · rename_i he
          rw [if_neg he]
          omega
      exact hsubs.releaseAll fun d hd roots n hb => ih d hd hb (h.mem_of_subs f hf d hd)
    · intro g hg
      have hcount := hb g hg
      rw [handlesTo_cons] at hcount
      rw [slots_update (by omega), Function.update_apply]
      split at hcount
      · rename_i he
        rw [if_pos he]
        rw [he] at hcount
        omega
      · rename_i he
        rw [if_neg he]
        omega

/-- An object is made: the handles to its sub-codes go into its slots. -/
theorem make (hb : Balanced objects (f.subs ++ roots) n) (h : Heap next objects)
    (hroots : roots ⊆ objects) (hserial : f.serial = next) (hsubs : f.subs ⊆ objects) :
    Balanced (f :: objects) (f :: roots) (Function.update n f.serial 1) := by
  have hslots : Counts.slots (Function.update n f.serial 1) (f :: objects) =
      f.subs ++ n.slots objects := by
    have hne : ∀ g ∈ objects, g.serial ≠ f.serial := fun g hg =>
      Nat.ne_of_lt (hserial ▸ h.serial_lt g hg)
    rw [← slots_update_of_not_mem (n := n) (v := 1) hne]
    simp only [Counts.slots, List.filter_cons, Function.update_self, Nat.one_pos, decide_true,
      if_true, List.flatMap_cons]
  intro g hg
  rw [hslots, handlesTo_cons, handlesTo_append]
  rcases List.mem_cons.mp hg with rfl | hg
  · rw [Function.update_self, if_pos rfl, handlesTo_next h hroots hserial,
      handlesTo_next h hsubs hserial, handlesTo_next h (slots_subset h) hserial]
  · have hne : g.serial ≠ f.serial := Nat.ne_of_lt (hserial ▸ h.serial_lt g hg)
    rw [Function.update_of_ne hne, if_neg hne, hb g hg, handlesTo_append]
    omega

end Balanced

theorem Heap.make (h : Heap next objects) (hserial : f.serial = next) (hsubs : f.subs ⊆ objects) :
    Heap (next + 1) (f :: objects) where
  serial_lt := by
    intro g hg
    rcases List.mem_cons.mp hg with rfl | hg
    · omega
    · exact Nat.lt_succ_of_lt (h.serial_lt g hg)
  nodup := by
    rw [List.map_cons, List.nodup_cons]
    refine ⟨fun hmem => ?_, h.nodup⟩
    obtain ⟨g, hg, he⟩ := List.mem_map.mp hmem
    have hlt := h.serial_lt g hg
    omega
  mem_of_subs := by
    intro g hg d hd
    rcases List.mem_cons.mp hg with rfl | hg
    · exact List.mem_cons_of_mem _ (hsubs hd)
    · exact List.mem_cons_of_mem _ (h.mem_of_subs g hg d hd)
  subs_lt := by
    intro g hg d hd
    rcases List.mem_cons.mp hg with rfl | hg
    · exact hserial ▸ h.serial_lt d (hsubs hd)
    · exact h.subs_lt g hg d hd

end GeneGraph
