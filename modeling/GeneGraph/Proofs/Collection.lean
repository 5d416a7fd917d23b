import GeneGraph.Proofs.Ledger

/-!
# Collections keep what can be reached

A collection that goes by the counts drops an entry if there is no second handle to its object.
As the counts are right, there is one exactly if the object is held (`Ledger.one_lt_count_iff`),
so each visit does what the arena of a workspace does. `Ledger.collection_keeps_reachable`: after
any history, and in whatever order the entries are visited, a collection leaves the entries whose
objects can be reached from the names.
-/

namespace GeneGraph

namespace Arena

variable {a b : Arena}

theorem ext_get? (h : ∀ d, a.get? d = b.get? d) : a = b :=
  congrArg Arena.mk (SortedMap.ext h)

/-- The entries that are dropped are as many as the arena gets smaller. -/
theorem size_sub_size (h : ∀ d f, b.get? d = some f → a.get? d = some f) :
    a.size - b.size = (a.digests.filter fun d => !b.contains d).length := by
  have hkept : b.digests.Perm (a.digests.filter b.contains) := by
    refine (List.perm_ext_iff_of_nodup b.entries.nodup_keys
      (a.entries.nodup_keys.filter _)).mpr fun d => ?_
    rw [List.mem_filter]
    constructor
    · intro hd
      have hb := SortedMap.mem_keys.mp hd
      obtain ⟨f, hf⟩ := Option.isSome_iff_exists.mp hb
      exact ⟨SortedMap.mem_keys.mpr (Option.isSome_iff_exists.mpr ⟨f, h d f hf⟩), hb⟩
    · exact fun hd => SortedMap.mem_keys.mpr hd.2
  have hsplit := List.length_eq_length_filter_add (l := a.digests) b.contains
  have hsize : ∀ a : Arena, a.digests.length = a.size := fun a => List.length_map ..
  rw [hsize, ← hkept.length_eq, hsize] at hsplit
  omega

end Arena

namespace Ledger

variable {l : Ledger} {order : Arena → List Digest} {d : Digest} {f : Frozen}

/-- The arena has an object at its digest only. -/
theorem not_mem_codes_erase (h : l.Sound []) (hget : l.workspace.arena.get? d = some f) :
    f ∉ (⟨l.workspace.arena.entries.erase d⟩ : Arena).codes := by
  intro hf
  obtain ⟨d', hd'⟩ := Arena.mem_codes.mp hf
  rw [Arena.get?_erase] at hd'
  split at hd'
  · cases hd'
  · rename_i hne
    exact hne ((h.keyed d' f hd').symm.trans (h.keyed d f hget))

/-- There is a second handle to the object of an entry exactly if it is held. -/
theorem one_lt_count_iff (h : l.Sound []) (hget : l.workspace.arena.get? d = some f) :
    1 < l.count f.serial ↔ l.workspace.arena.isHeld l.workspace.heldByItems f = true := by
  obtain ⟨hitems, hcodes⟩ := h.objects_known
  have hmem : f ∈ l.objects := hcodes (Arena.mem_codes.mpr ⟨d, hget⟩)
  have hperm : l.roots.Perm (f :: (l.workspace.heldByItems ++
      (⟨l.workspace.arena.entries.erase d⟩ : Arena).codes)) :=
    store_perm [] _ (codes_erase_perm hget)
  rw [(h.balanced.perm hperm).one_lt_iff h.heap fun g hg => h.known (hperm.mem_iff.mpr hg),
    Arena.isHeld_iff h.heap hitems hcodes hmem, List.mem_append,
    or_iff_left (not_mem_codes_erase h hget)]
  simp only [← hperm.mem_iff]
  simp only [roots, List.mem_append, or_and_right, exists_or, ← or_assoc]
  refine or_congr_left ⟨?_, ?_⟩
  · rintro (hf | ⟨g, hg, e, he, hin⟩)
    · exact ⟨f, hf, .refl⟩
    · exact ⟨g, hg, .inside he hin⟩
  · rintro ⟨g, hg, hin⟩
    cases hin with
    | refl => exact Or.inl hg
    | inside he hin => exact Or.inr ⟨g, hg, _, he, hin⟩

/-- A visit by the counts does what the arena does. -/
theorem workspace_visit (h : l.Sound []) (d : Digest) : (l.visit d).workspace =
    { l.workspace with arena := l.workspace.arena.visit l.workspace.heldByItems d } := by
  unfold visit Arena.visit
  cases hget : l.workspace.arena.get? d with
  | none => rfl
  | some f =>
    dsimp only
    by_cases hcount : 1 < l.count f.serial
    · rw [if_pos hcount, if_pos ((one_lt_count_iff h hget).mp hcount)]
    · rw [if_neg hcount, if_neg fun hheld => hcount ((one_lt_count_iff h hget).mpr hheld)]
      rfl

theorem workspace_sweep (h : l.Sound []) (ds : List Digest) : (l.sweep ds).workspace =
    { l.workspace with arena := l.workspace.arena.sweep l.workspace.heldByItems ds } := by
  induction ds generalizing l with
  | nil => rfl
  | cons d ds ih =>
    refine (ih h.visit).trans ?_
    rw [workspace_visit h d]
    rfl

theorem workspace_settle (h : l.Sound []) (order : Arena → List Digest) :
    (l.settle order).workspace = { l.workspace with
      arena := l.workspace.arena.collectIn order l.workspace.heldByItems } := by
  induction l using settle.induct order with
  | case1 l l' hlt ih =>
    have hsweep := workspace_sweep h (order l.workspace.arena)
    rw [settle, if_pos hlt, Arena.collectIn, if_pos (by rw [hsweep] at hlt; exact hlt),
      ih (h.sweep _), hsweep]
    rfl
  | case2 l l' hlt =>
    have hsweep := workspace_sweep h (order l.workspace.arena)
    rw [settle, if_neg hlt, Arena.collectIn, if_neg (by rw [hsweep] at hlt; exact hlt), hsweep]

/-- After any history, a collection that goes by the counts of handles keeps exactly the entries
whose objects can be reached from the names, and answers with the number of the others. The order
of the visits does not matter: the outcome is that of the collection of the workspace. -/
theorem collection_keeps_reachable (r : Registry) (history : List Command)
    (horder : Arena.Covers order) :
    let l := after r history
    let w := l.workspace
    ((l.collect order).1, (l.collect order).2.workspace) = w.collect ∧
      (∀ d f, w.collect.2.arena.get? d = some f ↔
        w.arena.get? d = some f ∧ ∃ g ∈ w.heldByItems, f.Within g) ∧
      w.collect.1 = (w.arena.digests.filter fun d => !w.collect.2.arena.contains d).length := by
  intro l w
  have h : l.Sound [] := sound_after r history
  obtain ⟨hitems, hcodes⟩ := h.objects_known
  have hget : ∀ {order}, Arena.Covers order → ∀ d f,
      (w.arena.collectIn order w.heldByItems).get? d = some f ↔
        w.arena.get? d = some f ∧ ∃ g ∈ w.heldByItems, f.Within g :=
    fun horder d f => Arena.get?_collectIn h.heap hitems horder hcodes
  have hdigests : Arena.Covers Arena.digests := fun _ _ hd => hd
  have hcollect : w.collect = (w.arena.size - (w.arena.collectIn Arena.digests w.heldByItems).size,
      { w with arena := w.arena.collectIn Arena.digests w.heldByItems }) := by
    rw [Workspace.collect, show w.pool.held = [] from h.pool, List.append_nil,
      Arena.collect_eq_collectIn]
  have hsame : w.arena.collectIn order w.heldByItems =
      w.arena.collectIn Arena.digests w.heldByItems := by
    refine Arena.ext_get? fun d => Option.ext fun f => ?_
    rw [hget horder, hget hdigests]
  rw [hcollect]
  refine ⟨?_, hget hdigests, Arena.size_sub_size fun d f hf => ((hget hdigests d f).mp hf).1⟩
  rw [Ledger.collect, workspace_settle h order]
  show (w.arena.size - (w.arena.collectIn order w.heldByItems).size,
    ({ w with arena := w.arena.collectIn order w.heldByItems } : Workspace)) = _
  rw [hsame]

/-- A history: a code is interned, and so is another one with the first one in row A; the first
one is frozen once more, and of the frozen codes only this twin keeps its name. -/
def twinHistory : List Command :=
  [.put "c" (.create (.ofKind .empty)), .freeze "c" "child", .intern "child" "child",
    .put "p" (.create (.ofKind .standard)), .put "p" (.place "p" .A "child"),
    .freeze "p" "parent", .intern "parent" "parent", .freeze "c" "twin", .drop "child",
    .drop "p", .drop "parent"]

/-- Both entries are dropped, whichever is visited first: the twin is another object. -/
theorem collection_keeps_reachable_twin :
    let l := after .empty twinHistory
    let order := fun a : Arena => a.digests.reverse
    Arena.Covers order ∧
      ((l.collect order).1, (l.collect order).2.workspace) = l.workspace.collect ∧
      l.workspace.collect.1 = 2 := by
  intro l order
  have horder : Arena.Covers order := fun _ _ hd => List.mem_reverse.mpr hd
  exact ⟨horder, (collection_keeps_reachable .empty twinHistory horder).1, by decide +kernel⟩

end Ledger

end GeneGraph
