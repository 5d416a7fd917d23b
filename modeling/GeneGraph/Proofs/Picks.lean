import GeneGraph.Proofs.Period
import Mathlib.Data.Int.CardIntervalMod
import Mathlib.Data.Set.Card

/-!
# Drawing indices without bias

A word is accepted for an index below `n` if it lies below `Prng.limit n`, which is a multiple of
`n`. So every index is had from equally many words (`Prng.fair_pick?`). The next multiple is not
below 2⁶⁴, so there are at most `n` words that are rejected.

Which words come is another matter: a search for an accepted one might never end. It does end,
because every state but zero is on the way to the state `Prng.one`, whose word is accepted
(`Prng.exists_pick`). So drawing an index, a number of a range or an item of a list always gives
one (`Prng.picks_unbiased`).
-/

namespace GeneGraph.Prng

variable {n k k' w : UInt64} {g g' g'' : Prng}

/-! ## What words are taken for -/

/-- The index below `n` that a word is taken for, if it is accepted, in words of 64 bits: for a
power of two the low bits, otherwise the remainder. -/
def pick? (n w : UInt64) : Option UInt64 :=
  if n.toNat = 2 ^ n.toNat.log2 then some (w &&& (n - 1))
  else if w < 0xFFFFFFFFFFFFFFFF - 0xFFFFFFFFFFFFFFFF % n then some (w % n)
  else none

/-- The words below this bound are accepted. -/
def limit (n : Nat) : Nat := if n = 2 ^ n.log2 then 2 ^ 64 else bound n

theorem toNat_pos (hn : n ≠ 0) : 0 < n.toNat :=
  Nat.pos_of_ne_zero fun h => hn (UInt64.toNat_inj.mp h)

theorem dvd_limit {n : Nat} (hlt : n < 2 ^ 64) : n ∣ limit n := by
  unfold limit
  split
  · rename_i hpow
    rw [hpow] at hlt ⊢
    exact Nat.pow_dvd_pow 2 (Nat.le_of_lt ((Nat.pow_lt_pow_iff_right (by decide)).mp hlt))
  · exact Nat.dvd_sub_mod _

theorem limit_le (n : Nat) : limit n ≤ 2 ^ 64 := by
  unfold limit bound
  split <;> omega

/-- The words that are rejected are fewer than a run of `n`, or as many. -/
theorem le_limit_add {n : Nat} (hn : 0 < n) : 2 ^ 64 ≤ limit n + n := by
  have hmod := Nat.mod_lt 0xFFFFFFFFFFFFFFFF hn
  unfold limit bound
  split <;> omega

/-- At least half of the words are accepted. -/
theorem two_pow_63_le_limit {n : Nat} (hn : 0 < n) (hlt : n < 2 ^ 64) : 2 ^ 63 ≤ limit n := by
  rcases Nat.lt_or_ge (2 ^ 63) n with hbig | hsmall
  · have hmod : 0xFFFFFFFFFFFFFFFF % n = 0xFFFFFFFFFFFFFFFF - n := by
      rw [Nat.mod_eq_sub_mod (by omega), Nat.mod_eq_of_lt (by omega)]
    unfold limit bound
    split <;> omega
  · have hadd := le_limit_add hn
    omega

/-- The low bits are the remainder by a power of two. -/
theorem and_pred_eq_mod (hn : n ≠ 0) (hpow : n.toNat = 2 ^ n.toNat.log2) (w : UInt64) :
    w &&& (n - 1) = w % n := by
  apply UInt64.toNat_inj.mp
  have hpred : (n - 1).toNat = n.toNat - 1 :=
    UInt64.toNat_sub_of_le _ _ (UInt64.le_iff_toNat_le.mpr (toNat_pos hn))
  rw [UInt64.toNat_and, UInt64.toNat_mod, hpred, hpow, Nat.and_two_pow_sub_one_eq_mod]

theorem toNat_bound (n : UInt64) :
    (0xFFFFFFFFFFFFFFFF - 0xFFFFFFFFFFFFFFFF % n : UInt64).toNat = bound n.toNat := by
  have hmod : (0xFFFFFFFFFFFFFFFF % n : UInt64).toNat = 0xFFFFFFFFFFFFFFFF % n.toNat :=
    UInt64.toNat_mod _ _
  have hle : (0xFFFFFFFFFFFFFFFF % n : UInt64) ≤ 0xFFFFFFFFFFFFFFFF := by
    rw [UInt64.le_iff_toNat_le, hmod]
    exact Nat.mod_le _ _
  rw [UInt64.toNat_sub_of_le _ _ hle, hmod]
  rfl

/-- The words below the limit are accepted, and taken for their remainders. -/
theorem pick?_eq (hn : n ≠ 0) (w : UInt64) :
    pick? n w = if w.toNat < limit n.toNat then some (w % n) else none := by
  unfold pick? limit
  simp only [UInt64.lt_iff_toNat_lt, toNat_bound]
  split
  · rename_i hpow
    rw [if_pos w.toNat_lt, and_pred_eq_mod hn hpow]
  · rfl

theorem pick?_eq_some_iff (hn : n ≠ 0) :
    pick? n w = some k ↔ w.toNat < limit n.toNat ∧ w.toNat % n.toNat = k.toNat := by
  rw [pick?_eq hn, ← UInt64.toNat_mod, UInt64.toNat_inj]
  split
  · rename_i hlt
    simp [hlt]
  · rename_i hge
    simp [hge]

theorem pick?_eq_none_iff (hn : n ≠ 0) : pick? n w = none ↔ limit n.toNat ≤ w.toNat := by
  rw [pick?_eq hn]
  split
  · rename_i hlt
    simp [hlt]
  · rename_i hge
    simp [Nat.not_lt.mp hge]

theorem lt_of_pick? (hn : n ≠ 0) (h : pick? n w = some k) : k < n := by
  rw [UInt64.lt_iff_toNat_lt, ← ((pick?_eq_some_iff hn).mp h).2]
  exact Nat.mod_lt _ (toNat_pos hn)

/-! ## How many words are taken for an index -/

/-- Words are counted by their numbers. -/
theorem ncard_words (p : Nat → Prop) [DecidablePred p] :
    {w : UInt64 | p w.toNat}.ncard = ((Finset.range (2 ^ 64)).filter p).card := by
  rw [← Set.ncard_image_of_injective _ fun v w h => UInt64.toNat_inj.mp h, ← Set.ncard_coe_finset]
  congr 1
  ext m
  simp only [Set.mem_image, Set.mem_ofPred_eq, Finset.coe_filter, Finset.mem_range]
  constructor
  · rintro ⟨w, hw, rfl⟩
    exact ⟨w.toNat_lt, hw⟩
  · rintro ⟨hm, hp⟩
    have hof : (UInt64.ofNat m).toNat = m := UInt64.toNat_ofNat_of_lt' hm
    exact ⟨UInt64.ofNat m, hof.symm ▸ hp, hof⟩

/-- A choice of indices by words is fair: it gives no other indices, and each from equally many
words; few words are rejected, and no more than half of them. -/
structure Fair (n : UInt64) (pick : UInt64 → Option UInt64) : Prop where
  lt_of_pick : ∀ w k, pick w = some k → k < n
  unbiased : ∃ q, ∀ k < n, {w | pick w = some k}.ncard = q
  rejected_le : {w | pick w = none}.ncard ≤ n.toNat
  le_accepted : 2 ^ 63 ≤ {w | pick w ≠ none}.ncard

theorem filter_lt_range {l m : Nat} (hle : l ≤ m) :
    (Finset.range m).filter (· < l) = Finset.range l := by
  ext j
  simp only [Finset.mem_filter, Finset.mem_range]
  omega

/-- Below a multiple of `n` every remainder comes equally often. -/
theorem card_filter_mod {n m k : Nat} (hdvd : n ∣ m) (hk : k < n) :
    ((Finset.range m).filter fun j => j % n = k).card = m / n := by
  have hcount := Nat.count_modEq_card m (Nat.zero_lt_of_lt hk) k
  rw [Nat.mod_eq_zero_of_dvd hdvd, if_neg (Nat.not_lt_zero _), Nat.add_zero,
    Nat.count_eq_card_filter_range] at hcount
  rw [← hcount]
  congr 1
  refine Finset.filter_congr fun j _ => ?_
  rw [Nat.ModEq, Nat.mod_eq_of_lt hk]

theorem fair_pick? (hn : n ≠ 0) : Fair n (pick? n) where
  lt_of_pick _ _ h := lt_of_pick? hn h
  unbiased := by
    refine ⟨limit n.toNat / n.toNat, fun k hk => ?_⟩
    simp only [pick?_eq_some_iff hn]
    rw [ncard_words fun m => m < limit n.toNat ∧ m % n.toNat = k.toNat, ← Finset.filter_filter,
      filter_lt_range (limit_le _),
      card_filter_mod (dvd_limit n.toNat_lt) (UInt64.lt_iff_toNat_lt.mp hk)]
  rejected_le := by
    simp only [pick?_eq_none_iff hn]
    rw [ncard_words fun m => limit n.toNat ≤ m]
    have hico : (Finset.range (2 ^ 64)).filter (limit n.toNat ≤ ·) =
        Finset.Ico (limit n.toNat) (2 ^ 64) := by
      ext m
      simp [and_comm]
    rw [hico, Nat.card_Ico]
    have hle := le_limit_add (toNat_pos hn)
    omega
  le_accepted := by
    simp only [ne_eq, pick?_eq_none_iff hn, Nat.not_le]
    rw [ncard_words fun m => m < limit n.toNat, filter_lt_range (limit_le _), Finset.card_range]
    exact two_pow_63_le_limit (toNat_pos hn) n.toNat_lt

/-! ## Searches for an accepted word -/

/-- Words are drawn until one is accepted; `k` is what it is taken for, and `g'` the generator
afterwards. -/
inductive Draws (n : UInt64) : Prng → UInt64 → Prng → Prop
  | accept {g : Prng} {k : UInt64} (h : pick? n g.output = some k) : Draws n g k g.step
  | reject {g g' : Prng} {k : UInt64} (h : pick? n g.output = none)
    (hrest : Draws n g.step k g') : Draws n g k g'

theorem Draws.unique (h : Draws n g k g') (h' : Draws n g k' g'') : k' = k ∧ g'' = g' := by
  induction h with
  | accept hpick =>
    cases h' with
    | accept hpick' => exact ⟨Option.some.inj (hpick'.symm.trans hpick), rfl⟩
    | reject hnone _ => exact nomatch hnone.symm.trans hpick
  | reject hnone _ ih =>
    cases h' with
    | accept hpick => exact nomatch hnone.symm.trans hpick
    | reject _ hrest => exact ih hrest

theorem Draws.lt (hn : n ≠ 0) (h : Draws n g k g') : k < n := by
  induction h with
  | accept hpick => exact lt_of_pick? hn hpick
  | reject _ _ ih => exact ih

/-- Every generator comes to a word that is accepted: zero gives one at once, and every other
state is followed by that of the word 1. -/
theorem exists_pick (hn : n ≠ 0) (g : Prng) :
    ∃ i < period, pick? n (step^[i] g).output ≠ none := by
  have hlimit := two_pow_63_le_limit (toNat_pos hn) n.toNat_lt
  by_cases hg : g = zero
  · refine ⟨0, by decide, fun h => ?_⟩
    have hle := (pick?_eq_none_iff hn).mp h
    have hword : (step^[0] g).output.toNat = 0 := by rw [hg]; rfl
    omega
  · obtain ⟨i, hi, hone⟩ := exists_iterate_step (h := one) hg (by decide)
    refine ⟨i, Nat.lt_trans hi (by decide), fun h => ?_⟩
    have hle := (pick?_eq_none_iff hn).mp h
    have hword : (step^[i] g).output.toNat = 1 := by rw [hone]; rfl
    omega

/-- If there is an accepted word within the bound of a search, the search finds the first. -/
theorem accepted_draws (hn : n ≠ 0) (hpow : n.toNat ≠ 2 ^ n.toNat.log2) {fuel : Nat}
    (h : ∃ i < fuel, pick? n (step^[i] g).output ≠ none) :
    ∃ k g', Draws n g k g' ∧ accepted n.toNat fuel g = (k.toNat, g') := by
  have hlimit : limit n.toNat = bound n.toNat := if_neg hpow
  induction fuel generalizing g with
  | zero =>
    obtain ⟨i, hi, -⟩ := h
    exact absurd hi (Nat.not_lt_zero i)
  | succ fuel ih =>
    unfold accepted
    rw [← hlimit]
    by_cases hlt : g.output.toNat < limit n.toNat
    · rw [if_pos hlt]
      refine ⟨g.output % n, g.step, .accept ?_, by rw [UInt64.toNat_mod]⟩
      rw [pick?_eq hn, if_pos hlt]
    · rw [if_neg hlt]
      have hnone : pick? n g.output = none := (pick?_eq_none_iff hn).mpr (Nat.not_lt.mp hlt)
      obtain ⟨i, hi, hpick⟩ := h
      obtain ⟨k, g', hdraws, heq⟩ := ih (g := g.step) <| by
        cases i with
        | zero => exact absurd hnone hpick
        | succ i => exact ⟨i, Nat.lt_of_succ_lt_succ hi, hpick⟩
      exact ⟨k, g', .reject hnone hdraws, heq⟩

/-- An index is drawn as words are drawn until one is accepted. -/
theorem exists_index_draws (hn : n ≠ 0) (g : Prng) :
    ∃ k g', Draws n g k g' ∧ g.index n.toNat = (some k.toNat, g') := by
  unfold index
  rw [if_neg (Nat.ne_of_gt (toNat_pos hn)), Nat.one_shiftLeft]
  by_cases hpow : n.toNat = 2 ^ n.toNat.log2
  · rw [if_pos hpow]
    refine ⟨g.output % n, g.step, .accept ?_, by rw [UInt64.toNat_mod]⟩
    rw [pick?_eq hn, limit, if_pos hpow, if_pos g.output.toNat_lt]
  · rw [if_neg hpow]
    obtain ⟨k, g', hdraws, heq⟩ := accepted_draws hn hpow (exists_pick hn g)
    exact ⟨k, g', hdraws, by rw [heq]⟩

/-! ## Ranges and lists -/

/-- Draws a number from `lo` to `hi`, in words of 32 bits and a span of 64 bits. -/
def withinWords (g : Prng) (lo hi : UInt32) : UInt32 × Prng :=
  if hi ≤ lo then (lo, g)
  else
    let (k, g) := g.index ((hi - lo).toUInt64 + 1).toNat
    (lo + UInt32.ofNat (k.getD 0), g)

/-- Nothing is lost when a number of a range is drawn in words, and it is in the range. -/
theorem withinWords_spec (g : Prng) {lo hi : UInt32} (h : lo ≤ hi) :
    lo ≤ (g.withinWords lo hi).1 ∧ (g.withinWords lo hi).1 ≤ hi ∧
      g.within lo.toNat hi.toNat = ((g.withinWords lo hi).1.toNat, (g.withinWords lo hi).2) := by
  unfold withinWords within
  rw [UInt32.le_iff_toNat_le] at h
  simp only [UInt32.le_iff_toNat_le]
  by_cases hle : hi.toNat ≤ lo.toNat
  · simp only [if_pos hle]
    exact ⟨Nat.le_refl _, h, trivial⟩
  · have hlo := lo.toNat_lt
    have hhi := hi.toNat_lt
    have hspan : ((hi - lo).toUInt64 + 1).toNat = hi.toNat - lo.toNat + 1 := by
      rw [UInt64.toNat_add, UInt32.toNat_toUInt64,
        UInt32.toNat_sub_of_le _ _ (UInt32.le_iff_toNat_le.mpr h), UInt64.toNat_one]
      exact Nat.mod_eq_of_lt (by omega)
    have hne : (hi - lo).toUInt64 + 1 ≠ 0 := fun h0 => by
      rw [h0] at hspan
      exact absurd hspan (Nat.succ_ne_zero _).symm
    obtain ⟨k, g', hdraws, hindex⟩ := exists_index_draws hne g
    have hk : k.toNat < hi.toNat - lo.toNat + 1 :=
      hspan ▸ UInt64.lt_iff_toNat_lt.mp (hdraws.lt hne)
    have hlt : k.toNat < 2 ^ 32 := by omega
    have hsum : (lo + UInt32.ofNat k.toNat).toNat = lo.toNat + k.toNat := by
      rw [UInt32.toNat_add, UInt32.toNat_ofNat_of_lt' hlt]
      exact Nat.mod_eq_of_lt (by omega)
    simp only [if_neg hle, ← hspan, hindex, Option.getD_some, hsum]
    exact ⟨by omega, by omega, trivial⟩

theorem exists_choose_eq {α : Type} (g : Prng) {items : List α} (hne : items ≠ [])
    (hlt : items.length < 2 ^ 64) : ∃ x ∈ items, (g.choose items).1 = some x := by
  have hlength : (UInt64.ofNat items.length).toNat = items.length :=
    UInt64.toNat_ofNat_of_lt' hlt
  have hn : UInt64.ofNat items.length ≠ 0 := fun h0 => by
    rw [h0] at hlength
    exact hne (List.length_eq_zero_iff.mp hlength.symm)
  obtain ⟨k, g', hdraws, hindex⟩ := exists_index_draws hn g
  have hk : k.toNat < items.length := hlength ▸ UInt64.lt_iff_toNat_lt.mp (hdraws.lt hn)
  rw [hlength] at hindex
  refine ⟨items[k.toNat], List.getElem_mem hk, ?_⟩
  simp only [choose, hindex, Option.bind_some, List.getElem?_eq_getElem hk]

/-- For every number of indices that fits in a word the choice by words is fair, and drawing an
index ends, from every generator, with the one that the first accepted word is taken for. A draw
from a range gives a number of the range, with nothing lost in words of 32 bits, and a draw from a
list that is not empty gives one of its items. -/
theorem picks_unbiased :
    (∀ n : UInt64, n ≠ 0 → Fair n (pick? n) ∧
      ∀ g : Prng, ∃ k < n, ∃ g', g.index n.toNat = (some k.toNat, g') ∧
        ∀ k' g'', Draws n g k' g'' ↔ k' = k ∧ g'' = g') ∧
    (∀ (g : Prng) (lo hi : UInt32), lo ≤ hi →
      lo ≤ (g.withinWords lo hi).1 ∧ (g.withinWords lo hi).1 ≤ hi ∧
        g.within lo.toNat hi.toNat = ((g.withinWords lo hi).1.toNat, (g.withinWords lo hi).2)) ∧
    ∀ {α : Type} (g : Prng) (items : List α), items ≠ [] → items.length < 2 ^ 64 →
      ∃ x ∈ items, (g.choose items).1 = some x := by
  refine ⟨fun n hn => ⟨fair_pick? hn, fun g => ?_⟩, fun g lo hi h => withinWords_spec g h,
    fun g items hne hlt => exists_choose_eq g hne hlt⟩
  obtain ⟨k, g', hdraws, hindex⟩ := exists_index_draws hn g
  refine ⟨k, hdraws.lt hn, g', hindex, fun k' g'' => ⟨fun h => hdraws.unique h, ?_⟩⟩
  rintro ⟨rfl, rfl⟩
  exact hdraws

/-- The words from 2⁶³ + 1 on are rejected for an index below this; each index has one word. -/
theorem picks_unbiased_scarce :
    (0x8000000000000001 : UInt64) ≠ 0 ∧ Fair 0x8000000000000001 (pick? 0x8000000000000001) ∧
      (1 : UInt32) ≤ 3 ∧ 1 ≤ ((ofSeeds 42 99).withinWords 1 3).1 ∧
      ((ofSeeds 42 99).withinWords 1 3).1 ≤ 3 ∧ ['a', 'b', 'c'] ≠ [] ∧
      ∃ x ∈ ['a', 'b', 'c'], ((ofSeeds 1 0).choose ['a', 'b', 'c']).1 = some x := by
  have hwithin := picks_unbiased.2.1 (ofSeeds 42 99) 1 3 (by decide)
  exact ⟨by decide, (picks_unbiased.1 0x8000000000000001 (by decide)).1, by decide, hwithin.1,
    hwithin.2.1, by decide,
    picks_unbiased.2.2 (ofSeeds 1 0) ['a', 'b', 'c'] (by decide) (by decide)⟩

end GeneGraph.Prng
