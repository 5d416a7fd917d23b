import GeneGraph.Prng
import Mathlib.Logic.Function.Iterate

/-!
# The states of a generator

A step of a generator can be taken back (`Prng.back`), so it is a bijection of the states. As the
state of two zeros is its own successor, no other state leads to it. Whatever is drawn, the state
afterwards is one that some steps lead to, so a generator that is seeded never gets stuck at zero
(`Prng.draws_ne_zero`).
-/

namespace GeneGraph.Prng

variable {v w m n : UInt64} {g h : Prng}

/-! ## Rotations -/

theorem toBitVec_rotateLeft (hpos : 0 < n.toNat) (hlt : n.toNat < 64) :
    (rotateLeft w n).toBitVec = w.toBitVec.rotateLeft n.toNat := by
  have hsub : (64 - n).toNat = 64 - n.toNat :=
    UInt64.toNat_sub_of_le _ _ (UInt64.le_iff_toNat_le.mpr (Nat.le_of_lt hlt))
  rw [BitVec.rotateLeft_def, Nat.mod_eq_of_lt hlt, rotateLeft, UInt64.toBitVec_or]
  congr 1
  · apply BitVec.eq_of_toNat_eq
    simp only [UInt64.toNat_toBitVec, UInt64.toNat_shiftLeft, BitVec.toNat_shiftLeft,
      Nat.mod_eq_of_lt hlt]
  · apply BitVec.eq_of_toNat_eq
    simp only [UInt64.toNat_toBitVec, UInt64.toNat_shiftRight, BitVec.toNat_ushiftRight, hsub]
    congr 1
    omega

/-- Two rotations that make up a full turn cancel out. -/
theorem rotateLeft_rotateLeft (hn : 0 < n.toNat) (hm : 0 < m.toNat)
    (hturn : n.toNat + m.toNat = 64) : rotateLeft (rotateLeft w n) m = w := by
  apply UInt64.toBitVec_inj.mp
  rw [toBitVec_rotateLeft hm (by omega), toBitVec_rotateLeft hn (by omega)]
  refine BitVec.eq_of_getMsbD_eq fun i hi => ?_
  rw [BitVec.getMsbD_rotateLeft, BitVec.getMsbD_rotateLeft, decide_eq_true hi, Bool.true_and,
    decide_eq_true (Nat.mod_lt _ (by decide)), Bool.true_and]
  congr 1
  omega

theorem rotateLeft_xor (hpos : 0 < n.toNat) (hlt : n.toNat < 64) :
    rotateLeft (v ^^^ w) n = rotateLeft v n ^^^ rotateLeft w n := by
  apply UInt64.toBitVec_inj.mp
  rw [UInt64.toBitVec_xor, toBitVec_rotateLeft hpos hlt, toBitVec_rotateLeft hpos hlt,
    toBitVec_rotateLeft hpos hlt, UInt64.toBitVec_xor]
  refine BitVec.eq_of_getMsbD_eq fun i hi => ?_
  simp only [BitVec.getMsbD_rotateLeft, BitVec.getMsbD_xor, Bool.and_xor_distrib_left]

/-! ## Steps back -/

/-- The state before a step. -/
def back (g : Prng) : Prng :=
  let x := rotateLeft g.s1 28
  let s0 := rotateLeft (g.s0 ^^^ x ^^^ (x <<< 14)) 9
  ⟨s0, x ^^^ s0⟩

/-- Words that are added twice are gone. -/
theorem xor_cancel_two (u v w : UInt64) : u ^^^ v ^^^ w ^^^ v ^^^ w = u := by
  calc u ^^^ v ^^^ w ^^^ v ^^^ w
    _ = u ^^^ v ^^^ (w ^^^ v) ^^^ w := by rw [UInt64.xor_assoc (u ^^^ v)]
    _ = u ^^^ v ^^^ (v ^^^ w) ^^^ w := by rw [UInt64.xor_comm w v]
    _ = u ^^^ (v ^^^ v) ^^^ (w ^^^ w) := by simp only [UInt64.xor_assoc]
    _ = u := by rw [UInt64.xor_self, UInt64.xor_self, UInt64.xor_zero, UInt64.xor_zero]

theorem back_step (g : Prng) : g.step.back = g := by
  have hx : rotateLeft (rotateLeft (g.s1 ^^^ g.s0) 36) 28 = g.s1 ^^^ g.s0 :=
    rotateLeft_rotateLeft (by decide) (by decide) (by decide)
  have hs : rotateLeft (rotateLeft g.s0 55) 9 = g.s0 :=
    rotateLeft_rotateLeft (by decide) (by decide) (by decide)
  simp only [step, back, hx, xor_cancel_two, hs]
  rw [UInt64.xor_assoc, UInt64.xor_self, UInt64.xor_zero]

theorem step_back (g : Prng) : g.back.step = g := by
  have hs : ∀ u, rotateLeft (rotateLeft u 9) 55 = u := fun u =>
    rotateLeft_rotateLeft (by decide) (by decide) (by decide)
  have hx : rotateLeft (rotateLeft g.s1 28) 36 = g.s1 :=
    rotateLeft_rotateLeft (by decide) (by decide) (by decide)
  simp only [step, back]
  rw [UInt64.xor_assoc (rotateLeft g.s1 28), UInt64.xor_self, UInt64.xor_zero, hs, hx,
    xor_cancel_two]

theorem step_injective : Function.Injective step := Function.LeftInverse.injective back_step

theorem step_bijective : Function.Bijective step :=
  ⟨step_injective, Function.RightInverse.surjective step_back⟩

/-! ## The zero state -/

/-- The state that is its own successor. -/
def zero : Prng := ⟨0, 0⟩

theorem step_zero : zero.step = zero := by decide

theorem step_eq_zero_iff : g.step = zero ↔ g = zero := by
  constructor
  · exact fun h => step_injective (h.trans step_zero.symm)
  · rintro rfl
    exact step_zero

theorem iterate_step_ne_zero (hg : g ≠ zero) (k : Nat) : step^[k] g ≠ zero := by
  induction k with
  | zero => exact hg
  | succ k ih =>
    rw [Function.iterate_succ_apply']
    exact fun h => ih (step_eq_zero_iff.mp h)

theorem ofSeeds_ne_zero (seed0 seed1 : UInt64) : ofSeeds seed0 seed1 ≠ zero := by
  unfold ofSeeds
  split
  · decide
  · rename_i hseeds
    intro h
    cases h
    exact hseeds ⟨rfl, rfl⟩

/-! ## Draws -/

/-- What is drawn from a generator. -/
inductive Draw : Type 1 where
  | word
  | index (n : Nat)
  | within (lo hi : Nat)
  | flip
  | choose {α : Type} (items : List α)

/-- The generator after a draw. -/
def after (g : Prng) : Draw → Prng
  | .word => g.word.2
  | .index n => (g.index n).2
  | .within lo hi => (g.within lo hi).2
  | .flip => g.flip.2
  | .choose items => (g.choose items).2

/-- A search takes some steps. -/
theorem exists_accepted_eq (n fuel : Nat) (g : Prng) :
    ∃ k, (accepted n fuel g).2 = step^[k] g := by
  induction fuel generalizing g with
  | zero => exact ⟨0, rfl⟩
  | succ fuel ih =>
    unfold accepted
    split
    · exact ⟨1, rfl⟩
    · obtain ⟨k, hk⟩ := ih g.step
      exact ⟨k + 1, hk⟩

theorem exists_index_eq (n : Nat) (g : Prng) : ∃ k, (g.index n).2 = step^[k] g := by
  unfold index
  split
  · exact ⟨0, rfl⟩
  · split
    · exact ⟨1, rfl⟩
    · exact exists_accepted_eq n period g

/-- A draw takes some steps. -/
theorem exists_after_eq (g : Prng) (d : Draw) : ∃ k, g.after d = step^[k] g := by
  cases d with
  | word => exact ⟨1, rfl⟩
  | index n => exact exists_index_eq n g
  | within lo hi =>
    rw [after, within]
    split
    · exact ⟨0, rfl⟩
    · exact exists_index_eq _ g
  | flip => exact ⟨1, rfl⟩
  | choose items => exact exists_index_eq _ g

theorem foldl_after_ne_zero (hg : g ≠ zero) (draws : List Draw) : draws.foldl after g ≠ zero := by
  induction draws generalizing g with
  | nil => exact hg
  | cons d draws ih =>
    obtain ⟨k, hk⟩ := exists_after_eq g d
    exact ih (hk ▸ iterate_step_ne_zero hg k)

/-- No seed gives the zero state, the steps are a bijection of the states that has zero for
itself, and no draws lead from another state to it. -/
theorem draws_ne_zero :
    (∀ seed0 seed1, ofSeeds seed0 seed1 ≠ zero) ∧ (∀ seed, ofSeed seed ≠ zero) ∧
      Function.Bijective step ∧ (∀ g : Prng, g.step = zero ↔ g = zero) ∧
      ∀ g ≠ zero, ∀ draws : List Draw, draws.foldl after g ≠ zero :=
  ⟨ofSeeds_ne_zero, fun _ => ofSeeds_ne_zero _ _, step_bijective, fun _ => step_eq_zero_iff,
    fun _ hg => foldl_after_ne_zero hg⟩

/-- Two zeros for seeds are replaced, and the draws that follow do not lead to zero. -/
theorem draws_ne_zero_unseeded :
    ofSeeds 0 0 ≠ zero ∧
      [Draw.word, .index 6, .within 1 3, .flip, .choose ['a', 'b', 'c']].foldl after
        (ofSeeds 0 0) ≠ zero :=
  ⟨draws_ne_zero.1 0 0, draws_ne_zero.2.2.2.2 (ofSeeds 0 0) (draws_ne_zero.1 0 0) _⟩

end GeneGraph.Prng
