import GeneGraph.Proofs.Generator
import Mathlib.Data.List.Prime
import Mathlib.Dynamics.PeriodicPts.Lemmas
import Mathlib.NumberTheory.LucasPrimality
import Mathlib.SetTheory.Cardinal.Finite
import Mathlib.Tactic.NormNum.Prime
import Mathlib.Tactic.ReduceModChar
import Mathlib.Tactic.Ring

/-!
# The period of a generator

Steps respect the sums of states, so a number can stand for a state: for the sum of those among
the first 128 states from `Prng.one` on whose bits are set in it (`Prng.stateOf`). Doubling the
number is a step, and multiplying numbers without carries adds up steps (`Prng.stateOf_mul`). So
states that are very many steps away can be computed, and the order of the steps is found from the
prime factors of 2¹²⁸ - 1: `Prng.one` comes back after that many steps and no earlier, and so
every state but zero is reached from every other (`Prng.exists_iterate_step`).
-/

namespace GeneGraph.Prng

variable {g h : Prng} {n f f' a b e : Nat}

/-! ## Sums of states -/

/-- The sum of states, bit by bit. -/
instance : XorOp Prng := ⟨fun g h => ⟨g.s0 ^^^ h.s0, g.s1 ^^^ h.s1⟩⟩

theorem xor_def (g h : Prng) : g ^^^ h = ⟨g.s0 ^^^ h.s0, g.s1 ^^^ h.s1⟩ := rfl

theorem xor_zero (g : Prng) : g ^^^ zero = g := by
  rw [xor_def, zero, UInt64.xor_zero, UInt64.xor_zero]

theorem zero_xor (g : Prng) : zero ^^^ g = g := by
  rw [xor_def, zero, UInt64.zero_xor, UInt64.zero_xor]

theorem xor_self (g : Prng) : g ^^^ g = zero := by
  rw [xor_def, zero, UInt64.xor_self, UInt64.xor_self]

theorem words_xor_comm (a b c d : UInt64) : (a ^^^ b) ^^^ (c ^^^ d) = (a ^^^ c) ^^^ (b ^^^ d) := by
  rw [UInt64.xor_assoc a, ← UInt64.xor_assoc b, UInt64.xor_comm b c, UInt64.xor_assoc c,
    ← UInt64.xor_assoc a]

theorem xor_xor_xor_comm (g h g' h' : Prng) :
    (g ^^^ h) ^^^ (g' ^^^ h') = (g ^^^ g') ^^^ (h ^^^ h') := by
  simp only [xor_def, mk.injEq]
  exact ⟨words_xor_comm .., words_xor_comm ..⟩

theorem step_xor (g h : Prng) : (g ^^^ h).step = g.step ^^^ h.step := by
  have hrotate : ∀ v w, rotateLeft (v ^^^ w) 55 = rotateLeft v 55 ^^^ rotateLeft w 55 :=
    fun _ _ => rotateLeft_xor (by decide) (by decide)
  have hrotate' : ∀ v w, rotateLeft (v ^^^ w) 36 = rotateLeft v 36 ^^^ rotateLeft w 36 :=
    fun _ _ => rotateLeft_xor (by decide) (by decide)
  simp only [xor_def, step]
  rw [words_xor_comm g.s1, hrotate, hrotate', UInt64.shiftLeft_xor,
    words_xor_comm (rotateLeft g.s0 55), words_xor_comm (rotateLeft g.s0 55 ^^^ _)]

/-- The sum of those among the `n` states from `g` on whose bits are set in `f`. -/
def combine : Nat → Nat → Prng → Prng
  | 0, _, _ => zero
  | n + 1, f, g => (if f % 2 = 1 then g else zero) ^^^ combine n (f / 2) g.step

theorem combine_step (n f : Nat) (g : Prng) : combine n f g.step = (combine n f g).step := by
  induction n generalizing f g with
  | zero => exact step_zero.symm
  | succ n ih =>
    rw [combine, combine, ih, step_xor]
    congr 1
    split
    · rfl
    · exact step_zero.symm

theorem combine_iterate (n f k : Nat) (g : Prng) :
    combine n f (step^[k] g) = step^[k] (combine n f g) := by
  induction k generalizing g with
  | zero => rfl
  | succ k ih => rw [Function.iterate_succ_apply, Function.iterate_succ_apply, ih, combine_step]

theorem combine_xor (n f f' : Nat) (g : Prng) :
    combine n (f ^^^ f') g = combine n f g ^^^ combine n f' g := by
  induction n generalizing f f' g with
  | zero => exact (xor_zero zero).symm
  | succ n ih =>
    rw [combine, combine, combine, Nat.xor_div_two, ih, xor_xor_xor_comm]
    congr 1
    have hbit : (f ^^^ f') % 2 = 1 ↔ ¬ (f % 2 = 1 ↔ f' % 2 = 1) := Nat.xor_mod_two_eq_one
    by_cases hf : f % 2 = 1 <;> by_cases hf' : f' % 2 = 1 <;>
      simp only [hbit, hf, hf', iff_self, iff_true, iff_false, not_true_eq_false,
        not_false_eq_true, if_true, if_false, xor_self, xor_zero, zero_xor]

theorem combine_zero (n : Nat) (g : Prng) : combine n 0 g = zero := by
  induction n generalizing g with
  | zero => rfl
  | succ n ih => rw [combine, if_neg (by decide), zero_xor, Nat.zero_div, ih]

/-- Bits that are not set do not count. -/
theorem combine_succ_of_lt (h : f < 2 ^ n) (g : Prng) : combine (n + 1) f g = combine n f g := by
  induction n generalizing f g with
  | zero =>
    obtain rfl : f = 0 := by omega
    exact combine_zero 1 g
  | succ n ih =>
    rw [combine, ih (by omega)]
    rfl

theorem combine_double (n f : Nat) (g : Prng) :
    combine (n + 1) (2 * f) g = (combine n f g).step := by
  rw [combine, if_neg (by omega), zero_xor, Nat.mul_div_cancel_left f (by decide), combine_step]

/-! ## Numbers for states -/

/-- The state whose successors all others are sums of. -/
def one : Prng := ⟨1, 0⟩

/-- The state that a number stands for. -/
def stateOf (f : Nat) : Prng := combine 128 f one

theorem stateOf_one : stateOf 1 = one := by decide +kernel

theorem stateOf_zero : stateOf 0 = zero := combine_zero 128 one

/-- The states whose sum is zero, among the first 129 from `one` on. -/
def taps : Nat := 0x100653CED7F29F88A5FD66762F0E1C001

theorem combine_taps : combine 129 taps one = zero := by decide +kernel

/-- The number of the state after a step. -/
def double (f : Nat) : Nat := 2 * f ^^^ f / 2 ^ 127 * taps

theorem double_lt (h : f < 2 ^ 128) : double f < 2 ^ 128 := by
  have hcarry : f / 2 ^ 127 * taps / 2 ^ 128 = 2 * f / 2 ^ 128 := by
    obtain hf | hf : f / 2 ^ 127 = 0 ∨ f / 2 ^ 127 = 1 := by omega
    · rw [hf]
      omega
    · rw [hf, taps]
      omega
  have hdiv : double f / 2 ^ 128 = 0 := by
    rw [double, Nat.xor_div_two_pow, hcarry, Nat.xor_self]
  omega

theorem stateOf_double (h : f < 2 ^ 128) : stateOf (double f) = (stateOf f).step := by
  have htaps : combine 129 (f / 2 ^ 127 * taps) one = zero := by
    obtain hf | hf : f / 2 ^ 127 = 0 ∨ f / 2 ^ 127 = 1 := by omega
    · rw [hf, Nat.zero_mul, combine_zero]
    · rw [hf, Nat.one_mul, combine_taps]
  unfold stateOf
  rw [← combine_succ_of_lt (double_lt h), double, combine_xor, htaps, xor_zero, combine_double]

/-! ## Products -/

/-- The sum of the `n` numbers from `f'` on, each the double of the one before, at the bits that
are set in `f`. -/
def product : Nat → Nat → Nat → Nat
  | 0, _, _ => 0
  | n + 1, f, f' => f % 2 * f' ^^^ product n (f / 2) (double f')

theorem product_lt (n f : Nat) (h : f' < 2 ^ 128) : product n f f' < 2 ^ 128 := by
  induction n generalizing f f' with
  | zero => exact Nat.two_pow_pos 128
  | succ n ih =>
    refine Nat.xor_lt_two_pow ?_ (ih _ (double_lt h))
    obtain hf | hf := Nat.mod_two_eq_zero_or_one f
    · rw [hf, Nat.zero_mul]
      exact Nat.two_pow_pos 128
    · rwa [hf, Nat.one_mul]

theorem stateOf_product (n f : Nat) (h : f' < 2 ^ 128) :
    stateOf (product n f f') = combine n f (stateOf f') := by
  induction n generalizing f f' with
  | zero => exact stateOf_zero
  | succ n ih =>
    have hsum : ∀ a b, stateOf (a ^^^ b) = stateOf a ^^^ stateOf b := fun a b =>
      combine_xor 128 a b one
    rw [product, combine, hsum, ih _ (double_lt h), stateOf_double h]
    congr 1
    obtain hf | hf := Nat.mod_two_eq_zero_or_one f
    · rw [hf, Nat.zero_mul, if_neg (by decide), stateOf_zero]
    · rw [hf, Nat.one_mul, if_pos rfl]

/-- The product of numbers without carries. -/
def mul (f f' : Nat) : Nat := product 128 f f'

theorem mul_lt (f : Nat) (h : f' < 2 ^ 128) : mul f f' < 2 ^ 128 := product_lt 128 f h

/-- Multiplying numbers adds up steps. -/
theorem stateOf_mul (hlt : f' < 2 ^ 128) (hf : stateOf f = step^[a] one)
    (hf' : stateOf f' = step^[b] one) : stateOf (mul f f') = step^[a + b] one := by
  rw [mul, stateOf_product 128 f hlt, hf', combine_iterate]
  show step^[b] (stateOf f) = _
  rw [hf, ← Function.iterate_add_apply, Nat.add_comm]

/-- The power of a number whose exponent has `n` bits at most, by squaring. -/
def powerBits : Nat → Nat → Nat → Nat
  | 0, _, _ => 1
  | n + 1, e, f =>
    if e % 2 = 1 then mul f (powerBits n (e / 2) (mul f f)) else powerBits n (e / 2) (mul f f)

theorem powerBits_lt (n e : Nat) (h : f < 2 ^ 128) : powerBits n e f < 2 ^ 128 := by
  induction n generalizing e f with
  | zero => exact Nat.one_lt_two_pow (by decide)
  | succ n ih =>
    have hlt := ih (e / 2) (mul_lt f h)
    unfold powerBits
    split
    · exact mul_lt f hlt
    · exact hlt

theorem stateOf_powerBits (hlt : f < 2 ^ 128) (hf : stateOf f = step^[a] one) (he : e < 2 ^ n) :
    stateOf (powerBits n e f) = step^[a * e] one := by
  induction n generalizing e f a with
  | zero =>
    obtain rfl : e = 0 := by omega
    exact stateOf_one
  | succ n ih =>
    have hhalf := ih (mul_lt f hlt) (stateOf_mul hlt hf hf) (e := e / 2) (by omega)
    unfold powerBits
    split
    · rename_i hodd
      rw [stateOf_mul (powerBits_lt n _ (mul_lt f hlt)) hf hhalf]
      congr 1
      calc a + (a + a) * (e / 2)
        _ = a * (2 * (e / 2) + 1) := by ring
        _ = a * e := by rw [show 2 * (e / 2) + 1 = e by omega]
    · rename_i heven
      rw [hhalf]
      congr 1
      calc (a + a) * (e / 2)
        _ = a * (2 * (e / 2)) := by ring
        _ = a * e := by rw [show 2 * (e / 2) = e by omega]

/-- The power of a number. -/
def power (e f : Nat) : Nat := powerBits (e.log2 + 1) e f

theorem power_lt (e : Nat) (h : f < 2 ^ 128) : power e f < 2 ^ 128 := powerBits_lt _ e h

theorem stateOf_power (hlt : f < 2 ^ 128) (hf : stateOf f = step^[a] one) :
    stateOf (power e f) = step^[a * e] one :=
  stateOf_powerBits hlt hf Nat.lt_log2_self

/-! ## The period -/

/-- Tells for a number `f` and factors of an exponent that `f` to that exponent is one, and that
this is so for none of the exponents from which one factor is left out. -/
def isPrimitive : List Nat → Nat → Bool
  | [], f => f == 1
  | q :: qs, f => decide (stateOf (power qs.prod f) ≠ one) && isPrimitive qs (power q f)

theorem iterate_of_isPrimitive {qs : List Nat} (hpos : ∀ q ∈ qs, 0 < q) (hf : f < 2 ^ 128)
    (ha : stateOf f = step^[a] one) (h : isPrimitive qs f = true) :
    step^[a * qs.prod] one = one ∧ ∀ q ∈ qs, step^[a * (qs.prod / q)] one ≠ one := by
  -- `f` is the power with the exponents so far, so `a` grows by a factor with each of them.
  induction qs generalizing f a with
  | nil =>
    obtain rfl : f = 1 := by simpa [isPrimitive] using h
    exact ⟨by rw [List.prod_nil, Nat.mul_one, ← ha, stateOf_one], nofun⟩
  | cons q qs ih =>
    obtain ⟨hne, hrest⟩ := Bool.and_eq_true_iff.mp h
    rw [decide_eq_true_eq] at hne
    rw [List.prod_cons]
    obtain ⟨hone, hall⟩ := ih (fun p hp => hpos p (List.mem_cons_of_mem q hp)) (power_lt q hf)
      (stateOf_power hf ha) hrest
    rw [Nat.mul_assoc] at hone
    refine ⟨hone, fun p hp => ?_⟩
    rcases List.mem_cons.mp hp with rfl | hp
    · rw [Nat.mul_div_cancel_left _ (hpos p List.mem_cons_self), ← stateOf_power hf ha]
      exact hne
    · have hdvd : p ∣ qs.prod := List.dvd_prod hp
      rw [Nat.mul_div_assoc _ hdvd, ← Nat.mul_assoc]
      exact hall p hp

/-- The prime factors of 2¹²⁸ - 1. -/
def factors : List Nat := [67280421310721, 6700417, 274177, 65537, 641, 257, 17, 5, 3]

theorem prod_factors : factors.prod = 2 ^ 128 - 1 := by decide +kernel

/-- The largest factor is prime, since 3 is a primitive root of it. -/
theorem prime_largest : Nat.Prime 67280421310721 := by
  have hprimes : ∀ q ∈ List.replicate 8 2 ++ [5, 47, 373, 2998279], Prime q := by
    intro q hq
    simp only [List.mem_append, List.mem_replicate, List.mem_cons, List.not_mem_nil, or_false] at hq
    rcases hq with ⟨-, rfl⟩ | rfl | rfl | rfl | rfl <;> exact Nat.Prime.prime (by norm_num)
  refine lucas_primality _ 3 (by reduce_mod_char) fun q hq hdvd => ?_
  have hmem : q ∈ List.replicate 8 2 ++ [5, 47, 373, 2998279] :=
    mem_list_primes_of_dvd_prod hq.prime hprimes hdvd
  simp only [List.mem_append, List.mem_replicate, List.mem_cons, List.not_mem_nil, or_false] at hmem
  rcases hmem with ⟨-, rfl⟩ | rfl | rfl | rfl | rfl <;> (norm_num only; reduce_mod_char; decide)

theorem prime_of_mem_factors {q : Nat} (h : q ∈ factors) : q.Prime := by
  simp only [factors, List.mem_cons, List.not_mem_nil, or_false] at h
  rcases h with rfl | rfl | rfl | rfl | rfl | rfl | rfl | rfl | rfl
  · exact prime_largest
  all_goals norm_num

theorem isPrimitive_two : isPrimitive factors 2 = true := by decide +kernel

theorem stateOf_two : stateOf 2 = step^[1] one := by decide +kernel

theorem minimalPeriod_one : Function.minimalPeriod step one = 2 ^ 128 - 1 := by
  have hprod := prod_factors
  obtain ⟨hone, hne⟩ := iterate_of_isPrimitive (fun q hq => (prime_of_mem_factors hq).pos)
    (by decide) stateOf_two isPrimitive_two
  rw [hprod, Nat.one_mul] at hone
  have hperiodic : Function.IsPeriodicPt step (2 ^ 128 - 1) one := hone
  obtain ⟨c, hc⟩ := hperiodic.minimalPeriod_dvd
  -- Otherwise a prime factor `q` of the cofactor could be left out, and `one` came back earlier.
  by_contra hm
  have hcne : c ≠ 1 := fun h => hm (by rw [hc, h, Nat.mul_one])
  obtain ⟨q, hq, k, rfl⟩ := Nat.exists_prime_and_dvd hcne
  have hmem : q ∈ factors := by
    refine mem_list_primes_of_dvd_prod hq.prime
      (fun p hp => (prime_of_mem_factors hp).prime) ?_
    rw [hprod, hc]
    exact (Nat.dvd_mul_right q k).mul_left _
  refine hne q hmem ?_
  have hdiv : factors.prod / q = Function.minimalPeriod step one * k := by
    rw [hprod, hc, Nat.mul_left_comm, Nat.mul_div_cancel_left _ hq.pos]
  rw [Nat.one_mul, hdiv]
  exact (Function.isPeriodicPt_minimalPeriod step one).mul_const k

/-! ## One orbit -/

/-- The state as one number. -/
def number (g : Prng) : Nat := g.s0.toNat * 2 ^ 64 + g.s1.toNat

theorem number_injective : Function.Injective number := by
  intro g h heq
  have hg := g.s1.toNat_lt
  have hh := h.s1.toNat_lt
  unfold number at heq
  have h0 : g.s0 = h.s0 := UInt64.toNat_inj.mp (by omega)
  have h1 : g.s1 = h.s1 := UInt64.toNat_inj.mp (by omega)
  show mk g.s0 g.s1 = mk h.s0 h.s1
  rw [h0, h1]

theorem number_lt (g : Prng) : number g < 2 ^ 128 := by
  have h0 := g.s0.toNat_lt
  have h1 := g.s1.toNat_lt
  unfold number
  omega

theorem number_pos (hg : g ≠ zero) : 0 < number g :=
  Nat.pos_of_ne_zero fun h => hg (number_injective (h.trans (by decide)))

/-- As many states as the period is long are not zero, so `one` comes to each of them. -/
theorem exists_iterate_one (hg : g ≠ zero) : ∃ k, step^[k] one = g := by
  let index : {g // g ≠ zero} → Fin (2 ^ 128 - 1) := fun g =>
    ⟨number g - 1, by have := number_lt g; have := number_pos g.2; omega⟩
  have hindex : Function.Injective index := by
    intro g h heq
    have hpos := number_pos g.2
    have hpos' := number_pos h.2
    have hnumber : number g - 1 = number h - 1 := congrArg Fin.val heq
    exact Subtype.ext (number_injective (by omega))
  have hfinite : Finite {g // g ≠ zero} := Finite.of_injective index hindex
  let visit : Fin (2 ^ 128 - 1) → {g // g ≠ zero} := fun k =>
    ⟨step^[k] one, iterate_step_ne_zero (by decide) k⟩
  have hvisit : Function.Injective visit := by
    intro k l heq
    refine Fin.ext (Function.iterate_injOn_Iio_minimalPeriod (f := step) (x := one) ?_ ?_
      (congrArg Subtype.val heq))
    · rw [minimalPeriod_one]
      exact k.isLt
    · rw [minimalPeriod_one]
      exact l.isLt
  obtain ⟨k, hk⟩ := (hvisit.bijective_of_nat_card_le
    (Nat.card_le_card_of_injective index hindex)).surjective ⟨g, hg⟩
  exact ⟨k, congrArg Subtype.val hk⟩

/-- From a state that is not zero every other such state is reached within a period. -/
theorem exists_iterate_step (hg : g ≠ zero) (hh : h ≠ zero) :
    ∃ k < 2 ^ 128 - 1, step^[k] g = h := by
  obtain ⟨i, rfl⟩ := exists_iterate_one hg
  obtain ⟨j, rfl⟩ := exists_iterate_one hh
  have hone : Function.IsPeriodicPt step (2 ^ 128 - 1) one :=
    minimalPeriod_one ▸ Function.isPeriodicPt_minimalPeriod step one
  refine ⟨(j + (2 ^ 128 - 1 - 1) * i) % (2 ^ 128 - 1), Nat.mod_lt _ (by decide), ?_⟩
  rw [(hone.apply_iterate i).iterate_mod_apply, ← Function.iterate_add_apply]
  have hsum : j + (2 ^ 128 - 1 - 1) * i + i = j + (2 ^ 128 - 1) * i := by omega
  rw [hsum, Function.iterate_add_apply, (hone.mul_const i).eq]

end GeneGraph.Prng
