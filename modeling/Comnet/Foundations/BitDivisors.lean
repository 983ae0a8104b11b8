/-
# What a polynomial over the field of two elements divides

A divisor with a constant term does not see shifts, and a power of the indeterminate in it sees
nothing else. Of the numbers of so many bits it divides one for each way to choose those above
its degree. Two bits it divides exactly when their distance is a multiple of its period. With an
even number of terms it divides only numbers with an even number of bits, and a divisor of two
terms looks at the bits of each residue on their own.
-/

import Comnet.Foundations.BitPolynomial
import Mathlib.Algebra.Ring.GeomSum

set_option autoImplicit false

namespace Comnet.Foundations

open Polynomial

variable {bits degree divisor value rounds i j k n : ℕ}

/-! ## Shifted divisors -/

/-- The powers of the indeterminate cancel, and what is left of them is not seen. -/
theorem shiftLeft_dvd_shiftLeft_iff (odd : divisor.testBit 0 = true) (hk : k ≤ n) :
    bitPoly (divisor <<< k) ∣ bitPoly (bits <<< n) ↔ bitPoly divisor ∣ bitPoly bits := by
  have hsplit : bits <<< n = (bits <<< (n - k)) <<< k := by
    rw [← Nat.shiftLeft_add, Nat.sub_add_cancel hk]
  have hpow : (X : (ZMod 2)[X]) ^ k ≠ 0 := pow_ne_zero k X_ne_zero
  rw [hsplit, bitPoly_shiftLeft, bitPoly_shiftLeft (bits <<< (n - k)), mul_dvd_mul_iff_left hpow,
    dvd_shiftLeft_iff odd]

/-! ## How many numbers are divided -/

/-- A number is its higher bits, put back in their place, and its lower ones. -/
theorem shiftLeft_xor_low (bits degree : ℕ) :
    ((bits >>> degree) <<< degree) ^^^ (bits % 2 ^ degree) = bits := by
  apply Nat.eq_of_testBit_eq
  intro i
  rw [Nat.testBit_xor, Nat.testBit_shiftLeft, Nat.testBit_shiftRight, Nat.testBit_mod_two_pow]
  by_cases hi : i < degree
  · simp [hi, Nat.not_le.mpr hi]
  · simp [hi, Nat.not_lt.mp hi]

theorem shiftRight_shiftLeft_xor {low : ℕ} (hlow : low < 2 ^ degree) :
    ((value <<< degree) ^^^ low) >>> degree = value := by
  rw [Nat.shiftRight_xor_distrib, Nat.shiftLeft_shiftRight, Nat.shiftRight_eq_zero _ _ hlow,
    Nat.xor_zero]

theorem shiftLeft_lt (h : value < 2 ^ rounds) : value <<< degree < 2 ^ (degree + rounds) := by
  rw [Nat.shiftLeft_eq, pow_add, mul_comm]
  exact Nat.mul_lt_mul_of_pos_left h (Nat.two_pow_pos degree)

theorem shiftRight_lt (h : bits < 2 ^ (degree + rounds)) : bits >>> degree < 2 ^ rounds := by
  rw [Nat.shiftRight_eq_div_pow]
  exact Nat.div_lt_of_lt_mul (by rwa [← pow_add])

/-- Whatever the bits from the degree of the divisor up are, the bits below can be chosen in one
way. -/
theorem card_dvd (h : HasDegree degree divisor) (rounds : ℕ)
    [DecidablePred fun bits => bitPoly divisor ∣ bitPoly bits] :
    ((Finset.range (2 ^ (degree + rounds))).filter
      fun bits => bitPoly divisor ∣ bitPoly bits).card = 2 ^ rounds := by
  rw [← Finset.card_range (2 ^ rounds)]
  refine Finset.card_nbij' (· >>> degree) (fun value =>
    (value <<< degree) ^^^ longDivision degree divisor rounds (value <<< degree)) ?_ ?_ ?_ ?_
  · intro bits hbits
    obtain ⟨hlt, -⟩ : bits < 2 ^ (degree + rounds) ∧ _ := by simpa using hbits
    simpa using shiftRight_lt hlt
  · intro value hvalue
    have hlt : value <<< degree < 2 ^ (degree + rounds) := shiftLeft_lt (by simpa using hvalue)
    have hleft := longDivision_lt h hlt
    have hfits := Nat.xor_lt_two_pow hlt
      (hleft.trans_le (Nat.pow_le_pow_right Nat.two_pos (Nat.le_add_right degree rounds)))
    have hdvd := (dvd_xor_iff h hlt hleft).mpr rfl
    simpa using ⟨hfits, hdvd⟩
  · intro bits hbits
    obtain ⟨hlt, hdvd⟩ : bits < 2 ^ (degree + rounds) ∧ bitPoly divisor ∣ bitPoly bits := by
      simpa using hbits
    have hhigh : (bits >>> degree) <<< degree < 2 ^ (degree + rounds) :=
      shiftLeft_lt (shiftRight_lt hlt)
    have hlow := (dvd_xor_iff h hhigh (Nat.mod_lt bits (Nat.two_pow_pos degree))).mp
      ((shiftLeft_xor_low bits degree).symm ▸ hdvd)
    dsimp only
    rw [← hlow, shiftLeft_xor_low]
  · intro value hvalue
    have hlt : value <<< degree < 2 ^ (degree + rounds) := shiftLeft_lt (by simpa using hvalue)
    exact shiftRight_shiftLeft_xor (longDivision_lt h hlt)

/-! ## How far apart two bits are -/

theorem bitPoly_one : bitPoly 1 = 1 := by
  simp [bitPoly, Finset.sum_filter]

/-- One bit and the lowest one. -/
theorem bitPoly_pair (n : ℕ) : bitPoly ((1 <<< n) ^^^ 1) = X ^ n + 1 := by
  rw [bitPoly_xor, bitPoly_shiftLeft, bitPoly_one, mul_one]

/-- The divisor divides two bits for the first time at this distance. -/
structure HasPeriod (divisor period : ℕ) : Prop where
  pos : 0 < period
  dvd : bitPoly divisor ∣ bitPoly ((1 <<< period) ^^^ 1)
  least : ∀ n, 0 < n → n < period → ¬ bitPoly divisor ∣ bitPoly ((1 <<< n) ^^^ 1)

/-- The period is found by dividing. -/
theorem hasPeriod_of_longDivision {period : ℕ} (h : HasDegree degree divisor) (pos : 0 < period)
    (dvd : longDivision degree divisor (period + 1) ((1 <<< period) ^^^ 1) = 0)
    (least : ∀ n < period, 0 < n →
      longDivision degree divisor (period + 1) ((1 <<< n) ^^^ 1) ≠ 0) :
    HasPeriod divisor period := by
  have hfits : ∀ n ≤ period, (1 <<< n) ^^^ 1 < 2 ^ (degree + (period + 1)) := by
    intro n hn
    have hone : ∀ k ≤ period, 1 <<< k < 2 ^ (degree + (period + 1)) := fun k hk => by
      rw [Nat.one_shiftLeft]
      exact Nat.pow_lt_pow_right (by decide) (by omega)
    exact Nat.xor_lt_two_pow (hone n hn) (hone 0 (Nat.zero_le _))
  refine ⟨pos, (longDivision_eq_zero_iff h (hfits period le_rfl)).mp dvd, fun n hn hlt hdvd => ?_⟩
  exact least n hlt hn ((longDivision_eq_zero_iff h (hfits n hlt.le)).mpr hdvd)

/-- The divisor divides two bits exactly at the multiples of its period. -/
theorem HasPeriod.dvd_iff {period : ℕ} (h : HasPeriod divisor period) (n : ℕ) :
    bitPoly divisor ∣ bitPoly ((1 <<< n) ^^^ 1) ↔ period ∣ n := by
  have hmultiple : ∀ q, bitPoly divisor ∣ X ^ (period * q) + 1 := by
    intro q
    have hdvd := h.dvd
    rw [bitPoly_pair, ← CharTwo.sub_eq_add] at hdvd
    rw [← CharTwo.sub_eq_add, pow_mul]
    exact hdvd.trans (sub_one_dvd_pow_sub_one _ q)
  have hsplit : (X ^ n + 1 : (ZMod 2)[X]) =
      X ^ (n % period) * (X ^ (period * (n / period)) + 1) + (X ^ (n % period) + 1) := by
    rw [mul_add, ← pow_add, mul_one, Nat.mod_add_div, add_assoc, ← add_assoc (X ^ (n % period)),
      CharTwo.add_self_eq_zero, zero_add]
  rw [bitPoly_pair, hsplit, dvd_add_right (dvd_mul_of_dvd_right (hmultiple _) _), ← bitPoly_pair,
    Nat.dvd_iff_mod_eq_zero]
  constructor
  · intro hdvd
    by_contra hrest
    exact h.least _ (Nat.pos_of_ne_zero hrest) (Nat.mod_lt n h.pos) hdvd
  · intro hrest
    rw [hrest, bitPoly_pair, pow_zero, CharTwo.add_self_eq_zero]
    exact dvd_zero _

/-- Two bits, wherever they stand. -/
theorem HasPeriod.dvd_two_iff {period : ℕ} (h : HasPeriod divisor period)
    (odd : divisor.testBit 0 = true) (hij : i ≤ j) :
    bitPoly divisor ∣ bitPoly ((1 <<< j) ^^^ (1 <<< i)) ↔ period ∣ j - i := by
  have hshift : (1 <<< j) ^^^ (1 <<< i) = ((1 <<< (j - i)) ^^^ 1) <<< i := by
    rw [Nat.shiftLeft_xor_distrib, ← Nat.shiftLeft_add, Nat.sub_add_cancel hij]
  rw [hshift, dvd_shiftLeft_iff odd, h.dvd_iff]

/-! ## How many bits are set -/

/-- The number of bits that are set. -/
def weight (bits : ℕ) : ℕ := ((Finset.range bits).filter (bits.testBit ·)).card

theorem even_weight_iff : Even (weight bits) ↔ (bitPoly bits).eval 1 = 0 := by
  rw [← ZMod.natCast_eq_zero_iff_even, bitPoly, eval_finsetSum]
  simp [weight]

/-- What a divisor with an even number of terms divides has an even number of bits. -/
theorem even_weight_of_dvd (heven : Even (weight divisor))
    (hdvd : bitPoly divisor ∣ bitPoly bits) : Even (weight bits) := by
  obtain ⟨quotient, hquotient⟩ := hdvd
  rw [even_weight_iff] at heven ⊢
  rw [hquotient, eval_mul, heven, zero_mul]

theorem even_weight_shiftLeft : Even (weight (bits <<< k)) ↔ Even (weight bits) := by
  rw [even_weight_iff, even_weight_iff, bitPoly_shiftLeft, eval_mul, eval_pow, eval_X, one_pow,
    one_mul]

/-! ## Divisors of two terms -/

/-- How many bits are set at the places with a residue. -/
def residueWeight (period residue bits : ℕ) : ℕ :=
  ((Finset.range bits).filter fun i => bits.testBit i = true ∧ i % period = residue).card

theorem lt_of_odd_residueWeight {period : ℕ} (pos : 0 < period)
    (h : Odd (residueWeight period j bits)) : j < period := by
  obtain ⟨i, hi⟩ := Finset.card_pos.mp h.pos
  obtain ⟨-, -, rfl⟩ : i < bits ∧ bits.testBit i = true ∧ i % period = j := by simpa using hi
  exact Nat.mod_lt i pos

/-- A power of the indeterminate leaves the one at its residue. -/
theorem binomial_dvd_pow_sub (period i : ℕ) :
    (X ^ period - 1 : (ZMod 2)[X]) ∣ X ^ i - X ^ (i % period) := by
  have hsplit : (X ^ i - X ^ (i % period) : (ZMod 2)[X]) =
      X ^ (i % period) * ((X ^ period) ^ (i / period) - 1) := by
    rw [mul_sub, mul_one, ← pow_mul, ← pow_add, Nat.mod_add_div]
  rw [hsplit]
  exact dvd_mul_of_dvd_right (sub_one_dvd_pow_sub_one _ _) _

/-- What the powers of the indeterminate at the bits that are set leave. -/
theorem bitPoly_modByMonic_pair {period : ℕ} (pos : 0 < period)
    (h : HasDegree period ((1 <<< period) ^^^ 1)) :
    bitPoly value %ₘ bitPoly ((1 <<< period) ^^^ 1) =
      ∑ i ∈ (Finset.range value).filter (value.testBit ·), X ^ (i % period) := by
  have hdvd : bitPoly ((1 <<< period) ^^^ 1) ∣
      bitPoly value - ∑ i ∈ (Finset.range value).filter (value.testBit ·), X ^ (i % period) := by
    rw [bitPoly_pair, ← CharTwo.sub_eq_add, bitPoly, ← Finset.sum_sub_distrib]
    exact Finset.dvd_sum fun i _ => binomial_dvd_pow_sub period i
  obtain ⟨quotient, hquotient⟩ := hdvd
  refine (div_modByMonic_unique quotient _ h.monic ⟨?_, ?_⟩).2
  · rw [← hquotient, add_sub_cancel]
  · rw [h.degree_eq]
    refine (degree_sum_le _ _).trans_lt ((Finset.sup_lt_iff ?_).mpr fun i _ => ?_)
    · exact WithBot.bot_lt_coe period
    · rw [degree_X_pow]
      exact_mod_cast Nat.mod_lt i pos

/-- A divisor of two terms leaves, for each residue, whether the number of bits set at its places is
odd. -/
theorem testBit_longDivision_pair {period : ℕ} (pos : 0 < period)
    (h : HasDegree period ((1 <<< period) ^^^ 1)) (hvalue : value < 2 ^ (period + rounds)) :
    (longDivision period ((1 <<< period) ^^^ 1) rounds value).testBit j =
      decide (Odd (residueWeight period j value)) := by
  have hcoeff := congrArg (coeff · j) (bitPoly_longDivision h hvalue)
  rw [bitPoly_modByMonic_pair pos h, coeff_bitPoly, finsetSum_coeff] at hcoeff
  have hcount : ∑ i ∈ (Finset.range value).filter (value.testBit ·),
      (X ^ (i % period) : (ZMod 2)[X]).coeff j = residueWeight period j value := by
    simp only [coeff_X_pow, Finset.sum_boole, residueWeight, Finset.filter_filter, eq_comm]
  rw [hcount] at hcoeff
  rw [Bool.eq_iff_iff, decide_eq_true_iff, ← ZMod.natCast_eq_one_iff_odd, ← hcoeff]
  cases (longDivision period ((1 <<< period) ^^^ 1) rounds value).testBit j <;> decide

/-- A divisor of two terms does not see a shift by the distance between them. -/
theorem longDivision_pair_shiftLeft {period : ℕ}
    (h : HasDegree period ((1 <<< period) ^^^ 1)) (hvalue : value < 2 ^ rounds) :
    longDivision period ((1 <<< period) ^^^ 1) rounds (value <<< period) =
      longDivision period ((1 <<< period) ^^^ 1) rounds value := by
  have hfits : value < 2 ^ (period + rounds) :=
    hvalue.trans_le (Nat.pow_le_pow_right Nat.two_pos (Nat.le_add_left rounds period))
  have hdvd : bitPoly ((1 <<< period) ^^^ 1) ∣ bitPoly (value <<< period) - bitPoly value := by
    have hfactor : bitPoly (value <<< period) - bitPoly value =
        bitPoly ((1 <<< period) ^^^ 1) * bitPoly value := by
      rw [bitPoly_shiftLeft, bitPoly_pair, add_mul, one_mul, CharTwo.sub_eq_add]
    exact Dvd.intro _ hfactor.symm
  apply bitPoly_injective
  rw [bitPoly_longDivision h (shiftLeft_lt hvalue), bitPoly_longDivision h hfits]
  exact modByMonic_eq_of_dvd_sub h.monic hdvd

end Comnet.Foundations
