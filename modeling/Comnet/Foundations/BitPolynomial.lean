/-
# Numbers as polynomials over the field of two elements

The bits of a number are the coefficients of a polynomial over the field of two
elements. Exclusive or is addition, a shift to the left is multiplication by a power
of the indeterminate, and the numbers below `2 ^ k` are the polynomials of degree
less than `k`.

Long division by a polynomial of degree `k` clears the bits from the highest down to
`k`, one shifted divisor for each. What is left is the remainder, and no other number
below `2 ^ k` differs from the dividend by a multiple of the divisor. A polynomial
with a constant term divides no short burst of bits, wherever it stands.
-/

import Mathlib.Algebra.CharP.Two
import Mathlib.Algebra.Field.ZMod
import Mathlib.Algebra.Polynomial.FieldDivision
import Mathlib.Data.LawfulXor.Basic
import Mathlib.RingTheory.PrincipalIdealDomain

set_option autoImplicit false

namespace Comnet.Foundations

open Polynomial

/-- The polynomial whose coefficients are the bits of a number. -/
noncomputable def bitPoly (bits : ℕ) : (ZMod 2)[X] :=
  ∑ i ∈ (Finset.range bits).filter (bits.testBit ·), X ^ i

/-- A divisor of degree `degree`: its highest bit stands there. -/
structure HasDegree (degree divisor : ℕ) : Prop where
  lower : 2 ^ degree ≤ divisor
  upper : divisor < 2 ^ (degree + 1)

/-- Long division by a divisor of a degree, from `rounds` places above it down; each round
clears one bit. -/
def longDivision (degree divisor : ℕ) : ℕ → ℕ → ℕ
  | 0, value => value
  | rounds + 1, value =>
    longDivision degree divisor rounds
      (if value.testBit (degree + rounds) then value ^^^ (divisor <<< rounds) else value)

variable {a b bits degree divisor value rounds r i : ℕ}

theorem coeff_bitPoly (bits i : ℕ) :
    (bitPoly bits).coeff i = if bits.testBit i then 1 else 0 := by
  rw [bitPoly, finsetSum_coeff]
  simp only [coeff_X_pow, Finset.sum_ite_eq, Finset.mem_filter, Finset.mem_range]
  congr 1
  have hlt : bits.testBit i = true → i < bits := fun h =>
    Nat.lt_of_lt_of_le Nat.lt_two_pow_self (Nat.ge_two_pow_of_testBit h)
  exact propext (and_iff_right_of_imp hlt)

theorem bitPoly_injective : Function.Injective bitPoly := by
  intro a b h
  apply Nat.eq_of_testBit_eq
  intro i
  have hcoeff := congrArg (fun p => p.coeff i) h
  simp only [coeff_bitPoly] at hcoeff
  cases ha : a.testBit i <;> cases hb : b.testBit i <;> simp_all

@[simp] theorem bitPoly_zero : bitPoly 0 = 0 := by
  simp [bitPoly]

@[simp] theorem bitPoly_eq_zero : bitPoly bits = 0 ↔ bits = 0 := by
  rw [← bitPoly_zero, bitPoly_injective.eq_iff]

/-- Exclusive or adds the coefficients. -/
theorem bitPoly_xor (a b : ℕ) : bitPoly (a ^^^ b) = bitPoly a + bitPoly b := by
  ext i
  rw [coeff_add, coeff_bitPoly, coeff_bitPoly, coeff_bitPoly, Nat.testBit_xor]
  cases a.testBit i <;> cases b.testBit i <;> decide

/-- A shift to the left multiplies by a power of the indeterminate. -/
theorem bitPoly_shiftLeft (a k : ℕ) : bitPoly (a <<< k) = X ^ k * bitPoly a := by
  ext i
  rw [coeff_X_pow_mul', coeff_bitPoly, coeff_bitPoly, Nat.testBit_shiftLeft]
  by_cases h : k ≤ i <;> simp [h]

theorem degree_bitPoly_lt : (bitPoly bits).degree < degree ↔ bits < 2 ^ degree := by
  rw [degree_lt_iff_coeff_zero]
  constructor
  · intro h
    apply Nat.lt_pow_two_of_testBit
    intro i hi
    have hcoeff := h i hi
    rw [coeff_bitPoly] at hcoeff
    by_contra hbit
    simp [hbit] at hcoeff
  · intro h i hi
    have hbit : bits.testBit i = false :=
      Nat.testBit_lt_two_pow (h.trans_le (Nat.pow_le_pow_right Nat.two_pos hi))
    rw [coeff_bitPoly, hbit]
    rfl

theorem HasDegree.testBit (h : HasDegree degree divisor) : divisor.testBit degree = true := by
  by_contra hbit
  have hlt : divisor < 2 ^ degree := by
    apply Nat.lt_pow_two_of_testBit
    intro i hi
    rcases Nat.eq_or_lt_of_le hi with rfl | hi
    · simpa using hbit
    · exact Nat.testBit_lt_two_pow (h.upper.trans_le (Nat.pow_le_pow_right Nat.two_pos hi))
  exact absurd h.lower (Nat.not_le.mpr hlt)

theorem HasDegree.degree_eq (h : HasDegree degree divisor) :
    (bitPoly divisor).degree = degree := by
  apply le_antisymm
  · apply Order.lt_succ_iff.mp
    exact_mod_cast degree_bitPoly_lt.mpr h.upper
  · apply le_degree_of_ne_zero
    rw [coeff_bitPoly, h.testBit]
    exact one_ne_zero

theorem HasDegree.monic (h : HasDegree degree divisor) : (bitPoly divisor).Monic := by
  rw [Monic, leadingCoeff, natDegree_eq_of_degree_eq_some h.degree_eq, coeff_bitPoly, h.testBit]
  rfl

/-! ## The remainder of a long division -/

/-- One round: the bit at the top is cleared, at the price of a multiple of the divisor. -/
theorem clear_top (h : HasDegree degree divisor) (hvalue : value < 2 ^ (degree + (rounds + 1)))
    (hbit : value.testBit (degree + rounds) = true) :
    value ^^^ (divisor <<< rounds) < 2 ^ (degree + rounds) := by
  apply Nat.lt_pow_two_of_testBit
  intro i hi
  rw [Nat.testBit_xor, Nat.testBit_shiftLeft]
  rcases Nat.eq_or_lt_of_le hi with rfl | hi
  · simp [hbit, h.testBit]
  · have hhigh : value.testBit i = false :=
      Nat.testBit_lt_two_pow (hvalue.trans_le (Nat.pow_le_pow_right Nat.two_pos (by omega)))
    have hshifted : divisor.testBit (i - rounds) = false :=
      Nat.testBit_lt_two_pow (h.upper.trans_le (Nat.pow_le_pow_right Nat.two_pos (by omega)))
    simp [hhigh, hshifted]

theorem clear_bit (hvalue : value < 2 ^ (degree + (rounds + 1)))
    (hbit : ¬ value.testBit (degree + rounds) = true) : value < 2 ^ (degree + rounds) := by
  apply Nat.lt_pow_two_of_testBit
  intro i hi
  rcases Nat.eq_or_lt_of_le hi with rfl | hi
  · simpa using hbit
  · exact Nat.testBit_lt_two_pow (hvalue.trans_le (Nat.pow_le_pow_right Nat.two_pos (by omega)))

/-- What is left has no bit from the degree of the divisor on. -/
theorem longDivision_lt (h : HasDegree degree divisor) (hvalue : value < 2 ^ (degree + rounds)) :
    longDivision degree divisor rounds value < 2 ^ degree := by
  induction rounds generalizing value with
  | zero => exact hvalue
  | succ rounds ih =>
    rw [longDivision]
    split_ifs with hbit
    · exact ih (clear_top h hvalue hbit)
    · exact ih (clear_bit hvalue hbit)

/-- Every round takes a multiple of the divisor off. -/
theorem dvd_longDivision (degree divisor rounds value : ℕ) :
    bitPoly divisor ∣ bitPoly value - bitPoly (longDivision degree divisor rounds value) := by
  induction rounds generalizing value with
  | zero => simp [longDivision]
  | succ rounds ih =>
    rw [longDivision]
    split_ifs
    · have hstep := ih (value ^^^ (divisor <<< rounds))
      rw [bitPoly_xor, bitPoly_shiftLeft, add_sub_right_comm] at hstep
      exact (dvd_add_left (dvd_mul_left _ _)).mp hstep
    · exact ih value

/-- Long division leaves the remainder. -/
theorem bitPoly_longDivision (h : HasDegree degree divisor)
    (hvalue : value < 2 ^ (degree + rounds)) :
    bitPoly (longDivision degree divisor rounds value) = bitPoly value %ₘ bitPoly divisor := by
  obtain ⟨quotient, hquotient⟩ := dvd_longDivision degree divisor rounds value
  refine (div_modByMonic_unique quotient _ h.monic ⟨?_, ?_⟩).2.symm
  · rw [← hquotient, add_sub_cancel]
  · rw [h.degree_eq]
    exact degree_bitPoly_lt.mpr (longDivision_lt h hvalue)

/-- A number below `2 ^ degree` that a divisor of that degree divides is zero. -/
theorem eq_zero_of_dvd (h : HasDegree degree divisor) (hbits : bits < 2 ^ degree)
    (hdvd : bitPoly divisor ∣ bitPoly bits) : bits = 0 := by
  apply bitPoly_eq_zero.mp
  apply eq_zero_of_dvd_of_degree_lt hdvd
  rw [h.degree_eq]
  exact degree_bitPoly_lt.mpr hbits

/-- The remainder of a sum is the sum of the remainders. -/
theorem longDivision_xor (h : HasDegree degree divisor) (ha : a < 2 ^ (degree + rounds))
    (hb : b < 2 ^ (degree + rounds)) :
    longDivision degree divisor rounds (a ^^^ b) =
      longDivision degree divisor rounds a ^^^ longDivision degree divisor rounds b := by
  apply bitPoly_injective
  rw [bitPoly_xor, bitPoly_longDivision h (Nat.xor_lt_two_pow ha hb), bitPoly_longDivision h ha,
    bitPoly_longDivision h hb, bitPoly_xor, add_modByMonic]

/-- The remainder is the one number below `2 ^ degree` that makes the dividend a multiple
of the divisor. -/
theorem dvd_xor_iff (h : HasDegree degree divisor) (hvalue : value < 2 ^ (degree + rounds))
    (hr : r < 2 ^ degree) :
    bitPoly divisor ∣ bitPoly (value ^^^ r) ↔ r = longDivision degree divisor rounds value := by
  have hleft := longDivision_lt h hvalue
  have hdvd := dvd_longDivision degree divisor rounds value
  rw [CharTwo.sub_eq_add] at hdvd
  rw [bitPoly_xor]
  constructor
  · intro hdvd'
    have hsum := dvd_add hdvd' hdvd
    rw [add_add_add_comm, CharTwo.add_self_eq_zero, zero_add, ← bitPoly_xor] at hsum
    exact xor_eq_zero_iff.mp (eq_zero_of_dvd h (Nat.xor_lt_two_pow hr hleft) hsum)
  · intro heq
    exact heq ▸ hdvd

theorem longDivision_eq_zero_iff (h : HasDegree degree divisor)
    (hvalue : value < 2 ^ (degree + rounds)) :
    longDivision degree divisor rounds value = 0 ↔ bitPoly divisor ∣ bitPoly value := by
  have hiff := dvd_xor_iff h hvalue (Nat.two_pow_pos degree)
  rw [Nat.xor_zero] at hiff
  exact eq_comm.trans hiff.symm

/-- A divisor with a constant term does not see shifts. -/
theorem dvd_shiftLeft_iff (odd : divisor.testBit 0 = true) (place : ℕ) :
    bitPoly divisor ∣ bitPoly (bits <<< place) ↔ bitPoly divisor ∣ bitPoly bits := by
  -- the indeterminate does not divide the divisor, so its powers can be cancelled
  have hcoprime : IsCoprime (bitPoly divisor) (X ^ place) := by
    have hirreducible : Irreducible (X : (ZMod 2)[X]) := irreducible_X
    apply hirreducible.coprime_pow_of_not_dvd
    rw [X_dvd_iff, coeff_bitPoly, odd]
    exact one_ne_zero
  rw [bitPoly_shiftLeft]
  exact ⟨hcoprime.dvd_of_dvd_mul_left, fun h => dvd_mul_of_dvd_right h _⟩

/-- A divisor with a constant term divides no bits that lie within a stretch as long as its degree,
wherever the stretch is. -/
theorem not_dvd_burst (h : HasDegree degree divisor) (odd : divisor.testBit 0 = true)
    (nonzero : bits ≠ 0) {place : ℕ}
    (span : ∀ i, bits.testBit i = true → place ≤ i ∧ i < place + degree) :
    ¬ bitPoly divisor ∣ bitPoly bits := by
  have hburst : (bits >>> place) <<< place = bits := by
    apply Nat.eq_of_testBit_eq
    intro i
    rw [Nat.testBit_shiftLeft, Nat.testBit_shiftRight]
    cases hbit : bits.testBit i with
    | true =>
      have hplace := (span i hbit).1
      simp [hplace, hbit]
    | false =>
      by_cases hplace : place ≤ i
      · simp [hplace, hbit]
      · simp [hplace]
  have hlt : bits >>> place < 2 ^ degree := by
    apply Nat.lt_pow_two_of_testBit
    intro i hi
    rw [Nat.testBit_shiftRight]
    by_contra hbit
    have hupper := (span _ (by simpa using hbit)).2
    omega
  intro hdvd
  rw [← hburst, dvd_shiftLeft_iff odd] at hdvd
  rw [eq_zero_of_dvd h hlt hdvd, Nat.zero_shiftLeft] at hburst
  exact nonzero hburst.symm

end Comnet.Foundations
