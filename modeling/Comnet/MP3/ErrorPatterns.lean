/-
# Which errors go undetected

A codeword that was changed passes its check exactly when the generator divides the change, and
of the generator only the part behind its factors of the indeterminate counts. That tells for every
generator how many of the errors of a length pass, which pairs of bits do and whether an odd number
of bits can.
-/

import Comnet.Foundations.BitDivisors
import Comnet.MP3.Detection
import Mathlib.Tactic.IntervalCases

set_option autoImplicit false

namespace Comnet.MP3

open Foundations

variable {generator : BitVec 16} {inBits : ℤ} {data crc error : BitVec 64}
  {divisor k bits i j : ℕ}

/-- A generator with its factors of the indeterminate taken out. -/
structure OddPart (generator : BitVec 16) (divisor k : ℕ) : Prop where
  lower : 8 ≤ generator.toNat
  upper : generator.toNat ≤ 15
  eq : generator.toNat = divisor <<< k
  odd : divisor % 2 = 1

theorem OddPart.hasDegree_generator (h : OddPart generator divisor k) :
    HasDegree 3 generator.toNat :=
  ⟨h.lower, Nat.lt_succ_of_le h.upper⟩

theorem OddPart.testBit (h : OddPart generator divisor k) : divisor.testBit 0 = true := by
  rw [Nat.testBit_zero]
  exact decide_eq_true h.odd

theorem OddPart.le (h : OddPart generator divisor k) : k ≤ 3 := by
  have hupper := h.upper
  have hodd := h.odd
  rw [h.eq, Nat.shiftLeft_eq] at hupper
  have hpow : 2 ^ k ≤ 15 := (Nat.le_mul_of_pos_left _ (by omega)).trans hupper
  by_contra hlarge
  have hsixteen : 2 ^ 4 ≤ 2 ^ k := Nat.pow_le_pow_right Nat.two_pos (by omega)
  omega

theorem OddPart.hasDegree (h : OddPart generator divisor k) : HasDegree (3 - k) divisor := by
  have hlower := h.lower
  have hupper := h.upper
  have hle := h.le
  rw [h.eq, Nat.shiftLeft_eq] at hlower hupper
  interval_cases k <;> exact ⟨by omega, by omega⟩

/-- Exactly the multiples of the odd part of the generator pass. -/
theorem generateCrc_codeword_xor_iff (h : OddPart generator divisor k) (nonneg : 0 ≤ inBits)
    (short : inBits + 3 ≤ 28) (hdata : data.toNat < 2 ^ inBits.toNat)
    (hresult : generateCrc generator inBits data = some crc)
    (herror : error.toNat < 2 ^ (inBits + 3).toNat) :
    generateCrc generator (inBits + 3) (codeword data crc ^^^ error) = some 0 ↔
      bitPoly divisor ∣ bitPoly error.toNat := by
  have hg := h.hasDegree_generator
  obtain ⟨hword, hpasses⟩ := generateCrc_codeword hg nonneg short hdata hresult
  rw [generateCrc_xor hg short hword herror hpasses, generateCrc_eq_zero_iff hg short herror,
    h.eq, shiftLeft_dvd_shiftLeft_iff h.testBit h.le]

/-- The number of an error that fits. -/
theorem toNat_ofNat_error (hbits : inBits + 3 ≤ 28) (herror : bits < 2 ^ (inBits + 3).toNat) :
    (BitVec.ofNat 64 bits).toNat = bits := by
  have hpow : 2 ^ (inBits + 3).toNat ≤ 2 ^ 28 := Nat.pow_le_pow_right Nat.two_pos (by omega)
  rw [BitVec.toNat_ofNat]
  exact Nat.mod_eq_of_lt (by omega)

/-- Of the errors of a length, as many as there are data words of it pass the check of any codeword,
times two for each factor of the indeterminate in the generator. -/
theorem undetected_card (h : OddPart generator divisor k) (nonneg : 0 ≤ inBits)
    (short : inBits + 3 ≤ 28) (hdata : data.toNat < 2 ^ inBits.toNat) :
    ∃ crc, generateCrc generator inBits data = some crc ∧
      ((Finset.range (2 ^ (inBits + 3).toNat)).filter fun e =>
        generateCrc generator (inBits + 3) (codeword data crc ^^^ BitVec.ofNat 64 e) =
          some 0).card = 2 ^ (inBits.toNat + k) := by
  classical
  obtain ⟨crc, hresult, -⟩ := generateCrc_eq h.hasDegree_generator (by omega) hdata
  refine ⟨crc, hresult, ?_⟩
  have hle := h.le
  have hlength : (inBits + 3).toNat = 3 - k + (inBits.toNat + k) := by omega
  rw [← card_dvd h.hasDegree (inBits.toNat + k), ← hlength]
  -- the errors that pass are the multiples of the odd part, whatever the codeword
  refine congrArg Finset.card (Finset.filter_congr fun e he => ?_)
  have hnumber := toNat_ofNat_error short (Finset.mem_range.mp he)
  rw [generateCrc_codeword_xor_iff h nonneg short hdata hresult
    (hnumber.symm ▸ Finset.mem_range.mp he), hnumber]

/-- The generator `x³ + x` and five bits of data: 64 of the 256 errors pass. -/
theorem undetected_card_ten : ∃ crc, generateCrc 10 5 19 = some crc ∧
    ((Finset.range (2 ^ 8)).filter fun e =>
      generateCrc 10 (5 + 3) (codeword 19 crc ^^^ BitVec.ofNat 64 e) = some 0).card = 2 ^ (5 + 1) :=
  @undetected_card 10 5 19 5 1 ⟨by decide, by decide, by decide, by decide⟩ (by decide)
    (by decide) (by decide)

/-! ## Two bits -/

/-- The distances at which two bits pass are the multiples of this one. -/
def pairPeriod (generator : ℕ) : ℕ :=
  match generator with
  | 8 => 1
  | 9 => 3
  | 10 => 2
  | 11 => 7
  | 12 => 1
  | 13 => 7
  | 14 => 3
  | _ => 4

/-- Every generator has an odd part, with its period. -/
theorem exists_oddPart (lower : 8 ≤ generator.toNat) (upper : generator.toNat ≤ 15) :
    ∃ divisor k, OddPart generator divisor k ∧ HasPeriod divisor (pairPeriod generator.toNat) := by
  have hperiod : ∀ degree {divisor k}, generator.toNat = divisor <<< k → divisor % 2 = 1 →
      HasDegree degree divisor →
      0 < pairPeriod (divisor <<< k) →
      longDivision degree divisor (pairPeriod (divisor <<< k) + 1)
        ((1 <<< pairPeriod (divisor <<< k)) ^^^ 1) = 0 →
      (∀ n < pairPeriod (divisor <<< k), 0 < n →
        longDivision degree divisor (pairPeriod (divisor <<< k) + 1) ((1 <<< n) ^^^ 1) ≠ 0) →
      ∃ divisor k, OddPart generator divisor k ∧
        HasPeriod divisor (pairPeriod generator.toNat) := by
    intro degree divisor k heq hodd hdegree hpos hdvd hleast
    exact ⟨divisor, k, ⟨lower, upper, heq, hodd⟩,
      heq ▸ hasPeriod_of_longDivision hdegree hpos hdvd hleast⟩
  obtain h | h | h | h | h | h | h | h : generator.toNat = 1 <<< 3 ∨ generator.toNat = 9 <<< 0 ∨
      generator.toNat = 5 <<< 1 ∨ generator.toNat = 11 <<< 0 ∨ generator.toNat = 3 <<< 2 ∨
      generator.toNat = 13 <<< 0 ∨ generator.toNat = 7 <<< 1 ∨ generator.toNat = 15 <<< 0 := by
    omega
  · exact hperiod 0 h (by decide) ⟨by decide, by decide⟩ (by decide) (by decide) (by decide)
  · exact hperiod 3 h (by decide) ⟨by decide, by decide⟩ (by decide) (by decide) (by decide)
  · exact hperiod 2 h (by decide) ⟨by decide, by decide⟩ (by decide) (by decide) (by decide)
  · exact hperiod 3 h (by decide) ⟨by decide, by decide⟩ (by decide) (by decide) (by decide)
  · exact hperiod 1 h (by decide) ⟨by decide, by decide⟩ (by decide) (by decide) (by decide)
  · exact hperiod 3 h (by decide) ⟨by decide, by decide⟩ (by decide) (by decide) (by decide)
  · exact hperiod 2 h (by decide) ⟨by decide, by decide⟩ (by decide) (by decide) (by decide)
  · exact hperiod 3 h (by decide) ⟨by decide, by decide⟩ (by decide) (by decide) (by decide)

/-- Two changed bits pass exactly at the distances that are multiples of the period of the
generator: of three bits for the one of the evaluation, of seven for the two irreducible ones. -/
theorem two_errors_pass_iff (lower : 8 ≤ generator.toNat) (upper : generator.toNat ≤ 15)
    (nonneg : 0 ≤ inBits) (short : inBits + 3 ≤ 28) (hdata : data.toNat < 2 ^ inBits.toNat)
    (hij : i < j) (hj : j < inBits + 3) :
    ∃ crc, generateCrc generator inBits data = some crc ∧
      (generateCrc generator (inBits + 3)
          (codeword data crc ^^^ BitVec.ofNat 64 ((1 <<< j) ^^^ (1 <<< i))) = some 0 ↔
        pairPeriod generator.toNat ∣ j - i) := by
  obtain ⟨divisor, k, hodd, hperiod⟩ := exists_oddPart lower upper
  obtain ⟨crc, hresult, -⟩ := generateCrc_eq hodd.hasDegree_generator (by omega) hdata
  refine ⟨crc, hresult, ?_⟩
  have hone : ∀ n : ℕ, n < inBits + 3 → 1 <<< n < 2 ^ (inBits + 3).toNat := fun n hn => by
    rw [Nat.one_shiftLeft]
    exact Nat.pow_lt_pow_right (by decide) (by omega)
  have hfits : (1 <<< j) ^^^ (1 <<< i) < 2 ^ (inBits + 3).toNat :=
    Nat.xor_lt_two_pow (hone j hj) (hone i (by omega))
  have hnumber := toNat_ofNat_error short hfits
  rw [generateCrc_codeword_xor_iff hodd nonneg short hdata hresult (hnumber.symm ▸ hfits),
    hnumber, hperiod.dvd_two_iff hodd.testBit hij.le]

/-- Bits two and five of a codeword of the generator `x³ + 1`. -/
theorem two_errors_pass_iff_nine : ∃ crc, generateCrc 9 8 200 = some crc ∧
    (generateCrc 9 (8 + 3) (codeword 200 crc ^^^ BitVec.ofNat 64 ((1 <<< 5) ^^^ (1 <<< 2))) =
      some 0 ↔ 3 ∣ 5 - 2) :=
  @two_errors_pass_iff 9 8 200 2 5 (by decide) (by decide) (by decide) (by decide) (by decide)
    (by decide) (by decide)

/-! ## An odd number of bits -/

/-- No error in an odd number of bits passes exactly when the generator has an even number of
terms. -/
theorem odd_errors_detected_iff (lower : 8 ≤ generator.toNat) (upper : generator.toNat ≤ 15)
    (pos : 1 ≤ inBits) (short : inBits + 3 ≤ 28) (hdata : data.toNat < 2 ^ inBits.toNat) :
    ∃ crc, generateCrc generator inBits data = some crc ∧
      ((∀ e < 2 ^ (inBits + 3).toNat, Odd (weight e) →
          generateCrc generator (inBits + 3) (codeword data crc ^^^ BitVec.ofNat 64 e) ≠ some 0) ↔
        Even (weight generator.toNat)) := by
  obtain ⟨divisor, k, hodd, -⟩ := exists_oddPart lower upper
  obtain ⟨crc, hresult, -⟩ := generateCrc_eq hodd.hasDegree_generator (by omega) hdata
  refine ⟨crc, hresult, ?_⟩
  have hpasses : ∀ e < 2 ^ (inBits + 3).toNat,
      generateCrc generator (inBits + 3) (codeword data crc ^^^ BitVec.ofNat 64 e) = some 0 ↔
        bitPoly divisor ∣ bitPoly e := fun e he => by
    have hnumber := toNat_ofNat_error short he
    rw [generateCrc_codeword_xor_iff hodd (by omega) short hdata hresult (hnumber.symm ▸ he),
      hnumber]
  rw [hodd.eq, even_weight_shiftLeft]
  constructor
  · intro hdetected
    have hdivisor : divisor < 2 ^ (inBits + 3).toNat := by
      have hsmall : divisor ≤ 15 :=
        (Nat.le_mul_of_pos_right divisor (Nat.two_pow_pos k)).trans
          (Nat.shiftLeft_eq divisor k ▸ hodd.eq ▸ upper)
      have hpow : 2 ^ 4 ≤ 2 ^ (inBits + 3).toNat := Nat.pow_le_pow_right Nat.two_pos (by omega)
      omega
    by_contra hweight
    exact hdetected divisor hdivisor (Nat.not_even_iff_odd.mp hweight)
      ((hpasses divisor hdivisor).mpr dvd_rfl)
  · intro heven e he hweight hpass
    exact Nat.not_even_iff_odd.mpr hweight (even_weight_of_dvd heven ((hpasses e he).mp hpass))

theorem odd_errors_detected_iff_nine : ∃ crc, generateCrc 9 8 200 = some crc ∧
    ((∀ e < 2 ^ 11, Odd (weight e) →
      generateCrc 9 (8 + 3) (codeword 200 crc ^^^ BitVec.ofNat 64 e) ≠ some 0) ↔
        Even (weight 9)) :=
  @odd_errors_detected_iff 9 8 200 (by decide) (by decide) (by decide) (by decide) (by decide)

end Comnet.MP3
