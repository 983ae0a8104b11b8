/-
# The cyclic redundancy check

`generateCrc` divides the data, shifted to make room for the check, by the generator.
The accumulator is a `long`, and both the divisor and the bit it is tested with are
shifted as an `int`. Up to 28 bits of data these shifts are exact, and what is left in
the accumulator is the remainder of the division over the field of two elements.
-/

import Comnet.Foundations.BitPolynomial
import Comnet.Foundations.MachineInt
import Mathlib.Data.Nat.Bitwise

set_option autoImplicit false

namespace Comnet.MP3

open Foundations

/-- `GENERATOR_LENGTH`, in bits. -/
def generatorLength : ℕ := 4

/-- The bit that iteration `i` looks at. -/
def bitTest (i : ℕ) : Option (BitVec 32) := shl 1 (i - 1)

/-- The divisor as iteration `i` subtracts it; the generator is promoted to an `int`. -/
def shiftGen (generator : BitVec 16) (i : ℕ) : Option (BitVec 32) :=
  shl (generator.signExtend 32) (i - generatorLength)

/-- A number of iterations of the loop of `generate_crc`, down to the last one. -/
def divisionLoop (generator : BitVec 16) : ℕ → BitVec 64 → Option (BitVec 64)
  | 0, crc => some crc
  | rounds + 1, crc => do
    -- the last iteration is the one at `generatorLength`
    let i := rounds + generatorLength
    let shifted ← shiftGen generator i
    let bit ← bitTest i
    divisionLoop generator rounds
      (if crc &&& bit.signExtend 64 ≠ 0 then crc ^^^ shifted.signExtend 64 else crc)

/-- One iteration of the loop of `generate_crc`. -/
def iteration (generator : BitVec 16) (crc : BitVec 64) (i : ℕ) : Option (BitVec 64) := do
  let shifted ← shiftGen generator i
  let bit ← bitTest i
  some (if crc &&& bit.signExtend 64 ≠ 0 then crc ^^^ shifted.signExtend 64 else crc)

/-- The values of `i` in the loop of `generate_crc`, from the first iteration to the last. -/
def iterations (inBits : ℤ) : List ℕ :=
  ((List.range inBits.toNat).map (· + generatorLength)).reverse

/-- Generate the check of `data`. A shift that is undefined leaves no result. -/
def generateCrc (generator : BitVec 16) (inBits : ℤ) (data : BitVec 64) : Option (BitVec 64) :=
  divisionLoop generator inBits.toNat (data <<< (generatorLength - 1))

variable {generator : BitVec 16} {inBits : ℤ} {data crc : BitVec 64} {i rounds : ℕ}

/-! ## The shifts of one iteration -/

/-- Both shifts of iteration `i` denote what they denote on unbounded integers. -/
def ShiftsExact (generator : BitVec 16) (i : ℕ) : Prop :=
  (∃ bit, bitTest i = some bit ∧ bit.toInt = 2 ^ (i - 1)) ∧
    ∃ shifted, shiftGen generator i = some shifted ∧
      shifted.toInt = generator.toInt * 2 ^ (i - generatorLength)

theorem bitTest_exact_iff :
    (∃ bit, bitTest i = some bit ∧ bit.toInt = 2 ^ (i - 1)) ↔ i - 1 < 31 := by
  have hiff := shl_exact_iff (1 : BitVec 32) (i - 1)
  rw [show (1 : BitVec 32).toInt = 1 from rfl, one_mul] at hiff
  rw [bitTest, hiff]
  constructor
  · rintro ⟨-, -, upper⟩
    have hpow : (2 : ℤ) ^ (i - 1) < 2 ^ 31 := by omega
    exact (pow_lt_pow_iff_right₀ one_lt_two).mp hpow
  · intro h
    have hpow : (2 : ℤ) ^ (i - 1) < 2 ^ 31 := (pow_lt_pow_iff_right₀ one_lt_two).mpr h
    have hpos : (0 : ℤ) < 2 ^ (i - 1) := by positivity
    refine ⟨by omega, by omega, by omega⟩

/-- A generator of degree three keeps its value while its highest bit stays below the
sign bit. -/
theorem shiftGen_exact_iff (lower : 8 ≤ generator.toNat) (upper : generator.toNat ≤ 15) :
    (∃ shifted, shiftGen generator i = some shifted ∧
      shifted.toInt = generator.toInt * 2 ^ (i - generatorLength)) ↔
        i - generatorLength < 28 := by
  have hint : generator.toInt = generator.toNat :=
    BitVec.toInt_eq_toNat_of_lt (by omega)
  have hiff := shl_exact_iff (generator.signExtend 32) (i - generatorLength)
  rw [BitVec.toInt_signExtend_of_le (by decide)] at hiff
  rw [shiftGen, hiff, hint]
  constructor
  · rintro ⟨-, -, hupper⟩
    have hpow : (2 : ℤ) ^ (i - generatorLength) < 2 ^ 28 := by nlinarith
    exact (pow_lt_pow_iff_right₀ one_lt_two).mp hpow
  · intro h
    have hpow : (2 : ℤ) ^ (i - generatorLength) ≤ 2 ^ 27 :=
      (pow_le_pow_iff_right₀ one_lt_two).mpr (by omega)
    have hpos : (0 : ℤ) < 2 ^ (i - generatorLength) := by positivity
    refine ⟨by omega, by nlinarith, by nlinarith⟩

/-- The highest bit of the divisor and the bit it is tested with are the same one. -/
theorem shiftsExact_iff (lower : 8 ≤ generator.toNat) (upper : generator.toNat ≤ 15) :
    ShiftsExact generator i ↔ i < 32 := by
  rw [ShiftsExact, bitTest_exact_iff, shiftGen_exact_iff lower upper]
  unfold generatorLength
  omega

theorem mem_iterations :
    i ∈ iterations inBits ↔ generatorLength ≤ i ∧ (i : ℤ) < inBits + generatorLength := by
  unfold iterations
  rw [List.mem_reverse, List.mem_map]
  constructor
  · rintro ⟨round, hround, rfl⟩
    have hlt := List.mem_range.mp hround
    omega
  · rintro ⟨hle, hlt⟩
    exact ⟨i - generatorLength, List.mem_range.mpr (by omega), by omega⟩

/-- The loop goes through these iterations and no others. -/
theorem divisionLoop_iterations (generator : BitVec 16) (rounds : ℕ) (crc : BitVec 64) :
    divisionLoop generator rounds crc = (iterations rounds).foldlM (iteration generator) crc := by
  induction rounds generalizing crc with
  | zero => rfl
  | succ rounds ih =>
    have hfirst : iterations (rounds + 1 : ℕ) =
        (rounds + generatorLength) :: iterations rounds := by
      simp only [iterations, Int.toNat_natCast, List.range_succ, List.map_append, List.map_cons,
        List.map_nil, List.reverse_append, List.reverse_singleton, List.singleton_append]
    rw [hfirst, List.foldlM_cons, divisionLoop, iteration]
    cases shiftGen generator (rounds + generatorLength) with
    | none => rfl
    | some shifted =>
      cases bitTest (rounds + generatorLength) with
      | none => rfl
      | some bit => exact ih _

/-- The shifts of every iteration are exact exactly up to 28 bits of data. The iterations are the
same for all data of that length. -/
theorem iterations_exact_iff (lower : 8 ≤ generator.toNat) (upper : generator.toNat ≤ 15) :
    (∀ i : ℕ, generatorLength ≤ i → (i : ℤ) < inBits + generatorLength →
      ShiftsExact generator i) ↔ inBits ≤ 28 := by
  constructor
  · intro h
    by_contra hlong
    have hfirst := h (inBits.toNat + 3) (by unfold generatorLength; omega)
      (by unfold generatorLength; omega)
    have hlt := (shiftsExact_iff lower upper).mp hfirst
    omega
  · intro h i _ hfirst
    have hlength : generatorLength = 4 := rfl
    exact (shiftsExact_iff lower upper).mpr (by omega)

theorem iterations_exact_iff_nine :
    (∀ i : ℕ, generatorLength ≤ i → (i : ℤ) < 29 + generatorLength → ShiftsExact 9 i) ↔
      (29 : ℤ) ≤ 28 :=
  iterations_exact_iff (by decide) (by decide)

/-- With 29 bits of data the first test shifts a one into the sign of an `int`. -/
theorem iteration_leaves_range :
    ¬ ∀ (generator : BitVec 16) (inBits : ℤ), 8 ≤ generator.toNat → generator.toNat ≤ 15 →
      0 ≤ inBits → inBits ≤ 60 → ∀ data : BitVec 64, data.toNat < 2 ^ inBits.toNat →
        ∀ i : ℕ, generatorLength ≤ i → (i : ℤ) < inBits + generatorLength →
          ShiftsExact generator i := by
  intro h
  have hexact := h 9 29 (by decide) (by decide) (by decide) (by decide) 0 (by decide) 32
    (by decide) (by decide)
  exact absurd ((shiftsExact_iff (by decide) (by decide)).mp hexact) (by decide)

/-! ## The division -/

/-- Where its shifts are exact, an iteration works with the values they denote. -/
theorem ShiftsExact.values (h : ShiftsExact generator i)
    (hint : generator.toInt = generator.toNat) :
    ∃ bit shifted, bitTest i = some bit ∧ shiftGen generator i = some shifted ∧
      (bit.signExtend 64).toNat = 2 ^ (i - 1) ∧
      (shifted.signExtend 64).toNat = generator.toNat <<< (i - generatorLength) := by
  obtain ⟨⟨bit, hbit, htest⟩, shifted, hshifted, hdivisor⟩ := h
  refine ⟨bit, shifted, hbit, hshifted, toNat_signExtend ?_ (by decide),
    toNat_signExtend ?_ (by decide)⟩
  · rw [htest, Nat.cast_pow, Nat.cast_ofNat]
  · rw [hdivisor, hint, Nat.shiftLeft_eq, Nat.cast_mul, Nat.cast_pow, Nat.cast_ofNat]

/-- The bit test of an iteration looks at the bit it names. -/
theorem and_bit_ne_zero {bit : BitVec 64} {k : ℕ} (h : bit.toNat = 2 ^ k) :
    crc &&& bit ≠ 0 ↔ crc.toNat.testBit k = true := by
  rw [ne_eq, ← BitVec.toNat_inj, BitVec.toNat_and, h, Nat.and_two_pow]
  cases crc.toNat.testBit k <;> simp

/-- The loop divides. -/
theorem divisionLoop_eq (hg : HasDegree 3 generator.toNat) (hrounds : rounds ≤ 28)
    (hcrc : crc.toNat < 2 ^ (3 + rounds)) :
    divisionLoop generator rounds crc =
      some (BitVec.ofNat 64 (longDivision 3 generator.toNat rounds crc.toNat)) := by
  have lower : 8 ≤ generator.toNat := hg.lower
  have upper : generator.toNat ≤ 15 := Nat.lt_succ_iff.mp hg.upper
  induction rounds generalizing crc with
  | zero => simp [divisionLoop, longDivision]
  | succ rounds ih =>
    have hexact : ShiftsExact generator (rounds + generatorLength) :=
      (shiftsExact_iff lower upper).mpr (by unfold generatorLength; omega)
    obtain ⟨bit, shifted, hbit, hshifted, htest, hdivisor⟩ :=
      hexact.values (BitVec.toInt_eq_toNat_of_lt (by omega))
    rw [Nat.add_sub_cancel] at hdivisor
    rw [show rounds + generatorLength - 1 = 3 + rounds by unfold generatorLength; omega] at htest
    rw [divisionLoop, hshifted, hbit, longDivision]
    simp only [Option.bind_eq_bind, Option.bind_some, and_bit_ne_zero htest]
    split_ifs with hset
    · have hxor : (crc ^^^ shifted.signExtend 64).toNat =
          crc.toNat ^^^ (generator.toNat <<< rounds) := by
        rw [BitVec.toNat_xor, hdivisor]
      rw [← hxor]
      apply ih (by omega)
      rw [hxor]
      exact clear_top hg hcrc hset
    · exact ih (by omega) (clear_bit hcrc hset)

theorem dividend_lt {bits : ℕ} (hbits : bits ≤ 28) (hdata : data.toNat < 2 ^ bits) :
    (data <<< (generatorLength - 1)).toNat = data.toNat <<< 3 ∧
      data.toNat <<< 3 < 2 ^ (3 + bits) := by
  have hpow : (2 : ℕ) ^ bits ≤ 2 ^ 28 := Nat.pow_le_pow_right Nat.two_pos hbits
  have hshift : data.toNat <<< 3 = 8 * data.toNat := by rw [Nat.shiftLeft_eq, mul_comm]
  refine ⟨?_, ?_⟩
  · rw [BitVec.toNat_shiftLeft]
    apply Nat.mod_eq_of_lt
    rw [show generatorLength - 1 = 3 from rfl, hshift]
    omega
  · rw [hshift, pow_add]
    omega

/-- The check of up to 28 bits of data. -/
theorem generateCrc_eq (hg : HasDegree 3 generator.toNat) (hbits : inBits ≤ 28)
    (hdata : data.toNat < 2 ^ inBits.toNat) :
    ∃ crc : BitVec 64, generateCrc generator inBits data = some crc ∧
      crc.toNat = longDivision 3 generator.toNat inBits.toNat (data.toNat <<< 3) := by
  obtain ⟨hshift, hlt⟩ := dividend_lt (by omega) hdata
  refine ⟨_, divisionLoop_eq hg (by omega) (hshift.symm ▸ hlt), ?_⟩
  have hleft := longDivision_lt hg hlt
  rw [hshift, BitVec.toNat_ofNat]
  exact Nat.mod_eq_of_lt (hleft.trans (by norm_num))

/-- The check is the polynomial remainder of the shifted data, and the one number below eight that
makes a codeword a multiple of the generator. -/
theorem generateCrc_remainder (lower : 8 ≤ generator.toNat) (upper : generator.toNat ≤ 15)
    (nonneg : 0 ≤ inBits) (short : inBits ≤ 28) (hdata : data.toNat < 2 ^ inBits.toNat) :
    ∃ crc : BitVec 64, generateCrc generator inBits data = some crc ∧ crc.toNat < 8 ∧
      bitPoly crc.toNat =
        (bitPoly data.toNat * Polynomial.X ^ 3) %ₘ bitPoly generator.toNat ∧
      ∀ r < 8, bitPoly generator.toNat ∣ bitPoly ((data.toNat <<< 3) ^^^ r) ↔ r = crc.toNat := by
  have hg : HasDegree 3 generator.toNat := ⟨lower, Nat.lt_succ_of_le upper⟩
  have hlt := (dividend_lt (by omega) hdata).2
  obtain ⟨crc, hresult, hcrc⟩ := generateCrc_eq hg short hdata
  refine ⟨crc, hresult, ?_, ?_, ?_⟩
  · rw [hcrc]
    exact longDivision_lt hg hlt
  · rw [hcrc, bitPoly_longDivision hg hlt, bitPoly_shiftLeft, mul_comm]
  · intro r hr
    rw [hcrc]
    exact dvd_xor_iff hg hlt hr

theorem generateCrc_remainder_five :
    ∃ crc : BitVec 64, generateCrc 9 4 5 = some crc ∧ crc.toNat < 8 ∧
      bitPoly crc.toNat =
        (bitPoly (5 : BitVec 64).toNat * Polynomial.X ^ 3) %ₘ bitPoly (9 : BitVec 16).toNat ∧
      ∀ r < 8, bitPoly (9 : BitVec 16).toNat ∣ bitPoly (((5 : BitVec 64).toNat <<< 3) ^^^ r) ↔
        r = crc.toNat :=
  generateCrc_remainder (by decide) (by decide) (by decide) (by decide) (by decide)

end Comnet.MP3
