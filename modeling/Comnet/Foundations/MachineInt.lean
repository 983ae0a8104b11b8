/-
# Machine integers

A signed machine integer is an integer. What is stored into a signed 32-bit variable
is taken modulo `2 ^ 32` into its range: that is the conversion of a wider value, and
what a counter does that is raised past its range. The language leaves the latter
undefined and the compiled program wraps. Unsigned words wrap, a word read as a signed
integer is its two's complement value, and an integer stored into a word is taken modulo
`2 ^ 32`.

Where bits are worked on, a machine integer is a bit vector of the width of its type.
A shift to the left drops what leaves the width, and one by the width or more is
undefined.
-/

import Mathlib.Data.Int.ModEq
import Mathlib.Tactic.Linarith

set_option autoImplicit false

namespace Comnet.Foundations

/-- An integer stored into a 32-bit word. -/
def toWord (value : ℤ) : UInt32 := UInt32.ofInt value

/-- A 32-bit word read as a signed integer. -/
def asInt (word : UInt32) : ℤ :=
  if word.toNat < 2 ^ 31 then word.toNat else word.toNat - 2 ^ 32

/-- An integer stored into a signed 32-bit variable. -/
def narrow (value : ℤ) : ℤ := asInt (toWord value)

/-- The integer is the value of a 32-bit word. -/
structure FitsWord (value : ℤ) : Prop where
  lower : 0 ≤ value
  upper : value < 2 ^ 32

/-- The integer is the value of a signed 32-bit variable. -/
structure FitsInt (value : ℤ) : Prop where
  lower : -2 ^ 31 ≤ value
  upper : value < 2 ^ 31

variable {word : UInt32} {value : ℤ}

theorem toNat_toWord (value : ℤ) : (toWord value).toNat = (value % 2 ^ 32).toNat := by
  have bound : (value % 2 ^ 32).toNat < 2 ^ 32 := by omega
  exact Nat.mod_eq_of_lt bound

/-- Storing an in-range integer into a word keeps its value. -/
theorem toNat_toWord_of_lt (nonneg : 0 ≤ value) (bound : value < 2 ^ 32) :
    (toWord value).toNat = value.toNat := by
  rw [toNat_toWord, Int.emod_eq_of_lt nonneg bound]

theorem toNat_sub_one (pos : 1 ≤ word.toNat) : (word - 1).toNat = word.toNat - 1 :=
  UInt32.toNat_sub_of_le _ _ (UInt32.le_iff_toNat_le.mpr pos)

theorem asInt_of_lt (bound : word.toNat < 2 ^ 31) : asInt word = word.toNat :=
  if_pos bound

/-- A word read as signed has the value of a natural number exactly when it has it itself,
within the signed range. -/
theorem asInt_eq_natCast_iff {count : ℕ} :
    asInt word = count ↔ word.toNat = count ∧ count < 2 ^ 31 := by
  have bound := word.toNat_lt
  rw [asInt]
  split_ifs <;> omega

theorem asInt_neg_iff : asInt word < 0 ↔ 2 ^ 31 ≤ word.toNat := by
  have bound := word.toNat_lt
  rw [asInt]
  split_ifs <;> omega

theorem asInt_lt (word : UInt32) : asInt word < 2 ^ 31 := by
  have bound := word.toNat_lt
  rw [asInt]
  split_ifs <;> omega

/-- Reading a word as signed and storing it back changes nothing. -/
@[simp] theorem toWord_asInt (word : UInt32) : toWord (asInt word) = word := by
  apply UInt32.toNat_inj.mp
  have bound := word.toNat_lt
  rw [toNat_toWord, asInt]
  split_ifs <;> omega

/-- An integer within the signed range survives being stored. -/
theorem narrow_of_mem (lower : -2 ^ 31 ≤ value) (upper : value < 2 ^ 31) :
    narrow value = value := by
  have hword : ((toWord value).toNat : ℤ) = value % 2 ^ 32 := by
    rw [toNat_toWord]
    omega
  rw [narrow, asInt]
  split_ifs <;> omega

theorem fitsInt_zero : FitsInt 0 := ⟨by decide, by decide⟩

theorem fitsInt_one : FitsInt 1 := ⟨by decide, by decide⟩

theorem FitsInt.narrow (h : FitsInt value) : Foundations.narrow value = value :=
  narrow_of_mem h.lower h.upper

/-- Storing an integer takes it into the signed range, modulo `2 ^ 32`. -/
theorem narrow_eq (value : ℤ) : narrow value = (value + 2 ^ 31) % 2 ^ 32 - 2 ^ 31 := by
  have hword : ((toWord value).toNat : ℤ) = value % 2 ^ 32 := by
    rw [toNat_toWord]
    omega
  rw [narrow, asInt]
  split_ifs <;> omega

theorem fitsInt_narrow (value : ℤ) : FitsInt (narrow value) := by
  rw [narrow_eq]
  constructor <;> omega

/-- Dividing takes no integer out of the signed range. -/
theorem FitsInt.tdiv {divisor : ℤ} (h : FitsInt value) (pos : 0 < divisor) :
    FitsInt (value.tdiv divisor) := by
  have hlower := h.lower
  have hupper := h.upper
  by_cases hnonneg : 0 ≤ value
  · rw [Int.tdiv_eq_ediv_of_nonneg hnonneg]
    have hle := Int.ediv_le_self divisor hnonneg
    have hquotient := Int.ediv_nonneg hnonneg pos.le
    constructor <;> omega
  · obtain ⟨size, rfl⟩ : ∃ size, value = -size := ⟨-value, by omega⟩
    rw [Int.neg_tdiv, Int.tdiv_eq_ediv_of_nonneg (by omega)]
    have hle := Int.ediv_le_self divisor (show 0 ≤ size by omega)
    have hquotient := Int.ediv_nonneg (show 0 ≤ size by omega) pos.le
    constructor <;> omega

/-- What has wrapped before is of no matter to what is added to it. -/
theorem narrow_narrow_add (value other : ℤ) :
    narrow (narrow value + other) = narrow (value + other) := by
  simp only [narrow_eq]
  omega

/-- Exactly the values of a signed variable survive being stored in one. -/
theorem narrow_eq_self_iff : narrow value = value ↔ FitsInt value := by
  constructor
  · intro h
    have bound := (toWord value).toNat_lt
    rw [narrow, asInt] at h
    constructor <;> split_ifs at h <;> omega
  · exact fun h => narrow_of_mem h.lower h.upper

/-- What a natural number becomes in a signed variable is not larger. -/
theorem narrow_natCast_le (count : ℕ) : narrow count ≤ count := by
  have hword := toNat_toWord (count : ℤ)
  rw [narrow, asInt]
  split_ifs <;> omega

/-- A word keeps the value of a sum exactly when the sum is one of a word. -/
theorem toNat_add_ofNat {count : ℕ} (h : count < 2 ^ 32) :
    (word + UInt32.ofNat count).toNat = word.toNat + count ↔ word.toNat + count < 2 ^ 32 := by
  have hbound := word.toNat_lt
  rw [UInt32.toNat_add, UInt32.toNat_ofNat', Nat.mod_eq_of_lt h]
  constructor
  · intro heq
    omega
  · exact Nat.mod_eq_of_lt

/-- Adding a stored integer to a word, while the sum is one of a word. -/
theorem toNat_add_toWord (lower : 0 ≤ word.toNat + value) (upper : word.toNat + value < 2 ^ 32) :
    ((word + toWord value).toNat : ℤ) = word.toNat + value := by
  have hbound := word.toNat_lt
  rw [UInt32.toNat_add, toNat_toWord]
  omega

/-! ## Shifts -/

/-- A shift to the left, where it is defined. -/
def shl {w : ℕ} (bits : BitVec w) (count : ℕ) : Option (BitVec w) :=
  if count < w then some (bits <<< count) else none

variable {w v count : ℕ} {bits : BitVec w}

theorem shl_of_lt (h : count < w) : shl bits count = some (bits <<< count) :=
  if_pos h

/-- A signed value that is not negative keeps it in a wider type. -/
theorem toNat_signExtend {value : ℕ} (h : bits.toInt = value) (wider : w ≤ v) :
    (bits.signExtend v).toNat = value := by
  have hmsb : bits.msb = false := by
    have hnonneg : 0 ≤ bits.toInt := h ▸ Int.natCast_nonneg value
    exact BitVec.msb_eq_false_iff_two_mul_lt.mpr (BitVec.toInt_pos_iff.mp hnonneg)
  have hsame : (bits.toNat : ℤ) = value := (BitVec.toInt_eq_toNat_of_msb hmsb).symm.trans h
  rw [BitVec.signExtend_eq_setWidth_of_msb_false hmsb, BitVec.toNat_setWidth_of_le wider]
  exact_mod_cast hsame

/-- A shift denotes a multiplication exactly when it is defined and the product is in the
signed range. -/
theorem shl_exact_iff (bits : BitVec w) (count : ℕ) :
    (∃ result, shl bits count = some result ∧ result.toInt = bits.toInt * 2 ^ count) ↔
      count < w ∧ -2 ^ w ≤ 2 * (bits.toInt * 2 ^ count) ∧
        2 * (bits.toInt * 2 ^ count) < 2 ^ w := by
  constructor
  · rintro ⟨result, hshl, hexact⟩
    rw [← hexact]
    refine ⟨?_, ?_, BitVec.two_mul_toInt_lt⟩
    · by_contra hcount
      rw [shl, if_neg hcount] at hshl
      cases hshl
    · exact BitVec.le_two_mul_toInt
  · rintro ⟨hcount, lower, upper⟩
    refine ⟨_, shl_of_lt hcount, ?_⟩
    rw [BitVec.toInt_shiftLeft, Nat.shiftLeft_eq, Nat.cast_mul, Nat.cast_pow, Nat.cast_ofNat,
      ← Int.bmod_mul_bmod, ← BitVec.toInt_eq_toNat_bmod]
    apply Int.bmod_eq_of_le_mul_two
    · rw [Nat.cast_pow, Nat.cast_ofNat, mul_comm _ 2]
      exact lower
    · rw [Nat.cast_pow, Nat.cast_ofNat, mul_comm _ 2]
      exact upper

end Comnet.Foundations
