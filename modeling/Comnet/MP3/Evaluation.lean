/-
# The evaluation

`main` counts how many random errors the generator `x³ + 1` detects. With two terms the generator
looks at the bits of each residue modulo three on their own: the check is three parities, and an
error goes undetected exactly when it sets an even number of bits of each residue.
-/

import Comnet.Foundations.BitDivisors
import Comnet.MP3.Crc

set_option autoImplicit false

namespace Comnet.MP3

open Foundations

/-- `LOOKUP_LENGTH` -/
def lookupLength : ℕ := 8192

/-- One call of `make_bit_error`, with the numbers that `rand` returns in it. -/
def makeBitError (prob : ℤ) (rand : ℕ → ℕ) : BitVec 32 :=
  (List.range 11).foldl
    (fun ret i => if ((rand i % 100 : ℕ) : ℤ) < prob then ret ||| (1 : BitVec 32) <<< i else ret) 0

/-- A loop of `main` that counts the errors detected, over what the calls of `make_bit_error`
return. It has no result when they run out before it has seen enough. -/
def detectionLoop (count i : ℕ) : List (BitVec 32) → Option ℕ
  | [] => if i < lookupLength then none else some count
  | temp :: rest =>
    if i < lookupLength then
      if temp = 0 then detectionLoop count i rest
      else do
        let crc ← generateCrc 9 11 (temp.signExtend 64)
        detectionLoop (if crc ≠ 0 then count + 1 else count) (i + 1) rest
    else some count

variable {inBits prob : ℤ} {data : BitVec 64} {error : BitVec 32} {rand : ℕ → ℕ} {i j : ℕ}
  {errors : List (BitVec 32)}

/-- The check of the generator `x³ + 1` is what it leaves of the data as they are: it does not see
the shift that makes room. -/
theorem generateCrc_nine (short : inBits ≤ 28) (hdata : data.toNat < 2 ^ inBits.toNat) :
    ∃ crc, generateCrc 9 inBits data = some crc ∧
      ∀ j, crc.toNat.testBit j = decide (Odd (residueWeight 3 j data.toNat)) := by
  have hg : HasDegree 3 ((1 <<< 3) ^^^ 1) := ⟨by decide, by decide⟩
  have hfits : data.toNat < 2 ^ (3 + inBits.toNat) :=
    hdata.trans_le (Nat.pow_le_pow_right Nat.two_pos (Nat.le_add_left _ _))
  obtain ⟨crc, hresult, hcrc⟩ := @generateCrc_eq 9 inBits data hg short hdata
  refine ⟨crc, hresult, fun j => ?_⟩
  have hsame : crc.toNat = longDivision 3 ((1 <<< 3) ^^^ 1) inBits.toNat data.toNat :=
    hcrc.trans (longDivision_pair_shiftLeft hg hdata)
  rw [hsame]
  exact testBit_longDivision_pair (by decide) hg hfits

/-- The bits that the first draws set. -/
theorem testBit_foldl_draws (prob : ℤ) (rand : ℕ → ℕ) {count : ℕ} (hcount : count ≤ 32) (i : ℕ) :
    ((List.range count).foldl (fun (ret : BitVec 32) i =>
        if ((rand i % 100 : ℕ) : ℤ) < prob then ret ||| (1 : BitVec 32) <<< i
        else ret) 0).toNat.testBit i =
      decide (i < count ∧ ((rand i % 100 : ℕ) : ℤ) < prob) := by
  induction count with
  | zero => simp
  | succ count ih =>
    have hbefore := ih (by omega)
    rw [List.range_succ, List.foldl_append, List.foldl_cons, List.foldl_nil]
    have hbit : ((1 : BitVec 32) <<< count).toNat.testBit i = decide (i = count) := by
      rw [BitVec.testBit_toNat, BitVec.getLsbD_shiftLeft, BitVec.ofNat_eq_ofNat,
        BitVec.getLsbD_one, Bool.eq_iff_iff]
      simp only [Bool.and_eq_true, Bool.not_eq_true', decide_eq_true_iff, decide_eq_false_iff_not]
      omega
    split_ifs with hdraw
    · rw [BitVec.toNat_or, Nat.testBit_or, hbefore, hbit, ← Bool.decide_or]
      refine decide_eq_decide.mpr ⟨?_, ?_⟩
      · rintro (⟨hlt, hset⟩ | rfl)
        · exact ⟨by omega, hset⟩
        · exact ⟨Nat.lt_succ_self _, hdraw⟩
      · rintro ⟨hlt, hset⟩
        rcases Nat.lt_succ_iff_lt_or_eq.mp hlt with hless | heq
        · exact Or.inl ⟨hless, hset⟩
        · exact Or.inr heq
    · rw [hbefore]
      refine decide_eq_decide.mpr ⟨fun ⟨hlt, hset⟩ => ⟨by omega, hset⟩, fun ⟨hlt, hset⟩ => ?_⟩
      refine ⟨lt_of_le_of_ne (Nat.lt_succ_iff.mp hlt) fun heq => hdraw (heq ▸ hset), hset⟩

/-- Bit `i` is set when the draw for it falls below the probability. -/
theorem testBit_makeBitError (prob : ℤ) (rand : ℕ → ℕ) (i : ℕ) :
    (makeBitError prob rand).toNat.testBit i =
      decide (i < 11 ∧ ((rand i % 100 : ℕ) : ℤ) < prob) :=
  testBit_foldl_draws prob rand (by decide) i

theorem makeBitError_lt (prob : ℤ) (rand : ℕ → ℕ) : (makeBitError prob rand).toNat < 2 ^ 11 := by
  apply Nat.lt_pow_two_of_testBit
  intro i hi
  rw [testBit_makeBitError]
  exact decide_eq_false fun h => absurd h.1 (Nat.not_lt.mpr hi)

/-- The error sets an odd number of bits of some residue. -/
def Detected (error : BitVec 32) : Prop := ∃ j < 3, Odd (residueWeight 3 j error.toNat)

instance (error : BitVec 32) : Decidable (Detected error) :=
  inferInstanceAs (Decidable (∃ j < 3, Odd (residueWeight 3 j error.toNat)))

/-- One error of the evaluation leaves a check exactly when it is detected. -/
theorem generateCrc_error (herror : error.toNat < 2 ^ 11) :
    ∃ crc, generateCrc 9 11 (error.signExtend 64) = some crc ∧ (crc ≠ 0 ↔ Detected error) := by
  have hint : error.toInt = error.toNat := BitVec.toInt_eq_toNat_of_lt (by omega)
  have hnumber : (error.signExtend 64).toNat = error.toNat := toNat_signExtend hint (by decide)
  obtain ⟨crc, hresult, hbits⟩ := @generateCrc_nine 11 (error.signExtend 64) (by decide)
    (hnumber.symm ▸ herror)
  rw [hnumber] at hbits
  refine ⟨crc, hresult, ?_, ?_⟩
  · intro hcrc
    -- a check that is not zero has a bit, and that bit is the parity of its residue
    have hnonzero : crc.toNat ≠ 0 := fun hzero => hcrc (BitVec.eq_of_toNat_eq hzero)
    obtain ⟨j, hj⟩ := Nat.exists_testBit_of_ne_zero hnonzero
    rw [hbits, decide_eq_true_iff] at hj
    exact ⟨j, lt_of_odd_residueWeight (by decide) hj, hj⟩
  · rintro ⟨j, -, hodd⟩ rfl
    have hbit := hbits j
    rw [decide_eq_true hodd] at hbit
    simp at hbit

/-- The loop goes over the errors that are not empty until it has seen enough of them. -/
theorem detectionLoop_eq (hsmall : ∀ error ∈ errors, error.toNat < 2 ^ 11) (count : ℕ)
    (hi : i ≤ lookupLength) :
    detectionLoop count i errors =
      if lookupLength - i ≤ (errors.filter (· ≠ 0)).length then
        some (count + ((errors.filter (· ≠ 0)).take (lookupLength - i)).countP (Detected ·))
      else none := by
  induction errors generalizing count i with
  | nil =>
    rw [detectionLoop, List.filter_nil, List.length_nil, List.take_nil, List.countP_nil,
      Nat.add_zero]
    split_ifs <;> first | rfl | omega
  | cons error errors ih =>
    have hrest : ∀ other ∈ errors, other.toNat < 2 ^ 11 := fun other hother =>
      hsmall other (List.mem_cons_of_mem _ hother)
    rw [detectionLoop]
    by_cases hmore : i < lookupLength
    · rw [if_pos hmore]
      by_cases hempty : error = 0
      · rw [if_pos hempty, ih hrest count hi, List.filter_cons_of_neg (by simp [hempty])]
      · obtain ⟨crc, hresult, hdetected⟩ := generateCrc_error (hsmall error List.mem_cons_self)
        obtain ⟨left, hleft⟩ : ∃ left, lookupLength - i = left + 1 :=
          ⟨lookupLength - i - 1, by omega⟩
        have hnext : lookupLength - (i + 1) = left := by omega
        have hseen : (error :: errors).filter (· ≠ 0) = error :: errors.filter (· ≠ 0) :=
          List.filter_cons_of_pos (decide_eq_true hempty)
        rw [if_neg hempty, hresult, Option.bind_eq_bind, Option.bind_some, ih hrest _ hmore,
          hnext, hleft, hseen, List.length_cons,
          List.take_succ_cons, List.countP_cons]
        simp only [Nat.succ_le_succ_iff, hdetected, decide_eq_true_eq]
        split_ifs <;> first | rfl | (congr 1; omega)
    · have hdone : lookupLength - i = 0 := by omega
      rw [if_neg hmore, hdone, if_pos (Nat.zero_le _), List.take_zero, List.countP_nil,
        Nat.add_zero]

/-- A random error has a bit set for each draw below the probability, and the count that `main`
prints for a probability is the number of errors, of the first `LOOKUP_LENGTH` that are not empty,
with an odd number of bits at the places of some residue modulo three. Without a probability there
is no such error and the loop does not end. -/
theorem evaluation_counts (prob : ℤ) (draws : List (ℕ → ℕ)) :
    (∀ rand i, (makeBitError prob rand).toNat.testBit i =
      decide (i < 11 ∧ ((rand i % 100 : ℕ) : ℤ) < prob)) ∧
    let errors := draws.map (makeBitError prob)
    let seen := errors.filter (· ≠ 0)
    detectionLoop 0 0 errors =
      (if lookupLength ≤ seen.length then some ((seen.take lookupLength).countP (Detected ·))
        else none) ∧
    (prob ≤ 0 → detectionLoop 0 0 errors = none) := by
  refine ⟨testBit_makeBitError prob, ?_⟩
  intro errors seen
  have hsmall : ∀ error ∈ errors, error.toNat < 2 ^ 11 := by
    intro error herror
    obtain ⟨rand, -, rfl⟩ := List.mem_map.mp herror
    exact makeBitError_lt prob rand
  have hloop : detectionLoop 0 0 errors =
      (if lookupLength ≤ seen.length then some ((seen.take lookupLength).countP (Detected ·))
        else none) := by
    rw [detectionLoop_eq hsmall 0 (Nat.zero_le _), Nat.sub_zero, Nat.zero_add]
  refine ⟨hloop, fun hnone => ?_⟩
  have hempty : seen = [] := by
    refine List.filter_eq_nil_iff.mpr fun error herror => ?_
    obtain ⟨rand, -, rfl⟩ := List.mem_map.mp herror
    have hzero : makeBitError prob rand = 0 := by
      apply BitVec.eq_of_toNat_eq
      apply Nat.eq_of_testBit_eq
      intro i
      rw [testBit_makeBitError, BitVec.ofNat_eq_ofNat, BitVec.toNat_zero, Nat.zero_testBit]
      exact decide_eq_false fun h => by omega
    simp [hzero]
  rw [hloop, hempty]
  rfl

/-- For any length of data, bit `j` of the check of the generator `x³ + 1` tells whether the number
of data bits set at the places with residue `j` is odd, so data pass unchecked exactly when each
residue has an even number. -/
theorem generateCrc_interleaved (short : inBits ≤ 28) (hdata : data.toNat < 2 ^ inBits.toNat) :
    ∃ crc, generateCrc 9 inBits data = some crc ∧
      (∀ j, crc.toNat.testBit j = decide (Odd (residueWeight 3 j data.toNat))) ∧
      (crc = 0 ↔ ∀ j, Even (residueWeight 3 j data.toNat)) := by
  obtain ⟨crc, hresult, hbits⟩ := generateCrc_nine short hdata
  refine ⟨crc, hresult, hbits, ?_, ?_⟩
  · rintro rfl j
    have hbit := (hbits j).symm
    rw [BitVec.ofNat_eq_ofNat, BitVec.toNat_zero, Nat.zero_testBit, decide_eq_false_iff_not] at hbit
    exact Nat.not_odd_iff_even.mp hbit
  · intro heven
    apply BitVec.eq_of_toNat_eq
    apply Nat.eq_of_testBit_eq
    intro j
    rw [hbits, BitVec.ofNat_eq_ofNat, BitVec.toNat_zero, Nat.zero_testBit]
    exact decide_eq_false (Nat.not_odd_iff_even.mpr (heven j))

/-- Seven bits of data, the three highest of them set. -/
theorem generateCrc_interleaved_seven : ∃ crc, generateCrc 9 7 112 = some crc ∧
    (∀ j, crc.toNat.testBit j = decide (Odd (residueWeight 3 j 112))) ∧
      (crc = 0 ↔ ∀ j, Even (residueWeight 3 j 112)) :=
  @generateCrc_interleaved 7 112 (by decide) (by decide)

end Comnet.MP3
