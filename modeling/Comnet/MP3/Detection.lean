/-
# What the check detects

A codeword is the shifted data with its check in the room that was made for it.
Checking a codeword that was changed gives what checking the change alone gives, so an
error is detected for every codeword or for none. A generator with a constant term
detects every burst of up to three bits.
-/

import Comnet.MP3.Crc

set_option autoImplicit false

namespace Comnet.MP3

open Foundations

/-- The data with its check behind it. -/
def codeword (data crc : BitVec 64) : BitVec 64 := (data <<< (generatorLength - 1)) ^^^ crc

/-- The bits that are set lie within three consecutive positions. -/
def Burst (error : BitVec 64) : Prop :=
  ∃ place, ∀ i, error.toNat.testBit i = true → place ≤ i ∧ i < place + 3

variable {generator : BitVec 16} {inBits : ℤ} {data crc word error : BitVec 64}

/-- Checks add up as the words do. -/
theorem generateCrc_xor (hg : HasDegree 3 generator.toNat) (hbits : inBits ≤ 28)
    (hword : word.toNat < 2 ^ inBits.toNat) (herror : error.toNat < 2 ^ inBits.toNat)
    (hzero : generateCrc generator inBits word = some 0) :
    generateCrc generator inBits (word ^^^ error) = generateCrc generator inBits error := by
  have hboth : (word ^^^ error).toNat < 2 ^ inBits.toNat := by
    rw [BitVec.toNat_xor]
    exact Nat.xor_lt_two_pow hword herror
  obtain ⟨first, hfirst, hleft⟩ := generateCrc_eq hg hbits hword
  obtain ⟨second, hsecond, hright⟩ := generateCrc_eq hg hbits herror
  obtain ⟨sum, hsum, hleftover⟩ := generateCrc_eq hg hbits hboth
  obtain rfl : first = 0 := Option.some.inj (hfirst.symm.trans hzero)
  rw [hsum, hsecond, Option.some_inj]
  apply BitVec.eq_of_toNat_eq
  rw [hleftover, hright, BitVec.toNat_xor, Nat.shiftLeft_xor_distrib,
    longDivision_xor hg (dividend_lt (by omega) hword).2 (dividend_lt (by omega) herror).2, ← hleft]
  exact Nat.zero_xor _

/-- A word has no check left exactly when the generator divides it, shifted. -/
theorem generateCrc_eq_zero_iff (hg : HasDegree 3 generator.toNat) (hbits : inBits ≤ 28)
    (hword : word.toNat < 2 ^ inBits.toNat) :
    generateCrc generator inBits word = some 0 ↔
      bitPoly generator.toNat ∣ bitPoly (word.toNat <<< 3) := by
  obtain ⟨crc, hresult, hcrc⟩ := generateCrc_eq hg hbits hword
  rw [← longDivision_eq_zero_iff hg (dividend_lt (by omega) hword).2, ← hcrc, hresult,
    Option.some_inj]
  exact BitVec.toNat_inj.symm

/-- A codeword passes its own check. -/
theorem generateCrc_codeword (hg : HasDegree 3 generator.toNat) (nonneg : 0 ≤ inBits)
    (hbits : inBits + 3 ≤ 28) (hdata : data.toNat < 2 ^ inBits.toNat)
    (hresult : generateCrc generator inBits data = some crc) :
    (codeword data crc).toNat < 2 ^ (inBits + 3).toNat ∧
      generateCrc generator (inBits + 3) (codeword data crc) = some 0 := by
  obtain ⟨hshift, hlt⟩ := dividend_lt (by omega) hdata
  obtain ⟨check, hcheck, hcrc⟩ := generateCrc_eq hg (by omega) hdata
  obtain rfl : check = crc := Option.some.inj (hcheck.symm.trans hresult)
  have hsmall : check.toNat < 2 ^ 3 := hcrc ▸ longDivision_lt hg hlt
  have hword : (codeword data check).toNat = (data.toNat <<< 3) ^^^ check.toNat := by
    rw [codeword, BitVec.toNat_xor, hshift]
  have hfits : (codeword data check).toNat < 2 ^ (inBits + 3).toNat := by
    rw [hword, show (inBits + 3).toNat = 3 + inBits.toNat by omega]
    exact Nat.xor_lt_two_pow hlt
      (hsmall.trans_le (Nat.pow_le_pow_right Nat.two_pos (Nat.le_add_right _ _)))
  refine ⟨hfits, ?_⟩
  rw [generateCrc_eq_zero_iff hg hbits hfits, hword, bitPoly_shiftLeft]
  exact dvd_mul_of_dvd_right ((dvd_xor_iff hg hlt hsmall).mpr hcrc) _

/-- **Detection.** Checking a changed codeword is checking the change, and a change of up to
three neighbouring bits never passes. -/
theorem generateCrc_detects (lower : 8 ≤ generator.toNat) (upper : generator.toNat ≤ 15)
    (nonneg : 0 ≤ inBits) (short : inBits + 3 ≤ 28) (hdata : data.toNat < 2 ^ inBits.toNat)
    (herror : error.toNat < 2 ^ (inBits + 3).toNat) :
    ∃ crc, generateCrc generator inBits data = some crc ∧
      generateCrc generator (inBits + 3) (codeword data crc ^^^ error) =
        generateCrc generator (inBits + 3) error ∧
      (error = 0 → generateCrc generator (inBits + 3) error = some 0) ∧
      (generator.toNat % 2 = 1 → error ≠ 0 → Burst error →
        ∃ left, generateCrc generator (inBits + 3) (codeword data crc ^^^ error) = some left ∧
          left ≠ 0) := by
  have hg : HasDegree 3 generator.toNat := ⟨lower, Nat.lt_succ_of_le upper⟩
  obtain ⟨crc, hresult, -⟩ := generateCrc_eq hg (by omega) hdata
  obtain ⟨hword, hpasses⟩ := generateCrc_codeword hg nonneg short hdata hresult
  have hsame := generateCrc_xor hg short hword herror hpasses
  refine ⟨crc, hresult, hsame, ?_, ?_⟩
  · rintro rfl
    rw [generateCrc_eq_zero_iff hg short herror]
    simp
  · rintro odd nonzero ⟨place, span⟩
    obtain ⟨left, hleft, -⟩ := generateCrc_eq hg short herror
    refine ⟨left, hsame.trans hleft, ?_⟩
    rintro rfl
    have hodd : generator.toNat.testBit 0 = true := by
      rw [Nat.testBit_zero]
      exact decide_eq_true odd
    have hbits : error.toNat ≠ 0 := fun h => nonzero (BitVec.eq_of_toNat_eq h)
    have hdvd := (generateCrc_eq_zero_iff hg short herror).mp hleft
    exact not_dvd_burst hg hodd hbits span ((dvd_shiftLeft_iff hodd 3).mp hdvd)

theorem burst_twenty : Burst 20 := by
  refine ⟨2, fun i hi => ?_⟩
  have hpow : 2 ^ i ≤ 20 := Nat.ge_two_pow_of_testBit hi
  have hlt : i < 5 := (Nat.pow_lt_pow_iff_right one_lt_two).mp (hpow.trans_lt (by norm_num))
  refine ⟨?_, hlt⟩
  by_contra hlow
  obtain rfl | rfl : i = 0 ∨ i = 1 := by omega
  · exact absurd hi (by decide)
  · exact absurd hi (by decide)

theorem generateCrc_detects_nine :
    ∃ crc, generateCrc 9 8 200 = some crc ∧
      generateCrc 9 (8 + 3) (codeword 200 crc ^^^ 20) = generateCrc 9 (8 + 3) 20 ∧
      ∃ left, generateCrc 9 (8 + 3) (codeword 200 crc ^^^ 20) = some left ∧ left ≠ 0 := by
  obtain ⟨crc, hresult, hsame, -, hburst⟩ := @generateCrc_detects 9 8 200 20
    (by decide) (by decide) (by decide) (by decide) (by decide) (by decide)
  exact ⟨crc, hresult, hsame, hburst (by decide) (by decide) burst_twenty⟩

end Comnet.MP3
