/-
# The table of checks

`generateTable` stores the check of every 16-bit word under the word, and the lookups
take random words to their checks. The words are kept in a `short`, which is signed, so
half of them index the table below its beginning.
-/

import Comnet.MP3.Crc

set_option autoImplicit false

namespace Comnet.MP3

open Foundations

/-- The check of `data` as it is stored into a `short`. -/
def shortCrc (generator : BitVec 16) (data : BitVec 64) : Option (BitVec 16) :=
  (generateCrc generator 16 data).map (·.setWidth 16)

/-- The table of the checks of all words. -/
def generateTable (generator : BitVec 16) : Option (List (BitVec 16)) :=
  (List.range (1 <<< 16)).mapM fun i => shortCrc generator (BitVec.ofNat 64 i)

/-- What `get_random` stores for a number that `rand` returns. -/
def getRandom (rand : ℕ) : BitVec 16 := BitVec.ofNat 16 (rand % (1 <<< 16))

/-- The entry of a table at an index, while it is within the bounds. -/
def entry (table : List (BitVec 16)) (index : ℤ) : Option (BitVec 16) :=
  if 0 ≤ index then table[index.toNat]? else none

/-- Sixteen rounds shift within an `int`, whatever the generator is. -/
theorem divisionLoop_defined (generator : BitVec 16) {rounds : ℕ} (hrounds : rounds ≤ 28)
    (crc : BitVec 64) :
    ∃ result, divisionLoop generator rounds crc = some result := by
  induction rounds generalizing crc with
  | zero => exact ⟨crc, rfl⟩
  | succ rounds ih =>
    have hlength : generatorLength = 4 := rfl
    rw [divisionLoop, shiftGen, bitTest, shl_of_lt (by omega), shl_of_lt (by omega)]
    exact ih (by omega) _

theorem shortCrc_defined (generator : BitVec 16) (data : BitVec 64) :
    ∃ check, shortCrc generator data = some check := by
  obtain ⟨result, hresult⟩ := divisionLoop_defined generator (show 16 ≤ 28 by decide)
    (data <<< (generatorLength - 1))
  refine ⟨result.setWidth 16, ?_⟩
  have hcrc : generateCrc generator 16 data = some result := hresult
  rw [shortCrc, hcrc]
  rfl

/-- The table holds at every word the check of the word. -/
theorem generateTable_entry (generator : BitVec 16) :
    ∃ table, generateTable generator = some table ∧
      ∀ index < 2 ^ 16, table[index]? = shortCrc generator (BitVec.ofNat 64 index) := by
  choose check hcheck using shortCrc_defined generator
  refine ⟨(List.range (1 <<< 16)).map fun i => check (BitVec.ofNat 64 i), ?_, ?_⟩
  · rw [generateTable]
    simp only [hcheck]
    exact List.mapM_pure
  · intro index hindex
    rw [List.getElem?_map, List.getElem?_range (by simpa using hindex), hcheck]
    rfl

/-- The table agrees with the direct check, within its bounds, exactly on the words that are not
negative in a `short`. -/
theorem lookup_agrees_iff (generator : BitVec 16) (rand : ℕ) :
    (∃ table check, generateTable generator = some table ∧
      shortCrc generator ((getRandom rand).signExtend 64) = some check ∧
      entry table (getRandom rand).toInt = some check) ↔ rand % 2 ^ 16 < 2 ^ 15 := by
  have hword : (getRandom rand).toNat = rand % 2 ^ 16 := by
    rw [getRandom, BitVec.toNat_ofNat]
    exact Nat.mod_mod _ _
  constructor
  · rintro ⟨table, check, -, -, hentry⟩
    by_contra hlarge
    have hneg : (getRandom rand).toInt < 0 := BitVec.toInt_neg_iff.mpr (by omega)
    rw [entry, if_neg (by omega)] at hentry
    cases hentry
  · intro hsmall
    obtain ⟨table, htable, hentries⟩ := generateTable_entry generator
    obtain ⟨check, hcheck⟩ := shortCrc_defined generator ((getRandom rand).signExtend 64)
    have hint : (getRandom rand).toInt = (rand % 2 ^ 16 : ℕ) := by
      rw [BitVec.toInt_eq_toNat_of_lt (by omega), hword]
    have hsame : (getRandom rand).signExtend 64 = BitVec.ofNat 64 (rand % 2 ^ 16) := by
      apply BitVec.eq_of_toNat_eq
      rw [toNat_signExtend hint (by decide), BitVec.toNat_ofNat]
      exact (Nat.mod_eq_of_lt (by omega)).symm
    refine ⟨table, check, htable, hcheck, ?_⟩
    rw [entry, hint, if_pos (Int.natCast_nonneg _), Int.toNat_natCast, hentries _ (by omega),
      ← hsame, hcheck]

/-- The largest word a `short` takes for minus one. -/
theorem lookup_below_table :
    ¬ ∀ (generator : BitVec 16) (rand : ℕ),
      ∃ table check, generateTable generator = some table ∧
        shortCrc generator ((getRandom rand).signExtend 64) = some check ∧
        entry table (getRandom rand).toInt = some check := by
  intro h
  obtain ⟨table, check, -, -, hentry⟩ := h 9 65535
  exact absurd hentry (by simp [entry, getRandom])

end Comnet.MP3
