/-
# Errors in the words of a checksum

The words are added up, so neither their order nor the spaces between them count. An error in
one word changes what is printed, unless it turns one name of zero into the other. Given its
own checksum as one more word the program prints zero, unless the carries carried.
-/

import Comnet.MP3.Checksum

set_option autoImplicit false

namespace Comnet.MP3

open Foundations

variable {token token' input input' : List UInt8} {tokens tokens' others : List (List UInt8)}

/-- What is printed is the complement of the sum after one carry, cut off to a word. -/
theorem toNat_checksum_line (words : ∀ token ∈ tokens, IsWord token)
    (hline : Spaced tokens (getline input)) (few : tokens.length < 2 ^ 47) :
    (checksum input).toNat = 65535 - endAround 65536 (tokens.map digitsValue).sum % 65536 := by
  rw [checksum, toNat_checksum, toNat_addCarries, toNat_sumItems hline words few]

/-- Two lines print the same exactly when their sums look alike after one carry. -/
theorem checksum_eq_iff (words : ∀ token ∈ tokens, IsWord token)
    (words' : ∀ token ∈ tokens', IsWord token) (few : tokens.length < 2 ^ 47)
    (few' : tokens'.length < 2 ^ 47) (hline : Spaced tokens (getline input))
    (hline' : Spaced tokens' (getline input')) :
    checksum input = checksum input' ↔
      endAround 65536 (tokens.map digitsValue).sum % 65536 =
        endAround 65536 (tokens'.map digitsValue).sum % 65536 := by
  rw [← UInt16.toNat_inj, toNat_checksum_line words hline few,
    toNat_checksum_line words' hline' few']
  omega

/-- Of two lines with the same words but one, in any order and however they are spaced, the same is
printed exactly when the two words are the same number, or are the two names of zero on top of a sum
that leaves something in its low half. -/
theorem checksum_replaced_iff (words : ∀ other ∈ token :: token' :: others, IsWord other)
    (few : others.length + 1 < 2 ^ 47) (hperm : tokens.Perm (token :: others))
    (hperm' : tokens'.Perm (token' :: others)) (hline : Spaced tokens (getline input))
    (hline' : Spaced tokens' (getline input')) :
    checksum input = checksum input' ↔
      digitsValue token = digitsValue token' ∨ (others.map digitsValue).sum % 65536 ≠ 0 ∧
        (digitsValue token = 0 ∧ digitsValue token' = 65535 ∨
          digitsValue token = 65535 ∧ digitsValue token' = 0) := by
  have hword : IsWord token := words token List.mem_cons_self
  have hword' : IsWord token' := words token' (List.mem_cons_of_mem _ List.mem_cons_self)
  have hothers : ∀ other ∈ others, IsWord other := fun other hmem =>
    words other (List.mem_cons_of_mem _ (List.mem_cons_of_mem _ hmem))
  have hwords : ∀ other ∈ tokens, IsWord other := fun other hmem =>
    (List.mem_cons.mp (hperm.mem_iff.mp hmem)).elim (fun heq => heq ▸ hword) (hothers other)
  have hwords' : ∀ other ∈ tokens', IsWord other := fun other hmem =>
    (List.mem_cons.mp (hperm'.mem_iff.mp hmem)).elim (fun heq => heq ▸ hword') (hothers other)
  have hsum : (tokens.map digitsValue).sum =
      (others.map digitsValue).sum + digitsValue token := by
    rw [(hperm.map _).sum_eq, List.map_cons, List.sum_cons, Nat.add_comm]
  have hsum' : (tokens'.map digitsValue).sum =
      (others.map digitsValue).sum + digitsValue token' := by
    rw [(hperm'.map _).sum_eq, List.map_cons, List.sum_cons, Nat.add_comm]
  rw [checksum_eq_iff hwords hwords' (by rw [hperm.length_eq]; exact few)
    (by rw [hperm'.length_eq]; exact few) hline hline', hsum, hsum']
  exact mod_endAround_add_eq_iff (Nat.lt_succ_of_le hword.le) (Nat.lt_succ_of_le hword'.le) _

/-- The lines `0 1` and `1  65535`. -/
theorem checksum_replaced_iff_zeros :
    checksum [48, 32, 49, 10] = checksum [49, 32, 32, 54, 53, 53, 51, 53, 10] :=
  (@checksum_replaced_iff [48] [54, 53, 53, 51, 53] [48, 32, 49, 10]
    [49, 32, 32, 54, 53, 53, 51, 53, 10] [[48], [49]] [[49], [54, 53, 53, 51, 53]] [[49]]
    (by decide) (by norm_num) (List.Perm.refl _) (List.Perm.swap _ _ _)
    (.cons [48] (.last [49])) (.cons [49] (.space (.last [54, 53, 53, 51, 53])))).mpr
    (.inr (by decide))

theorem isWord_decimal {value : ℕ} (h : value ≤ 65535) : IsWord (decimal value) :=
  ⟨decimal_ne_nil, fun _ => isDigit_of_mem_decimal, (digitsValue_decimal value).trans_le h⟩

/-- Of a line of words with a sum below `2 ^ 32` and what is printed for it the program prints zero
exactly when adding the carries in leaves a word. -/
theorem checksum_verifies_iff (words : ∀ token ∈ tokens, IsWord token)
    (few : tokens.length + 1 < 2 ^ 47) (small : (tokens.map digitsValue).sum < 2 ^ 32)
    (hline : Spaced tokens (getline input))
    (hline' : Spaced (tokens ++ [decimal (checksum input).toNat]) (getline input')) :
    checksum input' = 0 ↔ endAround 65536 (tokens.map digitsValue).sum < 65536 := by
  have hprinted := toNat_checksum_line words hline (by omega)
  have hmore : ∀ token ∈ tokens ++ [decimal (checksum input).toNat], IsWord token := by
    intro token hmem
    rcases List.mem_append.mp hmem with hmem | hmem
    · exact words token hmem
    · rw [List.mem_singleton.mp hmem]
      exact isWord_decimal (by omega)
  have hsum : ((tokens ++ [decimal (checksum input).toNat]).map digitsValue).sum =
      (tokens.map digitsValue).sum + (checksum input).toNat := by
    simp [digitsValue_decimal]
  have hverified := toNat_checksum_line hmore hline' (by
    rw [List.length_append, List.length_singleton]
    exact few)
  rw [hsum, hprinted] at hverified
  -- the complement of zero is all ones, and that is what verifying has to leave
  have hlast : endAround 65536 ((tokens.map digitsValue).sum +
      (65535 - endAround 65536 (tokens.map digitsValue).sum % 65536)) % 65536 < 65536 :=
    Nat.mod_lt _ (by norm_num)
  have hzero : checksum input' = 0 ↔ (checksum input').toNat = 0 := UInt16.toNat_inj.symm
  rw [hzero, hverified, ← mod_endAround_add_complement_iff (by norm_num) (by omega)]
  change _ ↔ endAround 65536 ((tokens.map digitsValue).sum +
    (65535 - endAround 65536 (tokens.map digitsValue).sum % 65536)) % 65536 = 65535
  omega

/-- The line `1 2` and its checksum. -/
theorem checksum_verifies_iff_three :
    checksum [49, 32, 50, 32, 54, 53, 53, 51, 50, 10] = 0 :=
  (@checksum_verifies_iff [49, 32, 50, 10] [49, 32, 50, 32, 54, 53, 53, 51, 50, 10] [[49], [50]]
    (by decide) (by norm_num) (by decide) (.cons [49] (.last [50]))
    (.cons [49] (.cons [50] (.last [54, 53, 53, 51, 50])))).mpr (by decide)

end Comnet.MP3
