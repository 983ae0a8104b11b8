/-
# Sums in one's complement

A word is a number below `base`. What a sum carries out of the word is added back in at
its low end, until nothing is carried any more. That leaves the number modulo
`base - 1`, and of its two names for zero the small one only for a sum of nothing.
-/

import Mathlib.Data.Nat.ModEq
import Mathlib.Tactic.Linarith

set_option autoImplicit false

namespace Comnet.Foundations

variable {base value word : ℕ}

/-- One end-around carry. -/
def endAround (base value : ℕ) : ℕ := value % base + value / base

theorem endAround_lt (h : 1 < base) (carries : base ≤ value) : endAround base value < value := by
  have hdiv : 0 < value / base := Nat.div_pos carries (Nat.zero_lt_of_lt h)
  have hsum := Nat.mod_add_div value base
  rw [endAround]
  nlinarith

/-- End-around carries until none is left. -/
def foldCarries (base value : ℕ) : ℕ :=
  if _ : 1 < base ∧ base ≤ value then foldCarries base (endAround base value) else value
termination_by value
decreasing_by exact endAround_lt (by omega) (by omega)

theorem foldCarries_of_lt (h : value < base) : foldCarries base value = value := by
  rw [foldCarries, dif_neg fun hboth => Nat.not_le.mpr h hboth.2]

theorem foldCarries_of_le (h : 1 < base) (carries : base ≤ value) :
    foldCarries base value = foldCarries base (endAround base value) := by
  rw [foldCarries, dif_pos ⟨h, carries⟩]

/-- A carry keeps the value modulo the largest word. -/
theorem endAround_modEq (h : 0 < base) : endAround base value ≡ value [MOD base - 1] := by
  have hone : base ≡ 1 [MOD base - 1] := by
    have hself : base - 1 + 1 ≡ 0 + 1 [MOD base - 1] :=
      Nat.ModEq.add_right 1 (Nat.mod_self (base - 1))
    rwa [Nat.sub_add_cancel h] at hself
  have hscaled : base * (value / base) ≡ 1 * (value / base) [MOD base - 1] := hone.mul_right _
  rw [one_mul] at hscaled
  calc endAround base value
      = value % base + value / base := rfl
    _ ≡ value % base + base * (value / base) [MOD base - 1] := hscaled.symm.add_left _
    _ = value := Nat.mod_add_div value base

theorem endAround_eq_zero_iff : endAround base value = 0 ↔ value = 0 := by
  rw [endAround, Nat.add_eq_zero_iff]
  constructor
  · rintro ⟨hmod, hdiv⟩
    rw [← Nat.mod_add_div value base, hmod, hdiv, Nat.mul_zero]
  · rintro rfl
    exact ⟨Nat.zero_mod _, Nat.zero_div _⟩

/-- What is left is a word, the same modulo the largest word, and zero for zero only. -/
theorem foldCarries_spec (h : 1 < base) (value : ℕ) :
    foldCarries base value < base ∧ foldCarries base value ≡ value [MOD base - 1] ∧
      (foldCarries base value = 0 ↔ value = 0) := by
  induction value using Nat.strong_induction_on with
  | _ value ih =>
    by_cases hcarries : base ≤ value
    · obtain ⟨hlt, hmod, hzero⟩ := ih _ (endAround_lt h hcarries)
      rw [foldCarries_of_le h hcarries]
      exact ⟨hlt, hmod.trans (endAround_modEq (by omega)),
        hzero.trans endAround_eq_zero_iff⟩
    · rw [foldCarries_of_lt (by omega)]
      exact ⟨by omega, rfl, Iff.rfl⟩

/-- The folded sum is told by these three facts. -/
theorem eq_foldCarries_iff (h : 1 < base) :
    word = foldCarries base value ↔
      word < base ∧ word ≡ value [MOD base - 1] ∧ (word = 0 ↔ value = 0) := by
  constructor
  · rintro rfl
    exact foldCarries_spec h value
  · rintro ⟨hlt, hmod, hzero⟩
    obtain ⟨hlt', hmod', hzero'⟩ := foldCarries_spec h value
    by_cases hvalue : value = 0
    · rw [hzero.mpr hvalue, hzero'.mpr hvalue]
    · have hpos : word ≠ 0 := fun h => hvalue (hzero.mp h)
      have hpos' : foldCarries base value ≠ 0 := fun h => hvalue (hzero'.mp h)
      obtain ⟨first, rfl⟩ := Nat.exists_eq_succ_of_ne_zero hpos
      obtain ⟨second, hsecond⟩ := Nat.exists_eq_succ_of_ne_zero hpos'
      rw [hsecond] at hmod' hlt' ⊢
      have hsame : first ≡ second [MOD base - 1] :=
        Nat.ModEq.add_right_cancel' 1 (hmod.trans hmod'.symm)
      rw [hsame.eq_of_lt_of_lt (by omega) (by omega)]

/-! ## One carry only -/

/-- What the second carry would bring in is missing after the first. -/
theorem modEq_mod_endAround_iff (h : 0 < base) :
    endAround base value % base ≡ value [MOD base - 1] ↔
      base - 1 ∣ endAround base value / base := by
  have htwice : endAround base value % base + endAround base value / base ≡ value
      [MOD base - 1] := (endAround_modEq h).trans (endAround_modEq h)
  rw [← Nat.modEq_zero_iff_dvd]
  constructor
  · intro hmod
    have hsum := htwice.trans hmod.symm
    exact Nat.ModEq.add_left_cancel' _ (hsum.trans (Nat.add_zero _ ▸ rfl))
  · intro hmod
    have hsum := (hmod.add_left (endAround base value % base)).symm.trans htwice
    rwa [Nat.add_zero] at hsum

/-- A word that is cut off after one carry is the folded sum exactly when nothing is cut
off, or nothing that counts. -/
theorem mod_endAround_eq_iff (h : 1 < base) :
    endAround base value % base = foldCarries base value ↔
      endAround base value < base ∨
        0 < endAround base value % base ∧ base - 1 ∣ endAround base value / base := by
  have hlt : endAround base value % base < base := Nat.mod_lt _ (by omega)
  have hzero : value = 0 ↔ endAround base value = 0 := endAround_eq_zero_iff.symm
  rw [eq_foldCarries_iff h, modEq_mod_endAround_iff (by omega), hzero]
  by_cases hcarries : endAround base value < base
  · simp [hcarries, Nat.mod_eq_of_lt hcarries, Nat.div_eq_of_lt hcarries]
  · have hpos : endAround base value ≠ 0 := by omega
    simp only [hlt, hcarries, hpos, true_and, iff_false, false_or, Nat.pos_iff_ne_zero]
    exact and_comm

/-- The words together with the complement of the word that is cut off. -/
theorem foldCarries_add_complement_iff (h : 1 < base) :
    foldCarries base (value + (base - 1 - endAround base value % base)) = base - 1 ↔
      base - 1 ∣ endAround base value / base := by
  have hlt : endAround base value % base < base := Nat.mod_lt _ (by omega)
  have hpos : value + (base - 1 - endAround base value % base) ≠ 0 := by
    by_cases hzero : value = 0
    · rw [endAround_eq_zero_iff.mpr hzero, Nat.zero_mod]
      omega
    · omega
  have hsum : endAround base value % base + (base - 1 - endAround base value % base) =
      base - 1 := by omega
  rw [eq_comm, eq_foldCarries_iff h, ← modEq_mod_endAround_iff (by omega)]
  constructor
  · rintro ⟨-, hmod, -⟩
    refine Nat.ModEq.add_right_cancel' (base - 1 - endAround base value % base) ?_
    rwa [hsum]
  · intro hmod
    have hadd := hmod.add_right (base - 1 - endAround base value % base)
    rw [hsum] at hadd
    exact ⟨by omega, hadd, by omega⟩

/-! ## One word more -/

/-- A word on top of a sum is added to what one carry leaves of the sum, and a carry that it
causes counts twice: it leaves the low part and is added back in. -/
theorem endAround_add (hword : word < base) (sum : ℕ) :
    endAround base (sum + word) =
      if sum % base + word < base then endAround base sum + word
      else endAround base sum + word + 1 - base := by
  have hpos : 0 < base := Nat.zero_lt_of_lt hword
  have hlow : sum % base < base := Nat.mod_lt _ hpos
  have hsplit : sum + word = sum % base + word + base * (sum / base) := by
    have hsum := Nat.mod_add_div sum base
    omega
  rw [endAround, hsplit, Nat.add_mul_mod_self_left, Nat.add_mul_div_left _ _ hpos, endAround]
  generalize sum % base = low at hlow ⊢
  generalize sum / base = high
  split_ifs with hroom
  · rw [Nat.mod_eq_of_lt hroom, Nat.div_eq_of_lt hroom]
    omega
  · have hcarry : (low + word) / base = 1 := Nat.div_eq_of_lt_le (by omega) (by omega)
    rw [Nat.mod_eq_sub_mod (Nat.not_lt.mp hroom), Nat.mod_eq_of_lt (by omega), hcarry]
    omega

theorem add_mod_eq_iff {first second : ℕ} (hfirst : first < base) (hsecond : second < base)
    (sum : ℕ) : (sum + first) % base = (sum + second) % base ↔ first = second := by
  constructor
  · intro hmod
    have hsame : first ≡ second [MOD base] := Nat.ModEq.add_left_cancel' sum hmod
    exact hsame.eq_of_lt_of_lt hfirst hsecond
  · exact fun heq => heq ▸ rfl

/-- Of two words on top of one sum the one that carries is the larger one, so after one carry
they look alike only where they are the two names of zero. -/
theorem mod_endAround_add_eq_iff {first second : ℕ} (hfirst : first < base)
    (hsecond : second < base) (sum : ℕ) :
    endAround base (sum + first) % base = endAround base (sum + second) % base ↔
      first = second ∨ sum % base ≠ 0 ∧
        (first = 0 ∧ second = base - 1 ∨ first = base - 1 ∧ second = 0) := by
  have hlow : sum % base < base := Nat.mod_lt _ (Nat.zero_lt_of_lt hfirst)
  have hle : sum % base ≤ endAround base sum := Nat.le_add_right _ _
  -- what is taken off for a carry does not count here
  have hcarried : ∀ {word : ℕ}, ¬ sum % base + word < base →
      (endAround base sum + word + 1 - base) % base = (endAround base sum + 1 + word) % base := by
    intro word hroom
    rw [← Nat.mod_eq_sub_mod (by omega), Nat.add_right_comm]
  wlog horder : first ≤ second generalizing first second
  · have hswapped := this hsecond hfirst (by omega)
    exact eq_comm.trans (hswapped.trans (by omega))
  rw [endAround_add hfirst, endAround_add hsecond]
  split_ifs with hroom hroom' hroom'
  · rw [add_mod_eq_iff hfirst hsecond]
    omega
  · rw [hcarried hroom']
    by_cases hlast : second + 1 < base
    · rw [Nat.add_assoc, Nat.add_comm 1, add_mod_eq_iff hfirst hlast]
      omega
    · have hone : endAround base sum + 1 + second = endAround base sum + 0 + base := by omega
      rw [hone, Nat.add_mod_right, add_mod_eq_iff hfirst (by omega)]
      omega
  · omega
  · rw [hcarried hroom, hcarried hroom', add_mod_eq_iff hfirst hsecond]
    omega

/-- The complement of the word that is left makes all ones of the sum exactly when the carry
leaves a word. -/
theorem mod_endAround_add_complement_iff (h : 1 < base) (few : value < base * base) :
    endAround base (value + (base - 1 - endAround base value % base)) % base = base - 1 ↔
      endAround base value < base := by
  have hlow : value % base < base := Nat.mod_lt _ (by omega)
  have hhigh : value / base < base := Nat.div_lt_of_lt_mul few
  have hle : value % base ≤ endAround base value := Nat.le_add_right _ _
  have hlt : endAround base value < value % base + base := Nat.add_lt_add_left hhigh _
  by_cases hfits : endAround base value < base
  · have hword : endAround base value + (base - 1 - endAround base value) = base - 1 := by omega
    rw [Nat.mod_eq_of_lt hfits, endAround_add (by omega), if_pos (by omega), hword,
      Nat.mod_eq_of_lt (by omega)]
    exact iff_of_true rfl hfits
  · -- the complement carries as well, and the two carries make nothing of it
    have hcut : endAround base value % base = endAround base value - base := by
      rw [Nat.mod_eq_sub_mod (by omega), Nat.mod_eq_of_lt (by omega)]
    have hword : endAround base value + (base - 1 - (endAround base value - base)) + 1 - base =
        base := by omega
    rw [hcut, endAround_add (by omega), if_neg (by omega), hword, Nat.mod_self]
    exact iff_of_false (by omega) hfits

end Comnet.Foundations
