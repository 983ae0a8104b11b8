/-
# Averages in whole numbers

An average counts a new value for one part of `weight` and the old one for the others, and is
cut off to a whole number. It stays among the values that it is taken of. Under a value that
does not change it comes to rest less than a weight below it, and never above it.
-/

import Mathlib.Logic.Function.Iterate
import Mathlib.Data.Nat.Notation

set_option autoImplicit false

namespace Comnet.Foundations

/-- The average of an old and a new value, cut off. -/
def average (weight old new : ℕ) : ℕ := ((weight - 1) * old + new) / weight

/-- The average does not move any more. -/
structure AtRest (weight old new : ℕ) : Prop where
  le : old ≤ new
  lt : new < old + weight

variable {weight old new bound count : ℕ}

/-- The old value with its parts and one part more. -/
theorem parts_add (hpos : 0 < weight) (value : ℕ) :
    (weight - 1) * value + value = weight * value := by
  rw [← Nat.succ_mul, Nat.succ_eq_add_one, Nat.sub_add_cancel hpos]

theorem average_le (hpos : 0 < weight) (hold : old ≤ bound) (hnew : new ≤ bound) :
    average weight old new ≤ bound := by
  have hparts := parts_add hpos bound
  have hmul : (weight - 1) * old ≤ (weight - 1) * bound := Nat.mul_le_mul_left _ hold
  exact Nat.div_le_of_le_mul (by omega)

theorem le_average (hpos : 0 < weight) (hold : bound ≤ old) (hnew : bound ≤ new) :
    bound ≤ average weight old new := by
  have hparts := parts_add hpos bound
  have hmul : (weight - 1) * bound ≤ (weight - 1) * old := Nat.mul_le_mul_left _ hold
  rw [average, Nat.le_div_iff_mul_le hpos, Nat.mul_comm bound weight]
  omega

/-- A smaller value draws the average down. -/
theorem average_lt (hpos : 0 < weight) (h : new < old) : average weight old new < old := by
  have hparts := parts_add hpos old
  rw [average, Nat.div_lt_iff_lt_mul hpos, Nat.mul_comm old weight]
  omega

/-- A value that is larger by a weight draws it up. -/
theorem lt_average (hpos : 0 < weight) (h : old + weight ≤ new) :
    old < average weight old new := by
  have hparts := parts_add hpos old
  rw [average, ← Nat.succ_le_iff, Nat.le_div_iff_mul_le hpos, Nat.succ_mul,
    Nat.mul_comm old weight]
  omega

theorem average_of_atRest (h : AtRest weight old new) : average weight old new = old := by
  have hle := h.le
  have hlt := h.lt
  have hparts := parts_add (show 0 < weight by omega) old
  apply Nat.div_eq_of_lt_le
  · rw [Nat.mul_comm old weight]
    omega
  · rw [Nat.succ_mul, Nat.mul_comm old weight]
    omega

/-- Under a value that does not change the average is at rest after as many steps as it was away
from it. -/
theorem atRest_iterate (hpos : 0 < weight) (above : old ≤ new + count) (below : new ≤ old + count) :
    AtRest weight ((average weight · new)^[count] old) new := by
  induction count generalizing old with
  | zero => exact ⟨by simpa using above, by simp at below ⊢; omega⟩
  | succ count ih =>
    by_cases hrest : AtRest weight old new
    · have hstays : (average weight · new)^[count + 1] old = old :=
        @Function.iterate_fixed _ (average weight · new) old (average_of_atRest hrest) _
      rw [hstays]
      exact hrest
    · rw [Function.iterate_succ_apply]
      by_cases hle : old ≤ new
      · have hfar : old + weight ≤ new := Nat.not_lt.mp fun hlt => hrest ⟨hle, hlt⟩
        have hup := lt_average hpos hfar
        have hbound := average_le hpos hle (Nat.le_refl new)
        exact ih (by omega) (by omega)
      · have hdown := average_lt hpos (Nat.not_le.mp hle)
        have hbound := le_average hpos (Nat.le_of_not_le hle) (Nat.le_refl new)
        exact ih (by omega) (by omega)

end Comnet.Foundations
