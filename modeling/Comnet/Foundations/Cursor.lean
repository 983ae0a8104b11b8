/-
# A cursor in a list of times

A cursor waits for the time that it points at and moves on by one when that time comes. So
it sees the times of a list as long as they rise; from the first one on that has
passed already it waits for ever.
-/

import Mathlib.Data.Int.ModEq
import Mathlib.Data.List.Basic

set_option autoImplicit false

namespace Comnet.Foundations

variable {times passed rest : List ℤ} {start now time : ℤ}

/-- The times of a list as long as each is later than the one before it, the first one later
than a start. -/
def rising (start : ℤ) : List ℤ → List ℤ
  | [] => []
  | time :: times => if start < time then time :: rising time times else []

/-- A cursor stands between the times that it has seen come and those that it has not. -/
structure Cursor (start : ℤ) (times passed rest : List ℤ) (now : ℤ) : Prop where
  times_eq : times = passed ++ rest
  rising_eq : rising start times = passed ++ rising now rest
  past : ∀ time ∈ passed, time ≤ now

theorem rising_cons (h : start < time) : rising start (time :: times) = time :: rising time times :=
  if_pos h

theorem lt_of_mem_rising (h : time ∈ rising start times) : start < time := by
  induction times generalizing start with
  | nil => exact absurd h List.not_mem_nil
  | cons first times ih =>
    rw [rising] at h
    split_ifs at h with hlt
    · rcases List.mem_cons.mp h with rfl | hmem
      · exact hlt
      · exact hlt.trans (ih hmem)
    · exact absurd h List.not_mem_nil

namespace Cursor

theorem atStart (start : ℤ) (times : List ℤ) : Cursor start times [] times start :=
  ⟨rfl, rfl, fun _ h => absurd h List.not_mem_nil⟩

/-- The cursor moves on when the time that it points at comes. -/
theorem hit (h : Cursor start times passed ((now + 1) :: rest) now) :
    Cursor start times (passed ++ [now + 1]) rest (now + 1) := by
  refine ⟨by rw [h.times_eq]; simp, ?_, fun time hmem => ?_⟩
  · rw [h.rising_eq, rising_cons (by omega), List.append_assoc]
    rfl
  · rcases List.mem_append.mp hmem with hold | hnew
    · have := h.past time hold
      omega
    · exact (List.mem_singleton.mp hnew).le

/-- It stays where it is when another time comes. -/
theorem miss (h : Cursor start times passed rest now) (other : rest.head? ≠ some (now + 1)) :
    Cursor start times passed rest (now + 1) := by
  refine ⟨h.times_eq, ?_, fun time hmem => (h.past time hmem).trans (by omega)⟩
  rw [h.rising_eq]
  cases rest with
  | nil => rfl
  | cons first rest =>
    have hfirst : first ≠ now + 1 := fun heq => other (congrArg some heq)
    have hsame : now < first ↔ now + 1 < first := by omega
    rw [rising, rising, if_congr hsame rfl rfl]

/-- The time that comes is the one pointed at exactly when it is among the rising ones. -/
theorem head?_iff (h : Cursor start times passed rest now) :
    rest.head? = some (now + 1) ↔ now + 1 ∈ rising start times := by
  have hpassed : now + 1 ∉ passed := fun hmem => by
    have := h.past _ hmem
    omega
  rw [h.rising_eq, List.mem_append, or_iff_right hpassed]
  cases rest with
  | nil => simp [rising]
  | cons first rest =>
    rw [List.head?_cons, Option.some_inj]
    constructor
    · rintro rfl
      rw [rising_cons (by omega)]
      exact List.mem_cons_self
    · intro hmem
      rw [rising] at hmem
      split_ifs at hmem with hlt
      · rcases List.mem_cons.mp hmem with heq | htail
        · exact heq.symm
        · have := lt_of_mem_rising htail
          omega
      · exact absurd hmem List.not_mem_nil

/-- The cursor has come to the end exactly when all times rise and have come. -/
theorem rest_eq_nil_iff (h : Cursor start times passed rest now) :
    rest = [] ↔ rising start times = times ∧ ∀ time ∈ times, time ≤ now := by
  constructor
  · rintro rfl
    have htimes : times = passed := h.times_eq.trans (List.append_nil _)
    refine ⟨?_, fun time hmem => h.past time (htimes ▸ hmem)⟩
    rw [h.rising_eq, htimes]
    exact List.append_nil _
  · rintro ⟨hall, hpast⟩
    have hrest : rising now rest = rest := by
      rw [h.rising_eq] at hall
      exact List.append_cancel_left (hall.trans h.times_eq)
    refine List.eq_nil_iff_forall_not_mem.mpr fun time hmem => ?_
    have hlater : now < time := lt_of_mem_rising (hrest ▸ hmem)
    have hearlier := hpast time (h.times_eq ▸ List.mem_append_right _ hmem)
    omega

end Cursor

end Comnet.Foundations
