/-
# Slices of a list

A slice is a run of consecutive elements together with the place it starts at.
A prefix grows by the slice that starts where it ends, and a prefix that is as
long as the whole is the whole.
-/

import Mathlib.Data.List.Infix
import Mathlib.Data.Int.ModEq

set_option autoImplicit false

namespace Comnet.Foundations

variable {α : Type*} {whole part got : List α} {offset count : ℕ}

/-- `part` stands in `whole` from `offset` on. -/
structure Slice (whole : List α) (offset : ℕ) (part : List α) : Prop where
  within : offset + part.length ≤ whole.length
  eq : part = (whole.drop offset).take part.length

/-- What a read of `count` elements at an offset within the whole is given. -/
theorem slice_take_drop (h : offset ≤ whole.length) :
    Slice whole offset ((whole.drop offset).take count) := by
  constructor
  · simp only [List.length_take, List.length_drop]
    omega
  · rw [List.length_take, ← List.take_take, List.take_length]

theorem Slice.sublist (h : Slice whole offset part) : part.Sublist whole := by
  rw [h.eq]
  exact (List.take_sublist _ _).trans (List.drop_sublist _ _)

/-- A prefix followed by the slice that starts at its end is a prefix. -/
theorem Slice.append_isPrefix (h : Slice whole got.length part) (hgot : got <+: whole) :
    (got ++ part) <+: whole := by
  have hfirst : got = whole.take got.length := List.prefix_iff_eq_take.mp hgot
  have htake : got ++ part = whole.take (got.length + part.length) := by
    rw [List.take_add, ← hfirst, ← h.eq]
  rw [htake]
  apply List.take_prefix

end Comnet.Foundations
