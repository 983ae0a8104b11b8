/-
# Cutting a list into consecutive pieces

A cutting of a list is a sequence of pieces that make it up in order, none of
them empty except possibly the last. Pieces are named by their index; the offset
of a piece is the length of what precedes it, and different pieces have different
offsets even when the last one is empty.

The initial run of a set of indices is as far as the pieces are present without
a gap. It is determined by the set alone.
-/

import Comnet.Foundations.Slice

set_option autoImplicit false

namespace Comnet.Foundations

variable {α : Type*} {whole : List α}

/-- A sequence of pieces that make up a list. -/
structure Cutting (whole : List α) where
  pieces : List (List α)
  flatten_pieces : pieces.flatten = whole
  /-- Only the last piece may be empty. -/
  nonempty : ∀ piece ∈ pieces.dropLast, piece ≠ []

namespace Cutting

variable (cutting : Cutting whole) {i j : ℕ}

def count : ℕ := cutting.pieces.length

def piece (i : ℕ) : List α := cutting.pieces.getD i []

def offset (i : ℕ) : ℕ := (cutting.pieces.take i).flatten.length

/-- The last piece, which ends with the whole. -/
def IsLast (i : ℕ) : Prop := i + 1 = cutting.count

instance (i : ℕ) : Decidable (cutting.IsLast i) := inferInstanceAs (Decidable (_ = _))

@[simp] theorem offset_zero : cutting.offset 0 = 0 := rfl

theorem flatten_take_succ (h : i < cutting.count) :
    (cutting.pieces.take (i + 1)).flatten =
      (cutting.pieces.take i).flatten ++ cutting.piece i := by
  rw [List.take_add_one, List.flatten_append, piece, List.getD_eq_getElem?_getD,
    List.getElem?_eq_getElem h]
  simp

theorem offset_succ (h : i < cutting.count) :
    cutting.offset (i + 1) = cutting.offset i + (cutting.piece i).length := by
  rw [offset, cutting.flatten_take_succ h, List.length_append, offset]

theorem offset_mono (h : i ≤ j) : cutting.offset i ≤ cutting.offset j :=
  (List.take_prefix_take_left h).flatten.length_le

theorem flatten_take_isPrefix : (cutting.pieces.take i).flatten <+: whole := by
  have hpieces := (List.take_prefix i cutting.pieces).flatten
  rwa [cutting.flatten_pieces] at hpieces

/-- The first pieces make up the beginning of the whole. -/
theorem flatten_take : (cutting.pieces.take i).flatten = whole.take (cutting.offset i) :=
  List.prefix_iff_eq_take.mp cutting.flatten_take_isPrefix

theorem offset_le : cutting.offset i ≤ whole.length :=
  cutting.flatten_take_isPrefix.length_le

theorem piece_ne_nil (h : i + 1 < cutting.count) : cutting.piece i ≠ [] := by
  have hlen : i < cutting.pieces.dropLast.length := by
    rw [List.length_dropLast]
    exact Nat.lt_sub_of_add_lt h
  have hi : i < cutting.pieces.length := Nat.lt_of_succ_lt h
  have hget : cutting.piece i = cutting.pieces.dropLast[i] := by
    rw [piece, List.getD_eq_getElem?_getD, List.getElem?_eq_getElem hi, Option.getD_some,
      List.getElem_dropLast]
  rw [hget]
  exact cutting.nonempty _ (List.getElem_mem hlen)

/-- Offsets grow strictly, the last piece excepted. -/
theorem offset_lt (h : i < j) (hj : j < cutting.count) : cutting.offset i < cutting.offset j := by
  have hpos : 0 < (cutting.piece i).length :=
    List.length_pos_iff.mpr (cutting.piece_ne_nil (by omega))
  calc cutting.offset i < cutting.offset i + (cutting.piece i).length := by omega
    _ = cutting.offset (i + 1) := (cutting.offset_succ (by omega)).symm
    _ ≤ cutting.offset j := cutting.offset_mono h

theorem offset_inj (hi : i < cutting.count) (hj : j < cutting.count)
    (h : cutting.offset i = cutting.offset j) : i = j := by
  rcases Nat.lt_trichotomy i j with hlt | heq | hgt
  · exact absurd h (cutting.offset_lt hlt hj).ne
  · exact heq
  · exact absurd h (cutting.offset_lt hgt hi).ne'

end Cutting

/-- `run` is where the pieces present from the first one on first have a gap. -/
structure InitialRun (present : ℕ → Prop) (run : ℕ) : Prop where
  below : ∀ i < run, present i
  gap : ¬ present run

/-- The initial run is determined by what is present. -/
theorem InitialRun.unique {present present' : ℕ → Prop} {run run' : ℕ}
    (h : InitialRun present run) (h' : InitialRun present' run')
    (same : ∀ i, present i ↔ present' i) : run = run' := by
  rcases Nat.lt_trichotomy run run' with hlt | heq | hgt
  · exact absurd ((same run).mpr (h'.below run hlt)) h.gap
  · exact heq
  · exact absurd ((same run').mp (h.below run' hgt)) h'.gap

end Comnet.Foundations
