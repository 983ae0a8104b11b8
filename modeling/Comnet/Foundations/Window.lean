/-
# Window control

How many segments may be outstanding follows from what a sender is told. The window grows by a
segment for each acknowledgement until it reaches a limit, then by a segment for each window
acknowledged. A third duplicate halves it, and each duplicate after that lends a segment until
the next acknowledgement. A timeout starts again with one segment.

In avoidance a window and its counter are one number, the place of the counter in a triangle with
a row for each size. An acknowledgement moves it by one place, so what a window has come to is told
by how many there were.
-/

import Mathlib.Data.Nat.Choose.Basic
import Mathlib.Data.List.Count

set_option autoImplicit false

namespace Comnet.Foundations

/-- What a sender is told. -/
inductive Signal where
  | acked
  | duplicate
  | third
  | timeout
  deriving DecidableEq, Repr

/-- The window of a sender, by the phase it is in. -/
inductive Window where
  | slowStart (size limit : ℕ)
  | avoidance (size count : ℕ)
  /-- Half of the window before the loss, and what duplicates have lent since. -/
  | recovery (half lent : ℕ)
  deriving DecidableEq, Repr

namespace Window

/-- How many segments may be outstanding. -/
def size : Window → ℕ
  | slowStart size _ => size
  | avoidance size _ => size
  | recovery half lent => half + 3 + lent

/-- What a signal makes of the window. -/
def next : Window → Signal → Window
  | slowStart size limit, .acked =>
    if limit ≤ size + 1 then avoidance (size + 1) 0 else slowStart (size + 1) limit
  | avoidance size count, .acked =>
    if size = count + 1 then avoidance (size + 1) 0 else avoidance size (count + 1)
  | recovery half _, .acked => avoidance half 0
  | recovery half lent, .duplicate => recovery half (lent + 1)
  | w, .duplicate => w
  | w, .third => recovery (w.size / 2) 0
  | w, .timeout => slowStart 1 ((w.size + 1) / 2)

/-- How far the window and its counter have come. -/
def extent : Window → ℕ
  | slowStart size _ => size
  | avoidance size count => size + count
  | recovery half lent => half + 3 + lent

/-- A signal takes neither further than the three segments that recovery lends at once. -/
theorem extent_next_le (w : Window) (signal : Signal) :
    (w.next signal).extent ≤ w.extent + 3 := by
  cases signal with
  | acked =>
    cases w with
    | slowStart size limit =>
      rw [next]
      split_ifs <;> simp only [extent] <;> omega
    | avoidance size count =>
      rw [next]
      split_ifs <;> simp only [extent] <;> omega
    | recovery half lent =>
      simp only [next, extent]
      omega
  | duplicate => cases w <;> simp only [next, extent] <;> omega
  | third => cases w <;> simp only [next, extent, size] <;> omega
  | timeout => cases w <;> simp only [next, extent] <;> omega

/-- What a sequence of signals makes of the window. -/
def after (w : Window) (signals : List Signal) : Window := signals.foldl next w

/-- The signals report no loss. -/
def Smooth (signals : List Signal) : Prop :=
  ∀ signal ∈ signals, signal = .acked ∨ signal = .duplicate

instance (signals : List Signal) : Decidable (Smooth signals) :=
  inferInstanceAs (Decidable (∀ signal ∈ signals, signal = .acked ∨ signal = .duplicate))

variable {size count limit half lent : ℕ} {signals : List Signal} {signal : Signal}

theorem Smooth.head (h : Smooth (signal :: signals)) : signal = .acked ∨ signal = .duplicate :=
  h signal List.mem_cons_self

theorem Smooth.tail (h : Smooth (signal :: signals)) : Smooth signals := fun other hother =>
  h other (List.mem_cons_of_mem _ hother)

theorem after_cons (w : Window) : w.after (signal :: signals) = (w.next signal).after signals :=
  rfl

/-- The place of a counter in the triangle. -/
def place (size count : ℕ) : ℕ := size.choose 2 + count

/-- The end of a row is followed by the beginning of the next. -/
theorem place_next_row (h : size = count + 1) : place (size + 1) 0 = place size count + 1 := by
  have hrow : (size + 1).choose 2 = size + size.choose 2 := by
    rw [Nat.choose_succ_succ' size 1, Nat.choose_one_right]
  unfold place
  omega

/-- The window is in avoidance, with its counter at a place of the triangle. -/
def IsAt (w : Window) (position : ℕ) : Prop :=
  ∃ size count, w = avoidance size count ∧ count < size ∧ place size count = position

theorem isAt_row_start (h : 0 < size) : (avoidance size 0).IsAt (size.choose 2) :=
  ⟨size, 0, rfl, h, rfl⟩

/-- An acknowledgement moves the counter by a place. -/
theorem IsAt.acked {w : Window} {position : ℕ} (h : w.IsAt position) :
    (w.next .acked).IsAt (position + 1) := by
  obtain ⟨size, count, rfl, hless, rfl⟩ := h
  rw [next]
  split_ifs with hfull
  · exact ⟨size + 1, 0, rfl, Nat.succ_pos size, place_next_row hfull⟩
  · exact ⟨size, count + 1, rfl, by omega, rfl⟩

/-- Without a loss the counter moves by a place for each acknowledgement. -/
theorem IsAt.after {w : Window} {position : ℕ} (h : w.IsAt position) (smooth : Smooth signals) :
    (w.after signals).IsAt (position + signals.count .acked) := by
  induction signals generalizing w position with
  | nil => exact h
  | cons signal signals ih =>
    rw [after_cons]
    rcases smooth.head with rfl | rfl
    · have hnext := ih h.acked smooth.tail
      rwa [List.count_cons_self, Nat.add_comm _ 1, ← Nat.add_assoc]
    · have hsame : w.next .duplicate = w := by
        obtain ⟨size, count, rfl, -⟩ := h
        rfl
      rw [hsame, List.count_cons_of_ne (by decide)]
      exact ih h smooth.tail

/-- How many acknowledgements slow start takes from a size to a limit; it takes one to see that
the limit has been reached. -/
def ramp (size limit : ℕ) : ℕ := max 1 (limit - size)

/-- Without a loss the window grows by a segment for each acknowledgement, and goes over to
avoidance at the limit. -/
theorem after_slowStart (size limit : ℕ) (smooth : Smooth signals) :
    (signals.count .acked < ramp size limit →
      (slowStart size limit).after signals = slowStart (size + signals.count .acked) limit) ∧
    (ramp size limit ≤ signals.count .acked →
      ((slowStart size limit).after signals).IsAt
        ((size + ramp size limit).choose 2 + (signals.count .acked - ramp size limit))) := by
  induction signals generalizing size with
  | nil =>
    refine ⟨fun _ => rfl, fun h => ?_⟩
    simp [ramp] at h
  | cons signal signals ih =>
    rw [after_cons]
    rcases smooth.head with rfl | rfl
    · rw [List.count_cons_self, next]
      split_ifs with hreached
      · -- the acknowledgement that reaches the limit is the last one of slow start
        have hramp : ramp size limit = 1 := by
          unfold ramp
          omega
        have hat := (isAt_row_start (Nat.succ_pos size)).after smooth.tail
        rw [hramp, Nat.add_sub_cancel]
        exact ⟨fun h => by omega, fun _ => hat⟩
      · have hramp : ramp size limit = ramp (size + 1) limit + 1 := by
          unfold ramp
          omega
        have hsize : ∀ acks, size + (acks + 1) = size + 1 + acks := fun acks => by omega
        obtain ⟨hbelow, habove⟩ := ih (size + 1) smooth.tail
        rw [hramp, hsize (signals.count .acked), hsize (ramp (size + 1) limit),
          Nat.add_sub_add_right]
        exact ⟨fun h => hbelow (by omega), fun h => habove (by omega)⟩
    · rw [List.count_cons_of_ne (by decide)]
      exact ih size smooth.tail

/-- A window of nothing stays that as long as no loss is reported. -/
theorem after_avoidance_zero (smooth : Smooth signals) :
    (avoidance 0 count).after signals = avoidance 0 (count + signals.count .acked) := by
  induction signals generalizing count with
  | nil => rfl
  | cons signal signals ih =>
    rw [after_cons]
    rcases smooth.head with rfl | rfl
    · rw [List.count_cons_self, next, if_neg (Nat.succ_ne_zero count).symm, ih smooth.tail,
        Nat.add_right_comm, Nat.add_assoc]
    · rw [List.count_cons_of_ne (by decide)]
      exact ih smooth.tail

/-- A duplicate lends a segment. The first acknowledgement leaves half of the window before the
loss, whatever has been lent, and a half of nothing never grows. -/
theorem after_recovery (half lent : ℕ) (smooth : Smooth signals) :
    (signals.count .acked = 0 →
      (recovery half lent).after signals = recovery half (lent + signals.count .duplicate)) ∧
    (0 < signals.count .acked → 0 < half →
      ((recovery half lent).after signals).IsAt (half.choose 2 + (signals.count .acked - 1))) ∧
    (0 < signals.count .acked → half = 0 →
      (recovery half lent).after signals = avoidance 0 (signals.count .acked - 1)) := by
  induction signals generalizing lent with
  | nil => exact ⟨fun _ => rfl, fun h => absurd h (lt_irrefl 0), fun h => absurd h (lt_irrefl 0)⟩
  | cons signal signals ih =>
    rw [after_cons]
    rcases smooth.head with rfl | rfl
    · rw [List.count_cons_self, Nat.add_sub_cancel, next]
      refine ⟨fun h => absurd h (Nat.succ_ne_zero _), fun _ hpos => ?_, fun _ hzero => ?_⟩
      · exact (isAt_row_start hpos).after smooth.tail
      · rw [hzero, after_avoidance_zero smooth.tail, Nat.zero_add]
    · rw [List.count_cons_of_ne (by decide), List.count_cons_self, next, ← Nat.add_assoc,
        Nat.add_right_comm]
      exact ih (lent + 1) smooth.tail

end Window

end Comnet.Foundations
