/-
# Input file streams

A stream over the contents of a file: an offset and the failure flag that its
boolean value, its position and every later operation depend on. A read that
comes up short sets the end-of-file and the failure flag together, and seeking
clears only the former, so the failure flag alone decides what a stream can do.
A failed stream stays failed until it is replaced.
-/

import Mathlib.Data.Int.ModEq
import Mathlib.Data.List.TakeDrop

set_option autoImplicit false

namespace Comnet.Foundations

/-- An input file stream. -/
structure InputStream (α : Type*) where
  /-- What the opened file holds. -/
  content : List α
  offset : ℕ
  failed : Bool
  /-- How many characters the last read delivered. -/
  gcount : ℕ
  deriving DecidableEq, Repr

namespace InputStream

variable {α : Type*}

/-- A new stream on a file, failed when the file cannot be opened. -/
def openFile : Option (List α) → InputStream α
  | some content => ⟨content, 0, false, 0⟩
  | none => ⟨[], 0, true, 0⟩

/-- The boolean value of the stream. -/
def good (stream : InputStream α) : Bool := !stream.failed

/-- Read a block of `count` characters; the stream fails when fewer are left. -/
def read (stream : InputStream α) (count : ℕ) : List α × InputStream α :=
  if stream.failed then ([], { stream with gcount := 0 })
  else
    let chunk := (stream.content.drop stream.offset).take count
    (chunk, { stream with
      offset := stream.offset + chunk.length
      failed := chunk.length < count
      gcount := chunk.length })

/-- The read position, `-1` on a failed stream. -/
def tellg (stream : InputStream α) : ℤ := if stream.failed then -1 else stream.offset

/-- Move the read position, also past the end; a negative position fails. -/
def seekg (stream : InputStream α) (position : ℤ) : InputStream α :=
  if stream.failed then stream
  else if position < 0 then { stream with failed := true }
  else { stream with offset := position.toNat }

/-- The characters that a read of `count` at the current offset is given. -/
def chunk (stream : InputStream α) (count : ℕ) : List α :=
  (stream.content.drop stream.offset).take count

variable {stream : InputStream α} {count : ℕ} {position : ℤ} {file : List α}

@[simp] theorem openFile_some (file : List α) : openFile (some file) = ⟨file, 0, false, 0⟩ := rfl

@[simp] theorem failed_openFile_none : (openFile (none : Option (List α))).failed = true := rfl

@[simp] theorem good_eq_true : stream.good = true ↔ stream.failed = false := by
  simp [good]

@[simp] theorem good_eq_false : stream.good = false ↔ stream.failed = true := by
  simp [good]

theorem read_of_failed (h : stream.failed = true) :
    stream.read count = ([], { stream with gcount := 0 }) := by
  simp [read, h]

theorem read_of_good (h : stream.failed = false) :
    stream.read count = (stream.chunk count, { stream with
      offset := stream.offset + (stream.chunk count).length
      failed := (stream.chunk count).length < count
      gcount := (stream.chunk count).length }) := by
  simp [read, h, chunk]

@[simp] theorem content_read : (stream.read count).2.content = stream.content := by
  unfold read
  split <;> rfl

theorem length_chunk :
    (stream.chunk count).length = min count (stream.content.length - stream.offset) := by
  simp [chunk]

theorem tellg_of_good (h : stream.failed = false) : stream.tellg = stream.offset := by
  simp [tellg, h]

@[simp] theorem tellg_eq_neg_one : stream.tellg = -1 ↔ stream.failed = true := by
  cases h : stream.failed <;> simp [tellg, h]

theorem seekg_of_failed (h : stream.failed = true) : stream.seekg position = stream := by
  simp [seekg, h]

theorem seekg_of_good (h : stream.failed = false) (nonneg : 0 ≤ position) :
    stream.seekg position = { stream with offset := position.toNat } := by
  simp [seekg, h, Int.not_lt.mpr nonneg]

theorem seekg_of_neg (h : stream.failed = false) (neg : position < 0) :
    stream.seekg position = { stream with failed := true } := by
  simp [seekg, h, neg]

@[simp] theorem content_seekg : (stream.seekg position).content = stream.content := by
  unfold seekg
  split
  · rfl
  · split <;> rfl

/-- Seeking to a position that is not negative never fails. -/
@[simp] theorem good_seekg_natCast (position : ℕ) :
    (stream.seekg position).good = stream.good := by
  cases hfailed : stream.failed with
  | true => rw [seekg_of_failed hfailed]
  | false => rw [seekg_of_good hfailed (Int.natCast_nonneg _), good, good]

/-- A stream that can be read after seeking is where it was sent. -/
theorem tellg_seekg (h : (stream.seekg position).good = true) :
    (stream.seekg position).tellg = position := by
  cases hfailed : stream.failed with
  | true => simp [seekg_of_failed hfailed, hfailed] at h
  | false =>
    by_cases hneg : position < 0
    · simp [seekg_of_neg hfailed hneg] at h
    · rw [seekg_of_good hfailed (not_lt.mp hneg)]
      simp [tellg, hfailed, Int.toNat_of_nonneg (not_lt.mp hneg)]

theorem tellg_nonneg (h : stream.good = true) : 0 ≤ stream.tellg := by
  rw [tellg_of_good (good_eq_true.mp h)]
  exact Int.natCast_nonneg _

end InputStream

end Comnet.Foundations
