/-
# What the sender reads

The sender opens its file at the beginning, and again where a stream is exhausted. As long
as the name leads to the same file, everything it reads is of that file: the next chunk
where the stream is, the missing one and the first one after a timeout at the
acknowledged position.
-/

import Comnet.MP2.Transmit

set_option autoImplicit false

namespace Comnet.MP2

open Foundations

namespace SenderStateMachine

/-- Every stream that the sender opens is on one file. -/
structure ReadsFrom (file : List UInt8) (s : SenderStateMachine) : Prop where
  content : s.message.content = file
  fileName : s.fileName = some file

variable {s : SenderStateMachine} {file : List UInt8}

/-- A stream whose position does not read as `-1` can be read. -/
theorem good_of_position (h : ¬ narrow s.message.tellg = -1) : s.message.good = true := by
  by_contra hfailed
  have htell : s.message.tellg = -1 := InputStream.tellg_eq_neg_one.mpr (by simpa using hfailed)
  exact h (by rw [htell]; decide)

/-- A retransmission reads at the acknowledged position. -/
theorem ReadsFrom.missingSegment_eq (h : ReadsFrom file s) :
    s.missingSegment.failed = false ∧ s.missingSegment.content = file ∧
      s.missingSegment.offset = (s.ackedPosition - 1).toNat := by
  have hopen : s.startPosition.1.good = true ∧ s.startPosition.1.content = file := by
    unfold startPosition
    split_ifs with hposition
    · rw [h.fileName, InputStream.good_seekg_natCast, InputStream.content_seekg]
      exact ⟨rfl, rfl⟩
    · exact ⟨good_of_position hposition, h.content⟩
  have hfailed := InputStream.good_eq_true.mp hopen.1
  unfold missingSegment
  rw [InputStream.seekg_of_good hfailed (Int.natCast_nonneg _)]
  exact ⟨hfailed, hopen.2, Int.toNat_natCast _⟩

/-- The bytes that a retransmission finds. -/
theorem ReadsFrom.missingChunk_eq (h : ReadsFrom file s) :
    s.missingChunk = (file.drop (s.ackedPosition - 1).toNat).take mmsBytes := by
  obtain ⟨hfailed, hcontent, hoffset⟩ := h.missingSegment_eq
  unfold missingChunk
  rw [InputStream.read_of_good hfailed, InputStream.chunk, hcontent, hoffset]

/-- A timeout leaves a stream that can be read, at the acknowledged position. -/
theorem ReadsFrom.processTimeout_message (h : ReadsFrom file s) :
    s.processTimeout.message.failed = false ∧ s.processTimeout.message.content = file ∧
      s.processTimeout.message.offset = (s.ackedPosition - 1).toNat := by
  unfold processTimeout
  dsimp only
  split_ifs with hexhausted
  · rw [h.fileName, InputStream.seekg_of_good rfl (Int.natCast_nonneg _)]
    exact ⟨rfl, rfl, Int.toNat_natCast _⟩
  · have hfailed : s.message.failed = false := by simpa using hexhausted
    rw [InputStream.seekg_of_good hfailed (Int.natCast_nonneg _)]
    exact ⟨hfailed, h.content, Int.toNat_natCast _⟩

end SenderStateMachine

namespace Transmission

variable {t next : Transmission} {turn : Turn} {file : List UInt8}

/-- The file stays the one that was opened. -/
theorem readsFrom_step (h : t.machine.ReadsFrom file) (hstep : t.step turn = some next) :
    next.machine.ReadsFrom file := by
  obtain ⟨-, hmove⟩ := step_cases hstep
  cases hmove with
  | send f admitted sending => cases sending <;> exact ⟨h.content, h.fileName⟩
  | receive recv f waiting reaction =>
    have hmissing : (t.machine.missingSegment.read mmsBytes).2.content = file := by
      rw [InputStream.content_read]
      exact h.missingSegment_eq.2.1
    cases reaction with
    | timeout => exact ⟨h.processTimeout_message.2.1, h.fileName⟩
    | resent recv third sent measured =>
      exact ⟨InputStream.content_seekg.trans hmissing, h.fileName⟩
    | refused recv third error notAcked => exact ⟨hmissing, h.fileName⟩
    | advance recv new growth =>
      refine ⟨?_, h.fileName⟩
      change (t.machine.forwarded recv).content = file
      unfold SenderStateMachine.forwarded
      split_ifs
      · exact InputStream.content_seekg.trans h.content
      · exact h.content
    | _ => exact ⟨h.content, h.fileName⟩

end Transmission

end Comnet.MP2
