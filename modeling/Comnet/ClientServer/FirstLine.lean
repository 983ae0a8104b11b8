/-
# The line that is read and the first line

A call that reads a line is to split what comes at the first end of a line: to take the line
and its end off the connection, to leave the line as a string and to return its length. Where
no line ends, its result is to differ from that of any line. The matcher starts no new match at
a carriage return that breaks a match off, the length is taken as that of a string, and where
the stream ends the result is that of an empty line.
-/

import Comnet.ClientServer.Network

set_option autoImplicit false

namespace Comnet.ClientServer

open Foundations

/-- A call that reads a line splits what comes at the first end of a line, if there is one, and
tells its caller if there is none. -/
def SplitsFirst (c : Incoming) (buffer : List UInt8) : Prop :=
  let (c', buffer', result) := c.recvLine buffer
  match firstLine c.pending with
  | some (line, rest) =>
    c'.pending = rest ∧ line ++ [0] <+: buffer' ∧ result = line.length
  | none => ¬ NoNul buffer' ∧ ∀ line : List UInt8, result ≠ line.length

variable {c : Incoming} {buffer line rest : List UInt8}

theorem length_eq_strlen_iff : (strlen line : ℤ) = line.length ↔ NoNul line := by
  have hle := strlen_le line
  have hlt := @strlen_lt_iff line
  rw [← not_iff_not, ← hlt]
  omega

/-- The reader does as it is to where it cuts the first line off, unless the line holds the end
of a string. -/
theorem splitsFirst_of_cut (h : Reliable c.outcomes)
    (hfirst : firstLine c.pending = some (line, rest))
    (hcut : cutLine c.pending = some (line, rest)) (buffer : List UInt8) :
    SplitsFirst c buffer ↔ NoNul line := by
  obtain ⟨c', hrecv, hrest, -⟩ := Incoming.recvLine_of_cut h hcut buffer
  have hprefix : line ++ [0] <+: line ++ 0 :: 10 :: buffer.drop (line.length + 2) := by
    rw [List.prefix_append_right_inj, List.cons_prefix_cons]
    exact ⟨rfl, List.nil_prefix⟩
  simp only [SplitsFirst, hrecv, hfirst]
  rw [and_iff_right hrest, and_iff_right hprefix, length_eq_strlen_iff]

/-- What has been read without a line having been found does not end in the first one. -/
theorem not_splitsFirst_of_no_cut (h : Reliable c.outcomes) (hcut : cutLine c.pending = none)
    (buffer : List UInt8) : ¬ SplitsFirst c buffer := by
  obtain ⟨c', hrecv, -⟩ := Incoming.recvLine_of_no_cut h hcut buffer
  intro hsplits
  simp only [SplitsFirst, hrecv] at hsplits
  cases hfirst : firstLine c.pending with
  | none =>
    rw [hfirst] at hsplits
    exact hsplits.2 [] rfl
  | some cut =>
    obtain ⟨line, rest⟩ := cut
    rw [hfirst] at hsplits
    have hprefix : line ++ [0] <+: line ++ 13 :: 10 :: (rest ++ buffer.drop c.pending.length) := by
      have hbuffer : overwrite buffer c.pending =
          line ++ 13 :: 10 :: (rest ++ buffer.drop c.pending.length) := by
        rw [overwrite]
        nth_rewrite 1 [← firstLine_append hfirst]
        simp only [List.append_assoc, List.cons_append, List.nil_append]
      rw [← hbuffer]
      exact hsplits.2.1
    rw [List.prefix_append_right_inj, List.cons_prefix_cons] at hprefix
    exact absurd hprefix.1 (by decide)

/-- A line that is cut off as the first one is cut off whole. -/
theorem cutLine_of_splitsFirst (h : Reliable c.outcomes) (hsplits : SplitsFirst c buffer) :
    ∃ line rest, firstLine c.pending = some (line, rest) ∧
      cutLine c.pending = some (line, rest) := by
  cases hcut : cutLine c.pending with
  | none => exact absurd hsplits (not_splitsFirst_of_no_cut h hcut buffer)
  | some cut =>
    obtain ⟨line, rest⟩ := cut
    obtain ⟨⟨first, behind⟩, hfirst⟩ :=
      Option.isSome_iff_exists.mp (firstLine_isSome_of_cutLine hcut)
    obtain ⟨c', hrecv, hrest, -⟩ := Incoming.recvLine_of_cut h hcut buffer
    simp only [SplitsFirst, hrecv, hfirst, hrest] at hsplits
    obtain rfl : rest = behind := hsplits.1
    have hstream := (firstLine_append hfirst).trans (cutLine_append hcut).symm
    rw [List.append_cancel_right_eq, List.append_cancel_right_eq] at hstream
    exact ⟨first, rest, hfirst, by rw [hstream]⟩

/-- Over a connection that does not fail a call splits what comes at the first end of a line exactly
when there is one, an even number of carriage returns stands in front of it, and the line holds no
end of a string. -/
theorem splitsFirst_iff (h : Reliable c.outcomes) (buffer : List UInt8) :
    SplitsFirst c buffer ↔ ∃ line rest, firstLine c.pending = some (line, rest) ∧
      Even (trailingReturns line) ∧ NoNul line := by
  constructor
  · intro hsplits
    obtain ⟨line, rest, hfirst, hcut⟩ := cutLine_of_splitsFirst h hsplits
    refine ⟨line, rest, hfirst, ?_, (splitsFirst_of_cut h hfirst hcut buffer).mp hsplits⟩
    rw [← noLineEnd_iff (not_infix_of_firstLine hfirst), ← @cutLine_line_iff line rest,
      firstLine_append hfirst]
    exact hcut
  · rintro ⟨line, rest, hfirst, heven, hnul⟩
    have hcut : cutLine c.pending = some (line, rest) := by
      rw [← firstLine_append hfirst]
      exact cutLine_line_iff.mpr ((noLineEnd_iff (not_infix_of_firstLine hfirst)).mpr heven)
    exact (splitsFirst_of_cut h hfirst hcut buffer).mpr hnul

/-- `GET /` with the end of the line behind it, one byte at a time. -/
theorem splitsFirst_iff_get :
    SplitsFirst (.fresh (bytes "GET /\r\n") fun _ => some 1) [] ↔
      ∃ line rest, firstLine (bytes "GET /\r\n") = some (line, rest) ∧
        Even (trailingReturns line) ∧ NoNul line :=
  @splitsFirst_iff (.fresh (bytes "GET /\r\n") fun _ => some 1) (fun _ => rfl) []

/-- A carriage return in front of the end of the line hides it. -/
theorem splitsFirst_return :
    ¬ ∀ (c : Incoming) (buffer : List UInt8), Reliable c.outcomes → SplitsFirst c buffer := fun h =>
  not_splitsFirst_of_no_cut (c := .fresh (bytes "\r\r\n") fun _ => some 1) (fun _ => rfl)
    (by decide) [] (h _ [] fun _ => rfl)

end Comnet.ClientServer
