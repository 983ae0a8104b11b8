/-
# Giving up

`transmit` gives up where the number of bytes that `sendData` reports is negative. That is
how `sendData` tells that `sendTo` has thrown, but the number is also the length of a string
less two: where the string at the bytes to send has fewer than two characters, `transmit`
gives up although they have been sent. Only the round that sends the end of the file does
not look at the number.
-/

import Comnet.MP2.Rewinding

set_option autoImplicit false

namespace Comnet.MP2

open Foundations

namespace Transmission

/-- The turn calls `sendTo`, and the call throws. -/
def threw (t : Transmission) (turn : Turn) : Bool :=
  (t.output turn).2.1.isSome && turn.frame.throws

/-- If `transmit` gives up in the turn then `sendTo` threw in it: what was sent is not
reported as a failure. -/
def FailsForAnError (t : Transmission) (turn : Turn) : Prop :=
  ∀ next, t.step turn = some next → next.returned = some false → t.threw turn = true

/-- In a run of `transmit` nothing that was sent is reported as a failure, and where it has
returned `false` there was no socket or some call of `sendTo` threw. -/
structure GivesUpForCause (caAckCount : ℤ) (opened : Bool) (file : List UInt8)
    (turns : List Turn) : Prop where
  sent : AllSteps step FailsForAnError (start caAckCount opened (some file)) turns
  cause : ∀ t, run step (start caAckCount opened (some file)) turns = some t →
    t.returned = some false → opened = false ∨
      ¬ AllSteps step (fun t turn => t.threw turn = false)
        (start caAckCount opened (some file)) turns

/-- Unless `sendTo` throws, the first two bytes at what a turn sends are characters. For the
end of the file, sent again, they may be bytes of the uninitialised array; for the end of the file
sent the first time they do not matter. -/
def BeginsWithText (file : List UInt8) (t : Transmission) : Turn → Prop
  | .send f => f.throws = false → t.machine.message.offset + mmsBytes ≤ file.length →
      NoNul ((file.drop t.machine.message.offset).take 2)
  | .receive none _ => True
  | .receive (some recv) f => f.throws = false → t.machine.ThirdDuplicate recv →
      NoNul ((overwrite (bytesAt f.packetData mmsBytes)
        ((file.drop (t.machine.ackedPosition - 1).toNat).take mmsBytes)).take 2)

instance (file : List UInt8) (t : Transmission) : ∀ turn, Decidable (t.BeginsWithText file turn)
  | .send f => inferInstanceAs (Decidable (f.throws = false →
      t.machine.message.offset + mmsBytes ≤ file.length →
        NoNul ((file.drop t.machine.message.offset).take 2)))
  | .receive none _ => instDecidableTrue
  | .receive (some recv) f => inferInstanceAs (Decidable (f.throws = false →
      t.machine.ThirdDuplicate recv →
        NoNul ((overwrite (bytesAt f.packetData mmsBytes)
          ((file.drop (t.machine.ackedPosition - 1).toNat).take mmsBytes)).take 2)))

/-- `transmit` gives up in the turn. -/
def Fails (t : Transmission) : Turn → Prop
  | .send f => t.GivesUp f
  | .receive none _ => False
  | .receive (some recv) f => t.machine.ThirdDuplicate recv ∧
      SenderStateMachine.reported f (t.machine.missingMemory f) < 0

variable {t next : Transmission} {turn : Turn} {turns : List Turn} {file : List UInt8}
  {f : Frame}

theorem returned_false_iff (h : t.step turn = some next) :
    next.returned = some false ↔ t.Fails turn := by
  obtain ⟨-, hmove⟩ := step_cases h
  cases hmove with
  | send f admitted sending =>
    cases sending with
    | full whole sent measured =>
      exact iff_of_false (by simp) (not_givesUp_of_sent sent measured)
    | refused whole error notAcked => exact iff_of_true rfl ⟨whole, error⟩
    | short rest => exact iff_of_false (by simp) (not_givesUp_of_short rest)
  | receive recv f waiting reaction =>
    cases reaction with
    | timeout => exact iff_of_false (by simp) id
    | ignored recv ack =>
      exact iff_of_false (by simp) fun hfailed =>
        SenderStateMachine.not_thirdDuplicate_of_no_ack ack hfailed.1
    | final recv ack fin =>
      exact iff_of_false (by simp) fun hfailed =>
        SenderStateMachine.not_thirdDuplicate_of_fin fin hfailed.1
    | duplicate recv ack notFin old notThird =>
      exact iff_of_false (by simp) fun hfailed => notThird hfailed.1
    | resent recv third sent measured =>
      refine iff_of_false (by simp) fun hfailed => ?_
      rcases SenderStateMachine.reported_neg_iff.mp hfailed.2 with hthrows | hshort
      · exact Bool.false_ne_true (sent.symm.trans hthrows)
      · exact absurd measured (not_le.mpr hshort)
    | refused recv third error notAcked => exact iff_of_true rfl ⟨third, error⟩
    | advance recv new growth =>
      exact iff_of_false (by simp) fun hfailed => new.not_thirdDuplicate hfailed.1

/-- Giving up is for an error exactly when the turns that give up are turns in which `sendTo`
throws. -/
theorem failsForAnError_iff (h : t.step turn = some next) :
    t.FailsForAnError turn ↔ (t.Fails turn → turn.frame.throws = true) := by
  have hsends : t.Fails turn → t.threw turn = turn.frame.throws := by
    intro hfailed
    unfold threw
    cases turn with
    | send f => exact Bool.true_and _
    | receive recv f =>
      cases recv with
      | none => exact hfailed.elim
      | some recv =>
        have hhanded := SenderStateMachine.isSome_handed_iff (f := f) |>.mpr hfailed.1
        simp [output, hhanded]
  constructor
  · intro hfails hfailed
    rw [← hsends hfailed]
    exact hfails next h ((returned_false_iff h).mpr hfailed)
  · intro hthrows other hother hreturned
    obtain rfl : next = other := Option.some.inj (h.symm.trans hother)
    have hfailed := (returned_false_iff h).mp hreturned
    rw [hsends hfailed]
    exact hthrows hfailed

/-- The number reported is negative exactly when `sendTo` throws or one of the first two bytes
ends the string. -/
theorem reported_neg_iff_take {memory : List UInt8} (h : 2 ≤ memory.length) :
    SenderStateMachine.reported f memory < 0 ↔
      (f.throws = false → ¬ NoNul (memory.take 2)) := by
  rw [SenderStateMachine.reported_neg_iff, ← not_le, le_strlen_iff h]
  cases f.throws <;> simp

/-- A round of the inner loop finds a full chunk where a hundred bytes are left, and that
begins as the file goes on. -/
theorem fails_send_iff (h : t.machine.ReadsFrom file) : t.Fails (.send f) ↔
    t.machine.message.offset + mmsBytes ≤ file.length ∧
      (f.throws = false → ¬ NoNul ((file.drop t.machine.message.offset).take 2)) := by
  have hchunk : t.machine.message.chunk mmsBytes =
      (file.drop t.machine.message.offset).take mmsBytes := by
    rw [InputStream.chunk, h.content]
  have hwhole : (t.machine.message.chunk mmsBytes).length = mmsBytes ↔
      t.machine.message.offset + mmsBytes ≤ file.length := by
    rw [InputStream.length_chunk, h.content]
    unfold mmsBytes
    omega
  rw [Fails, GivesUp, hwhole]
  refine and_congr_right fun hfull => ?_
  have hlength := hwhole.mpr hfull
  have htake : (t.machine.chunkMemory f).take 2 =
      (file.drop t.machine.message.offset).take 2 := by
    rw [SenderStateMachine.chunkMemory, overwrite, List.append_assoc,
      List.take_append_of_le_length (by rw [hlength]; decide), hchunk, List.take_take]
    rfl
  rw [reported_neg_iff_take, htake]
  rw [SenderStateMachine.chunkMemory, List.length_append, length_overwrite, hlength]
  unfold mmsBytes
  omega

/-- A retransmission begins with what the file has at the acknowledged position, laid over
the array. -/
theorem fails_receive_iff (h : t.machine.ReadsFrom file) {recv : Packet} :
    t.Fails (.receive (some recv) f) ↔ t.machine.ThirdDuplicate recv ∧
      (f.throws = false → ¬ NoNul ((overwrite (bytesAt f.packetData mmsBytes)
        ((file.drop (t.machine.ackedPosition - 1).toNat).take mmsBytes)).take 2)) := by
  have harray : 2 ≤ (overwrite (bytesAt f.packetData mmsBytes)
      ((file.drop (t.machine.ackedPosition - 1).toNat).take mmsBytes)).length := by
    rw [length_overwrite, length_bytesAt]
    exact le_max_of_le_left (by decide)
  have hmemory : 2 ≤ (t.machine.missingMemory f).length := by
    rw [SenderStateMachine.missingMemory, h.missingChunk_eq, List.length_append]
    exact le_add_right harray
  rw [Fails, reported_neg_iff_take hmemory, SenderStateMachine.missingMemory,
    h.missingChunk_eq, List.take_append_of_le_length harray]

/-- A turn fails for an error only, exactly when what it sends begins with text. -/
theorem failsForAnError_iff_beginsWithText (h : t.machine.ReadsFrom file)
    (hstep : t.step turn = some next) : t.FailsForAnError turn ↔ t.BeginsWithText file turn := by
  rw [failsForAnError_iff hstep]
  cases turn with
  | send f =>
    rw [fails_send_iff h, BeginsWithText, Turn.frame]
    cases f.throws <;> simp
  | receive recv f =>
    cases recv with
    | none => exact iff_of_true False.elim trivial
    | some recv =>
      rw [fails_receive_iff h, BeginsWithText, Turn.frame]
      cases f.throws <;> simp

/-- A sender that gives up for errors only has not given up while `sendTo` has not thrown. -/
theorem returned_ne_false (init : t.returned ≠ some false)
    (fails : AllSteps step FailsForAnError t turns)
    (quiet : AllSteps step (fun t turn => t.threw turn = false) t turns)
    (hrun : run step t turns = some next) : next.returned ≠ some false := by
  refine (allStates_of_allSteps (P := fun t => t.returned ≠ some false) init ?_
    (fails.and quiet)).last hrun
  rintro t turn next - ⟨hfails, hquiet⟩ hstep hreturned
  exact absurd (hquiet.symm.trans (hfails next hstep hreturned)) Bool.false_ne_true

variable (caAckCount : ℤ) (opened : Bool) (file) (turns)

/-- A run of `transmit` reports nothing that was sent as a failure, and gives up only without a
socket or after an error, exactly when whatever it sends without an error begins with two
characters: a full chunk in the file, a missing segment in the array that it is read into. -/
theorem givesUpForCause_iff : GivesUpForCause caAckCount opened file turns ↔
    AllSteps step (BeginsWithText file) (start caAckCount opened (some file)) turns := by
  cases opened with
  | false =>
    have hsteps : ∀ C : Transmission → Turn → Prop,
        AllSteps step C (start caAckCount false (some file)) turns := by
      intro C
      cases turns with
      | nil => trivial
      | cons turn turns => exact fun next hstep => nomatch (step_cases hstep).1
    exact iff_of_true ⟨hsteps _, fun t hrun hreturned => Or.inl rfl⟩ (hsteps _)
  | true =>
    have hreads : (start caAckCount true (some file)).machine.ReadsFrom file := ⟨rfl, rfl⟩
    have hsteps : AllSteps step FailsForAnError (start caAckCount true (some file)) turns ↔
        AllSteps step (BeginsWithText file) (start caAckCount true (some file)) turns :=
      allSteps_iff_allSteps (A := fun _ _ => True) hreads
        (fun t turn next h _ hstep => failsForAnError_iff_beginsWithText h hstep)
        (fun t turn next h _ _ hstep => readsFrom_step h hstep)
        (AllSteps.of_forall fun _ _ => trivial)
    rw [← hsteps]
    refine ⟨GivesUpForCause.sent, fun hfails => ⟨hfails, fun t hrun hreturned => Or.inr ?_⟩⟩
    exact fun hquiet => returned_ne_false (by simp) hfails hquiet hrun hreturned

/-- A full chunk of zeros is sent and reported as a failure. -/
theorem givesUpForCause_zeros : ¬ ∀ (caAckCount : ℤ) (opened : Bool) (file : List UInt8)
    (turns : List Turn), GivesUpForCause caAckCount opened file turns := by
  intro h
  have hend : (run step (start 0 true (some (List.replicate 100 0))) [.send .usual]).map
      (·.returned) = some (some false) := by
    decide +kernel
  have hquiet : AllSteps step (fun t turn => t.threw turn = false)
      (start 0 true (some (List.replicate 100 0))) [.send .usual] := by
    decide +kernel
  obtain ⟨t, hrun, hreturned⟩ := Option.map_eq_some_iff.mp hend
  rcases (h 0 true (List.replicate 100 0) [.send .usual]).cause t hrun hreturned with hno | hthrew
  · exact Bool.false_ne_true hno.symm
  · exact hthrew hquiet

end Transmission

end Comnet.MP2
