/-
# The count of unacknowledged segments

`notAcked` counts segments that are out. It goes up with every segment sent and is
set to zero by a timeout, but an acknowledgement takes off one, or in fast recovery
one for every hundred bytes, whatever it covers, and entering fast recovery sets it
from the window. It is compared here with what is really out: the distinct sequence
numbers handed to `sendTo` since the last timeout that are not yet acknowledged.
-/

import Comnet.Foundations.Outstanding
import Comnet.MP2.Transmit

set_option autoImplicit false

namespace Comnet.MP2

open Foundations

namespace Transmission

/-- The sequence numbers handed to `sendTo` since the last timeout. -/
def numbers (t : Transmission) : List ℕ := t.sinceTimeout.map (·.toNat)

/-- Those of them that are not acknowledged. -/
def outstanding (t : Transmission) : Finset ℕ := atLeast t.machine.ackedPosition.toNat t.numbers

/-- Those that an acknowledgement is the first to cover. -/
def covered (t : Transmission) (recv : Packet) : Finset ℕ :=
  between t.machine.ackedPosition.toNat recv.ackNum.toNat t.numbers

/-- While `transmit` runs, `notAcked` is the number of segments out, which is at most
the limit of 25. -/
def Accounted (t : Transmission) : Prop :=
  t.returned = none → t.machine.notAcked = t.outstanding.card ∧ 0 ≤ t.machine.notAcked ∧
    t.outstanding.card ≤ 25

/-- `transmit` gives up in a round of the inner loop. -/
def GivesUp (t : Transmission) (f : Frame) : Prop :=
  (t.machine.message.chunk mmsBytes).length = mmsBytes ∧
    SenderStateMachine.reported f (t.machine.chunkMemory f) < 0

/-- The segment that a round of the inner loop sends is not acknowledged and not out
already. -/
def Fresh (t : Transmission) : Prop :=
  t.machine.ackedPosition.toNat ≤ (t.machine.filePosition + 1).toNat ∧
    (t.machine.filePosition + 1).toNat ∉ t.numbers

instance (t : Transmission) : Decidable t.Fresh := inferInstanceAs (Decidable (_ ∧ _))

/-- The turns that keep the count right. A round of the inner loop that goes on counts
its segment exactly when the segment is a new one. Entering fast recovery finds half
the window out. A new acknowledgement covers one segment, or in fast recovery one for
every hundred bytes. -/
def KeepsCount (t : Transmission) : Turn → Prop
  | .send f => ¬ t.GivesUp f → (f.throws = false ↔ t.Fresh)
  | .receive (some recv) f =>
      (t.machine.ThirdDuplicate recv →
        ¬ SenderStateMachine.reported f (t.machine.missingMemory f) < 0 →
        t.machine.halved + 1 =
          (insert t.machine.ackedPosition.toNat t.outstanding).card ∧
        (insert t.machine.ackedPosition.toNat t.outstanding).card ≤ 25) ∧
      (t.machine.NewAck recv → (t.covered recv).card =
        if t.machine.state = .fastRecovery
        then ((recv.ackNum - t.machine.ackedPosition) / 100).toNat else 1)
  | .receive none _ => True

variable {t next : Transmission} {turn : Turn}

/-- Nothing changes the limit. -/
theorem maxNotAcked_step {limit : ℤ} (h : t.machine.maxNotAcked = limit)
    (hstep : t.step turn = some next) : next.machine.maxNotAcked = limit := by
  obtain ⟨-, hmove⟩ := step_cases hstep
  cases hmove with
  | send f admitted sending => cases sending <;> exact h
  | receive recv f waiting reaction => cases reaction <;> exact h

/-- A chunk whose sending is reported is not given up on. -/
theorem not_givesUp_of_sent {f : Frame} (sent : f.throws = false)
    (measured : 2 ≤ strlen (t.machine.chunkMemory f)) : ¬ t.GivesUp f := by
  rintro ⟨-, error⟩
  rw [SenderStateMachine.reported_of_sent sent] at error
  omega

/-- The end of the file is never given up on. -/
theorem not_givesUp_of_short {f : Frame}
    (rest : (t.machine.message.chunk mmsBytes).length < mmsBytes) : ¬ t.GivesUp f :=
  fun h => absurd h.1 rest.ne

theorem notAcked_lt_of_canSend (h : t.machine.canSend = true) :
    t.machine.notAcked < t.machine.cwnd ∧ t.machine.notAcked < t.machine.maxNotAcked := by
  simp only [SenderStateMachine.canSend, Bool.and_eq_true, decide_eq_true_eq] at h
  exact ⟨h.1.2, h.2⟩

theorem accounted_start (caAckCount : ℤ) (opened : Bool) (fileName : Option (List UInt8)) :
    (start caAckCount opened fileName).Accounted := by
  intro _
  cases opened <;> exact ⟨rfl, le_rfl, Nat.zero_le _⟩

/-- A round of the inner loop makes one more segment outstanding exactly when it
sends a fresh one. -/
theorem card_sent : (atLeast t.machine.ackedPosition.toNat
    ((t.machine.filePosition + 1).toNat :: t.numbers)).card =
      t.outstanding.card + if t.Fresh then 1 else 0 :=
  card_atLeast_cons

/-- A round of the inner loop keeps the count exactly when it gives up or counts its segment as it
should. -/
theorem accounted_send {f : Frame} (haccounted : t.Accounted) (running : t.returned = none)
    (limit : t.machine.maxNotAcked = 25) (admitted : t.machine.canSend = true)
    {machine : SenderStateMachine} {returned : Option Bool}
    (sending : t.machine.Sending f (machine, t.machine.nextPacket f, returned)) :
    Accounted ⟨machine, returned,
        ⟨t.machine.nextPacket f, some t.machine.message.offset⟩ :: t.handed,
        (t.machine.filePosition + 1) :: t.sinceTimeout⟩ ↔ t.KeepsCount (.send f) := by
  obtain ⟨hcounted, hnonneg, -⟩ := haccounted running
  obtain ⟨-, hroom⟩ := notAcked_lt_of_canSend admitted
  -- with `delta` added to the count, it is right when `delta` is what is out in addition
  have hgoes : ∀ count delta : ℤ, count = t.machine.notAcked + delta →
      ((count = ((atLeast t.machine.ackedPosition.toNat
        ((t.machine.filePosition + 1).toNat :: t.numbers)).card : ℤ) ∧
        0 ≤ count ∧ (atLeast t.machine.ackedPosition.toNat
          ((t.machine.filePosition + 1).toNat :: t.numbers)).card ≤ 25) ↔
      delta = if t.Fresh then 1 else 0) := by
    intro count delta hdelta
    rw [card_sent, hdelta]
    by_cases hfresh : t.Fresh <;> simp only [hfresh, if_true, if_false] <;> omega
  have hfits : FitsInt (t.machine.notAcked + 1) := ⟨by omega, by omega⟩
  cases sending with
  | full whole sent measured =>
    have hnot : ¬ t.GivesUp f := not_givesUp_of_sent sent measured
    have hkeeps : t.KeepsCount (.send f) ↔ (1 : ℤ) = if t.Fresh then 1 else 0 := by
      simp [KeepsCount, hnot, sent]
    rw [hkeeps, ← hgoes _ _ hfits.narrow]
    exact ⟨fun h => h rfl, fun h _ => h⟩
  | refused whole error =>
    exact iff_of_true (fun h => nomatch h) fun hnot => absurd ⟨whole, error⟩ hnot
  | short rest =>
    have hnot : ¬ t.GivesUp f := not_givesUp_of_short rest
    have hkeeps : t.KeepsCount (.send f) ↔
        (if f.throws then 0 else 1 : ℤ) = if t.Fresh then 1 else 0 := by
      cases hthrows : f.throws <;> by_cases hfresh : t.Fresh <;>
        simp [KeepsCount, hnot, hthrows, hfresh]
    rw [hkeeps, ← hgoes _ _ (SenderStateMachine.counted_of_fits hfits)]
    exact ⟨fun h => h rfl, fun h _ => h⟩

/-- What a new acknowledgement takes off a count that is in use. -/
theorem notAcked_of_growth {m : SenderStateMachine} {recv : Packet}
    {cwnd notAcked caAckCount : ℤ} {state : State}
    (growth : m.Growth recv cwnd notAcked caAckCount state) (lower : 0 ≤ m.notAcked)
    (upper : m.notAcked ≤ 25) :
    notAcked = m.notAcked - ((if m.state = .fastRecovery
      then ((recv.ackNum - m.ackedPosition) / 100).toNat else 1 : ℕ) : ℤ) := by
  have hone : narrow (m.notAcked - 1) = m.notAcked - 1 := narrow_of_mem (by omega) (by omega)
  cases growth with
  | slowStart state below => simp [state, hone]
  | leave state reached => simp [state, hone]
  | avoid state counting => simp [state, hone]
  | raise state full => simp [state, hone]
  | recover state =>
    rw [if_pos state]
    have hword := (recv.ackNum - m.ackedPosition).toNat_lt
    have hchunks : ((recv.ackNum - m.ackedPosition) / 100).toNat =
        (recv.ackNum - m.ackedPosition).toNat / 100 := UInt32.toNat_div _ _
    exact narrow_of_mem (by omega) (by omega)

/-- Receiving keeps the count exactly when what it takes off, or sets the count to, is what is then
out. -/
theorem accounted_receive {recv : Option Packet} {f : Frame} (haccounted : t.Accounted)
    (running : t.returned = none)
    {outcome : Outcome} (reaction : t.machine.Reaction f recv outcome) :
    Accounted ⟨outcome.machine, returnOf outcome.status,
        (outcome.handed.map (Handed.of · t.machine.missingSegment)).toList ++ t.handed,
        (outcome.handed.map (·.seqNum)).toList ++ t.kept (.receive recv f)⟩ ↔
      t.KeepsCount (.receive recv f) := by
  have hbefore := haccounted running
  have hother : ∀ recv, ¬ t.machine.ThirdDuplicate recv → ¬ t.machine.NewAck recv →
      t.KeepsCount (.receive (some recv) f) :=
    fun _ hthird hnew => ⟨fun h => absurd h hthird, fun h => absurd h hnew⟩
  cases reaction with
  | timeout => exact iff_of_true (fun _ => ⟨rfl, le_rfl, Nat.zero_le _⟩) trivial
  | final recv ack fin =>
    refine iff_of_true (fun h => nomatch h) (hother recv ?_ ?_)
    · exact SenderStateMachine.not_thirdDuplicate_of_fin fin
    · exact SenderStateMachine.not_newAck_of_fin fin
  | ignored recv ack =>
    refine iff_of_true (fun _ => hbefore) (hother recv ?_ ?_)
    · exact SenderStateMachine.not_thirdDuplicate_of_no_ack ack
    · exact SenderStateMachine.not_newAck_of_no_ack ack
  | duplicate recv ack notFin old notThird =>
    apply iff_of_true fun _ => hbefore
    exact hother recv notThird (SenderStateMachine.not_newAck_of_old old)
  | resent recv third sent measured =>
    have hnew : ¬ t.machine.NewAck recv := SenderStateMachine.not_newAck_of_old third.old
    have hnotError : ¬ SenderStateMachine.reported f (t.machine.missingMemory f) < 0 := by
      rw [SenderStateMachine.reported_of_sent sent]
      omega
    have hinsert : atLeast t.machine.ackedPosition.toNat
        (t.machine.ackedPosition.toNat :: t.numbers) =
          insert t.machine.ackedPosition.toNat t.outstanding := atLeast_cons_of_le le_rfl
    constructor
    · intro h
      obtain ⟨hcount, -, hbound⟩ := h rfl
      refine ⟨fun _ _ => ⟨?_, hinsert ▸ hbound⟩, fun h => absurd h hnew⟩
      exact hinsert ▸ hcount
    · rintro ⟨hkeeps, _⟩ _
      obtain ⟨hcount, hbound⟩ := hkeeps third hnotError
      rw [← hinsert] at hcount hbound
      refine ⟨hcount, ?_, hbound⟩
      change 0 ≤ t.machine.halved + 1
      omega
  | refused recv third error notAcked =>
    have hnew : ¬ t.machine.NewAck recv := SenderStateMachine.not_newAck_of_old third.old
    exact iff_of_true (fun h => nomatch h)
      ⟨fun _ hnot => absurd error hnot, fun h => absurd h hnew⟩
  | @advance recv new cwnd notAcked caAckCount state growth =>
    have hthird : ¬ t.machine.ThirdDuplicate recv := new.not_thirdDuplicate
    obtain ⟨hcounted, hnonneg, hbounded⟩ := hbefore
    have hsplit : (atLeast recv.ackNum.toNat t.numbers).card + (t.covered recv).card =
        t.outstanding.card :=
      card_atLeast_add_card_between (UInt32.lt_iff_toNat_lt.mp new.new).le
    have htaken := notAcked_of_growth growth hnonneg (by omega)
    constructor
    · intro h
      obtain ⟨hcount, -, -⟩ := h rfl
      change notAcked = ((atLeast recv.ackNum.toNat t.numbers).card : ℤ) at hcount
      refine ⟨fun h => absurd h hthird, fun _ => ?_⟩
      rw [htaken] at hcount
      omega
    · rintro ⟨_, hkeeps⟩ _
      have hcovered := hkeeps new
      change notAcked = ((atLeast recv.ackNum.toNat t.numbers).card : ℤ) ∧ 0 ≤ notAcked ∧
        (atLeast recv.ackNum.toNat t.numbers).card ≤ 25
      rw [htaken]
      omega

theorem accounted_step (haccounted : t.Accounted) (limit : t.machine.maxNotAcked = 25)
    (hstep : t.step turn = some next) : next.Accounted ↔ t.KeepsCount turn := by
  obtain ⟨running, hmove⟩ := step_cases hstep
  cases hmove with
  | send f admitted sending => exact accounted_send haccounted running limit admitted sending
  | receive recv f waiting reaction => exact accounted_receive haccounted running reaction

/-- **Window accounting.** In a run of `transmit` the count is right at every loop
head, and no more than 25 segments are out, exactly when every turn keeps it. -/
theorem accounted_iff_keepsCount (caAckCount : ℤ) (opened : Bool)
    (fileName : Option (List UInt8)) (turns : List Turn) :
    AllStates step Accounted (start caAckCount opened fileName) turns ↔
      AllSteps step KeepsCount (start caAckCount opened fileName) turns := by
  have hlimit : (start caAckCount opened fileName).machine.maxNotAcked = 25 := by
    cases opened <;> rfl
  exact allStates_iff_allSteps (accounted_start caAckCount opened fileName) hlimit
    (fun _ _ _ => maxNotAcked_step)
    (fun _ _ _ hlimit _ haccounted => accounted_step haccounted hlimit)
    (AllSteps.of_forall (C := fun _ _ => True) fun _ _ => trivial)

/-- Two segments are out when one acknowledgement covers both. -/
def cumulative : List Turn :=
  [.send .usual, .receive (some (.acknowledgement 101)) .usual, .send .usual, .send .usual,
    .receive (some (.acknowledgement 301)) .usual]

/-- Nothing is out any more, and the count is one. -/
theorem cumulative_miscounted :
    ¬ AllStates step Accounted (start 0 true (some (List.replicate 600 65))) cumulative := by
  have hend : (run step (start 0 true (some (List.replicate 600 65))) cumulative).map
      (fun t => (t.returned, t.machine.notAcked, t.outstanding.card)) = some (none, 1, 0) := by
    decide +kernel
  refine not_allStates_of_run hend fun t hlast haccounted => ?_
  have hreturned : t.returned = none := congrArg (·.1) hlast
  have hcount : t.machine.notAcked = 1 := congrArg (·.2.1) hlast
  have hcard : t.outstanding.card = 0 := congrArg (·.2.2) hlast
  have hequal : t.machine.notAcked = t.outstanding.card := (haccounted hreturned).1
  omega

end Transmission

end Comnet.MP2
