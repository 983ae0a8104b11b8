/-
# Waiting for an acknowledgement

`transmit` waits when the inner loop admits no segment. An acknowledgement can come
only while a segment is out. Where none is, it waits for the timer: because the
file could not be opened, because the file is exhausted and all of it acknowledged
without the packet that closes the transfer, because counters that are left over
refuse to send, or because what it sent last is numbered as acknowledged already.
-/

import Comnet.MP2.Window

set_option autoImplicit false

namespace Comnet.MP2

open Foundations

namespace Transmission

/-- Where `transmit` waits, a segment is out. -/
def Awaited (t : Transmission) : Prop :=
  t.returned = none → t.machine.canSend = false → t.outstanding.Nonempty

/-- The inner loop admits a segment after a new acknowledgement. -/
def AdmitsAfter (t : Transmission) (recv : Packet) : Prop :=
  let m := t.machine
  m.message.good = true ∧
  match m.state with
  | .slowStart =>
    let left := narrow (m.notAcked - 1)
    left < narrow (m.cwnd + 1) ∧ left < m.maxNotAcked
  | .congestionAvoidance =>
    let left := narrow (m.notAcked - 1)
    left < (if m.cwnd = narrow (m.caAckCount + 1) then narrow (m.cwnd + 1) else m.cwnd) ∧
      left < m.maxNotAcked
  | .fastRecovery =>
    let left := narrow (m.notAcked - ((recv.ackNum - m.ackedPosition) / 100).toNat)
    left < m.ssthresh.tdiv mmsBytes ∧ left < m.maxNotAcked

/-- The turns after which `transmit` does not wait for nothing. A round of the inner
loop that sends what is acknowledged already, with nothing else out, is not the last
one, and a new acknowledgement of everything that is out lets the inner loop send. -/
def KeepsAwaited (t : Transmission) : Turn → Prop
  | .send f => t.GivesUp f ∨ t.outstanding.Nonempty ∨
      t.machine.ackedPosition.toNat ≤ (t.machine.filePosition + 1).toNat ∨
      ((t.machine.message.chunk mmsBytes).length = mmsBytes ∧
        narrow (t.machine.notAcked + 1) < t.machine.cwnd ∧
        narrow (t.machine.notAcked + 1) < t.machine.maxNotAcked)
  | .receive (some recv) _ => t.machine.NewAck recv →
      (∃ number ∈ t.outstanding, recv.ackNum.toNat ≤ number) ∨ t.AdmitsAfter recv
  | .receive none _ => True

/-- The file has been opened and the limit is the one set at construction. -/
def Opened (t : Transmission) : Prop :=
  t.returned = none → t.machine.fileName.isSome ∧ t.machine.maxNotAcked = 25

variable {t next : Transmission} {turn : Turn}

theorem opened_step (h : t.Opened) (hstep : t.step turn = some next) : next.Opened := by
  obtain ⟨running, hmove⟩ := step_cases hstep
  intro _
  cases hmove with
  | send f admitted sending => cases sending <;> exact h running
  | receive recv f waiting reaction => cases reaction <;> exact h running

/-- After a timeout the inner loop sends again, if the file can be opened. -/
theorem canSend_processTimeout {m : SenderStateMachine} (hfile : m.fileName.isSome)
    (hlimit : m.maxNotAcked = 25) : m.processTimeout.canSend = true := by
  obtain ⟨file, hfile⟩ := Option.isSome_iff_exists.mp hfile
  have hgood : m.processTimeout.message.good = true := by
    unfold SenderStateMachine.processTimeout
    dsimp only
    split_ifs with hfailed
    · rw [InputStream.good_seekg_natCast, hfile]
      rfl
    · rw [InputStream.good_seekg_natCast]
      simpa using hfailed
  unfold SenderStateMachine.canSend
  rw [hgood]
  change (decide ((0 : ℤ) < 1) && decide ((0 : ℤ) < m.maxNotAcked)) = true
  rw [hlimit]
  decide

/-- What a new acknowledgement leaves of the guard of the inner loop. -/
theorem admitsAfter_iff {recv : Packet} {cwnd notAcked caAckCount : ℤ} {state : State}
    (growth : t.machine.Growth recv cwnd notAcked caAckCount state) :
    t.AdmitsAfter recv ↔ (t.machine.message.good = true ∧ notAcked < cwnd ∧
      notAcked < t.machine.maxNotAcked) := by
  unfold AdmitsAfter
  cases growth with
  | slowStart hstate below => simp only [hstate]
  | leave hstate reached => simp only [hstate]
  | avoid hstate counting => simp only [hstate, counting, if_false]
  | raise hstate full =>
    simp only [hstate]
    rw [if_pos full]
  | recover hstate => simp only [hstate]

/-- The same with the guard of the inner loop spelled out. -/
theorem awaited_iff : t.Awaited ↔ (t.returned = none → t.outstanding.Nonempty ∨
    (t.machine.message.good = true ∧ t.machine.notAcked < t.machine.cwnd ∧
      t.machine.notAcked < t.machine.maxNotAcked)) := by
  have hguard : t.machine.canSend = true ↔ (t.machine.message.good = true ∧
      t.machine.notAcked < t.machine.cwnd ∧ t.machine.notAcked < t.machine.maxNotAcked) := by
    rw [SenderStateMachine.canSend, Bool.and_eq_true, Bool.and_eq_true, decide_eq_true_eq,
      decide_eq_true_eq, and_assoc]
  rw [← hguard, Awaited]
  cases t.machine.canSend <;> simp

/-- A round of the inner loop ends in a wait for nothing exactly when what it sent is acknowledged
already, nothing else is out and it was the last one. -/
theorem awaited_send {f : Frame} {machine : SenderStateMachine} {returned : Option Bool}
    (sending : t.machine.Sending f (machine, t.machine.nextPacket f, returned)) :
    Awaited ⟨machine, returned,
        ⟨t.machine.nextPacket f, some t.machine.message.offset⟩ :: t.handed,
        (t.machine.filePosition + 1) :: t.sinceTimeout⟩ ↔ t.KeepsAwaited (.send f) := by
  have hout : (atLeast t.machine.ackedPosition.toNat
      ((t.machine.filePosition + 1).toNat :: t.numbers)).Nonempty ↔
        t.machine.ackedPosition.toNat ≤ (t.machine.filePosition + 1).toNat ∨
          t.outstanding.Nonempty := nonempty_atLeast_cons
  rw [awaited_iff]
  cases sending with
  | full whole sent measured =>
    have hnot : ¬ t.GivesUp f := not_givesUp_of_sent sent measured
    have hgood : t.machine.afterChunk.good = true := by
      simp [SenderStateMachine.afterChunk, whole]
    change (_ → (atLeast _ ((t.machine.filePosition + 1).toNat :: t.numbers)).Nonempty ∨
      (t.machine.afterChunk.good = true ∧ _)) ↔ _
    rw [hout]
    simp only [KeepsAwaited, hnot, hgood, whole, true_implies, true_and, false_or, or_assoc]
    rw [or_left_comm]
  | refused whole error => exact iff_of_true (fun h => by simp at h) (Or.inl ⟨whole, error⟩)
  | short rest =>
    have hnot : ¬ t.GivesUp f := not_givesUp_of_short rest
    have hfailed : t.machine.afterChunk.good = false := by
      simp [SenderStateMachine.afterChunk, rest]
    change (_ → (atLeast _ ((t.machine.filePosition + 1).toNat :: t.numbers)).Nonempty ∨
      (t.machine.afterChunk.good = true ∧ _)) ↔ _
    rw [hout]
    simp only [KeepsAwaited, hnot, hfailed, rest.ne, Bool.false_eq_true, true_implies, false_and,
      false_or, or_false]
    exact or_comm

/-- Receiving ends in a wait for nothing exactly when a new acknowledgement covers everything that
is out and the inner loop does not go on. -/
theorem awaited_receive {recv : Option Packet} {f : Frame} (hawaited : t.Awaited)
    (opened : t.Opened) (running : t.returned = none) (waiting : t.machine.canSend = false)
    {outcome : Outcome} (reaction : t.machine.Reaction f recv outcome) :
    Awaited ⟨outcome.machine, returnOf outcome.status,
        (outcome.handed.map (Handed.of · t.machine.missingSegment)).toList ++ t.handed,
        (outcome.handed.map (·.seqNum)).toList ++ t.kept (.receive recv f)⟩ ↔
      t.KeepsAwaited (.receive recv f) := by
  have hout : t.outstanding.Nonempty := hawaited running waiting
  obtain ⟨hfile, hlimit⟩ := opened running
  have hother : ∀ recv, ¬ t.machine.NewAck recv → t.KeepsAwaited (.receive (some recv) f) :=
    fun _ hnot hnew => absurd hnew hnot
  cases reaction with
  | timeout =>
    -- a timeout empties the window, and the inner loop goes on before anything is awaited
    refine iff_of_true (fun _ hwaits => ?_) trivial
    exact absurd (canSend_processTimeout hfile hlimit) (by simp [hwaits])
  | final recv ack fin =>
    apply iff_of_true fun h => nomatch h
    exact hother recv (SenderStateMachine.not_newAck_of_fin fin)
  | ignored recv ack =>
    apply iff_of_true fun _ _ => hout
    exact hother recv (SenderStateMachine.not_newAck_of_no_ack ack)
  | duplicate recv ack notFin old notThird =>
    apply iff_of_true fun _ _ => hout
    exact hother recv (SenderStateMachine.not_newAck_of_old old)
  | resent recv third sent measured =>
    apply iff_of_true fun _ _ => nonempty_atLeast_cons.mpr (Or.inl le_rfl)
    exact hother recv (SenderStateMachine.not_newAck_of_old third.old)
  | refused recv third error notAcked =>
    apply iff_of_true fun h => nomatch h
    exact hother recv (SenderStateMachine.not_newAck_of_old third.old)
  | @advance recv new cwnd notAcked caAckCount state growth =>
    have hstill : (atLeast recv.ackNum.toNat t.numbers).Nonempty ↔
        ∃ number ∈ t.outstanding, recv.ackNum.toNat ≤ number := by
      have hnew := (UInt32.lt_iff_toNat_lt.mp new.new).le
      constructor
      · rintro ⟨number, hnumber⟩
        obtain ⟨hmem, hle⟩ := mem_atLeast.mp hnumber
        exact ⟨number, mem_atLeast.mpr ⟨hmem, hnew.trans hle⟩, hle⟩
      · rintro ⟨number, hnumber, hle⟩
        exact ⟨number, mem_atLeast.mpr ⟨(mem_atLeast.mp hnumber).1, hle⟩⟩
    rw [awaited_iff]
    change (_ → (atLeast recv.ackNum.toNat t.numbers).Nonempty ∨
      ((t.machine.forwarded recv).good = true ∧ notAcked < cwnd ∧
        notAcked < t.machine.maxNotAcked)) ↔ _
    rw [hstill, SenderStateMachine.good_forwarded, ← admitsAfter_iff growth]
    exact ⟨fun h _ => h rfl, fun h _ => h new⟩

variable (caAckCount : ℤ) (opened : Bool) (fileName : Option (List UInt8)) (turns : List Turn)

theorem awaited_step (hawaited : t.Awaited) (hopened : t.Opened)
    (hstep : t.step turn = some next) : next.Awaited ↔ t.KeepsAwaited turn := by
  obtain ⟨running, hmove⟩ := step_cases hstep
  cases hmove with
  | send f admitted sending => exact awaited_send sending
  | receive recv f waiting reaction =>
    exact awaited_receive hawaited hopened running waiting reaction

/-- `transmit` begins by sending when the file could be opened, else by waiting. -/
theorem awaited_start :
    (start caAckCount opened fileName).Awaited ↔ (opened = true → fileName.isSome) := by
  rw [awaited_iff]
  cases opened with
  | false => simp
  | true =>
    cases fileName with
    | none => simp [outstanding, numbers, SenderStateMachine.openMessage]
    | some file =>
      simp [SenderStateMachine.openMessage, SenderStateMachine.openSocket,
        SenderStateMachine.construct, InputStream.good]

theorem opened_start (hopens : opened = true → fileName.isSome) :
    (start caAckCount opened fileName).Opened := by
  cases opened with
  | false => exact fun h => nomatch h
  | true => exact fun _ => ⟨hopens rfl, rfl⟩

/-- In a run of `transmit` a segment is out wherever it waits exactly when the file could be opened
and every turn keeps it so. -/
theorem awaited_iff_keepsAwaited :
    AllStates step Awaited (start caAckCount opened fileName) turns ↔
      (opened = true → fileName.isSome) ∧
        AllSteps step KeepsAwaited (start caAckCount opened fileName) turns := by
  have hruns : ∀ hopens : opened = true → fileName.isSome,
      (AllStates step Awaited (start caAckCount opened fileName) turns ↔
        AllSteps step KeepsAwaited (start caAckCount opened fileName) turns) := by
    intro hopens
    exact allStates_iff_allSteps ((awaited_start caAckCount opened fileName).mpr hopens)
      (opened_start caAckCount opened fileName hopens) (fun _ _ _ => opened_step)
      (fun _ _ _ hopened _ hawaited => awaited_step hawaited hopened)
      (AllSteps.of_forall (C := fun _ _ => True) fun _ _ => trivial)
  constructor
  · intro h
    have hopens := (awaited_start caAckCount opened fileName).mp h.head
    exact ⟨hopens, (hruns hopens).mp h⟩
  · rintro ⟨hopens, h⟩
    exact (hruns hopens).mpr h

/-- A file that cannot be opened is waited for from the beginning. -/
theorem awaited_unopened : ¬ AllStates step Awaited (start 0 true none) [] := by
  intro h
  exact absurd (h.head rfl rfl) (by decide)

end Transmission

end Comnet.MP2
