/-
# Positions along a run

The positions of both parties over a run of the pair. As long as the file position is kept,
both parties and what is in flight stay within the file, and for a file that a signed
integer counts every position is exact. A longer one is never received whole without a
position that is not.
-/

import Comnet.MP2.Positions

set_option autoImplicit false

namespace Comnet.MP2

open Foundations

namespace Transmission

variable {t next : Transmission} {turn : Turn} {file : List UInt8}

/-- What the sender puts in flight ends within the file. -/
theorem within_wire (h : t.machine.InFile file) (bound : file.length < 2 ^ 31 - 1)
    (hpos : 1 ≤ t.machine.ackedPosition.toNat)
    (hacked : t.machine.ackedPosition.toNat ≤ file.length + 1)
    (hstep : t.step turn = some next) {packet : Packet} (hpacket : packet ∈ t.wire turn) :
    packet.Within file.length := by
  rcases mem_wire hstep hpacket with ⟨f, rfl, admitted, rfl⟩ | ⟨recv, f, rfl, rfl⟩
  · have hchunk := (h.chunk_le (readable_of_canSend admitted)).2
    have hnumber : (t.machine.filePosition + 1).toNat = t.machine.filePosition.toNat + 1 :=
      (@toNat_add_ofNat t.machine.filePosition 1 (by decide)).mpr (by omega)
    exact Packet.within_dataPacket (by omega) (by omega) SenderStateMachine.length_chunk_le
  · have hmissing := congrArg List.length h.reads.missingChunk_eq
    have hsub : (t.machine.ackedPosition - 1).toNat = t.machine.ackedPosition.toNat - 1 :=
      toNat_sub_one hpos
    rw [List.length_take, List.length_drop] at hmissing
    exact Packet.within_dataPacket hpos (by omega) SenderStateMachine.length_missingChunk_le

end Transmission

namespace Transfer

/-- The positions that a step computes are exact; a packet that the loss pattern drops is not
looked at. -/
def PositionsExact (t : Transfer) : Event → Prop
  | .send f => t.sender.machine.PositionsExact (.send f)
  | .timeout f => t.sender.machine.PositionsExact (.receive none f)
  | .ackArrives index f =>
    match deliver index t.acks with
    | some (ack, _) => t.sender.machine.PositionsExact (.receive (some ack) f)
    | none => True
  | .packetArrives index behind stray throws =>
    match deliver index t.packets with
    | some (packet, _) =>
      (t.receiver.receivePacket ⟨packet, 112, behind, stray, throws⟩).2 ≠ -1 →
        (t.receiver.receivePacket ⟨packet, 112, behind, stray, throws⟩).1.PositionsExact packet
          behind
    | none => True
  | .packetFault _ => True
  | .ackFault _ => True

/-- The string at a full chunk that is sent ends no more than two bytes behind it. -/
def EndsNear (t : Transfer) : Event → Prop
  | .send f => t.sender.machine.EndsNear f
  | _ => True

/-- The end of the file is sent from a place where the file position is kept. -/
def KeepsPosition (t : Transfer) : Event → Prop
  | .send f => t.sender.machine.KeepsPosition f
  | _ => True

instance (t : Transfer) : ∀ event, Decidable (t.EndsNear event)
  | .send f => inferInstanceAs (Decidable (t.sender.machine.EndsNear f))
  | .timeout _ => instDecidableTrue
  | .ackArrives _ _ => instDecidableTrue
  | .packetArrives _ _ _ _ => instDecidableTrue
  | .packetFault _ => instDecidableTrue
  | .ackFault _ => instDecidableTrue

instance (t : Transfer) : ∀ event, Decidable (t.KeepsPosition event)
  | .send f => inferInstanceAs (Decidable (t.sender.machine.KeepsPosition f))
  | .timeout _ => instDecidableTrue
  | .ackArrives _ _ => instDecidableTrue
  | .packetArrives _ _ _ _ => instDecidableTrue
  | .packetFault _ => instDecidableTrue
  | .ackFault _ => instDecidableTrue

/-- Both parties and what is in flight are within the file. -/
structure Placed (file : List UInt8) (t : Transfer) : Prop where
  behind : t.Behind
  receiver : t.receiver.Bounded file.length
  sender : t.sender.machine.InFile file
  packets : ∀ packet ∈ t.packets, packet.Within file.length

variable {t next : Transfer} {event : Event} {file : List UInt8}

theorem Placed.acked_le (h : t.Placed file) :
    t.sender.machine.ackedPosition.toNat ≤ file.length + 1 :=
  h.behind.acked.trans (Nat.succ_le_succ h.receiver.stored)

theorem Placed.packets_turn (h : t.Placed file) (bound : file.length < 2 ^ 31 - 1) {turn : Turn}
    {sender : Transmission} (hturn : t.sender.step turn = some sender) :
    ∀ packet ∈ t.packets ++ t.sender.wire turn, packet.Within file.length := by
  intro packet hpacket
  rcases List.mem_append.mp hpacket with hold | hnew
  · exact h.packets packet hold
  · exact Transmission.within_wire h.sender bound h.behind.acked_pos h.acked_le hturn hnew

/-- A call of a receiving function leaves the sender within the file. -/
theorem Placed.sender_receive (h : t.Placed file) (bound : file.length < 2 ^ 31 - 1)
    {recv : Option Packet} {f : Frame} {sender : Transmission}
    (hturn : t.sender.step (.receive recv f) = some sender)
    (hrecv : ∀ packet, recv = some packet → packet ∈ t.acks) : sender.machine.InFile file := by
  have hreads := Transmission.readsFrom_step h.sender.reads hturn
  obtain ⟨-, hmove⟩ := Transmission.step_cases hturn
  cases hmove with
  | receive recv f waiting reaction =>
    refine h.sender.receive bound h.behind.acked_pos h.acked_le (fun packet heq => ?_) reaction
      hreads
    exact (h.behind.inFlight packet (hrecv packet heq)).trans (Nat.succ_le_succ h.receiver.stored)

/-- Only sending the end of the file has a position that may not fit. -/
theorem Placed.exact_step_iff (h : t.Placed file) (bound : file.length < 2 ^ 31 - 1)
    (ends : t.EndsNear event) (hstep : t.step event = some next) :
    t.PositionsExact event ↔ t.KeepsPosition event := by
  have hreceive : ∀ recv f, t.sender.machine.PositionsExact (.receive recv f) := fun recv f =>
    h.sender.positionsExact_receive bound h.behind.acked_pos h.acked_le recv
  have hcases := step_cases hstep
  cases hcases with
  | send f turn =>
    obtain ⟨-, hmove⟩ := Transmission.step_cases turn
    cases hmove with
    | send f admitted sending =>
      exact h.sender.positionsExact_send_iff bound (Transmission.readable_of_canSend admitted) ends
  | timeout f turn => exact iff_of_true (hreceive none f) trivial
  | ackArrives index f delivered turn =>
    rw [PositionsExact, delivered]
    exact iff_of_true (hreceive _ f) trivial
  | packetArrives index behind stray throws running delivered =>
    rw [PositionsExact, delivered]
    refine iff_of_true (fun _ => ?_) trivial
    exact (h.receiver.receivePacket _).positionsExact bound
      (h.packets _ (mem_of_deliver delivered)) behind
  | packetFault fault => exact Iff.rfl
  | ackFault fault => exact Iff.rfl

/-- A step that keeps the file position keeps everything within the file. -/
theorem Placed.step (h : t.Placed file) (bound : file.length < 2 ^ 31 - 1)
    (ends : t.EndsNear event) (keeps : t.KeepsPosition event)
    (hstep : t.step event = some next) : next.Placed file := by
  have hbehind : next.receiver.Bounded file.length → next.Behind := fun hnext =>
    behind_step h.behind (hnext.stored.trans_lt bound) hstep
  have hcases := step_cases hstep
  cases hcases with
  | send f turn =>
    refine ⟨hbehind h.receiver, h.receiver, ?_, h.packets_turn bound turn⟩
    have hreads := Transmission.readsFrom_step h.sender.reads turn
    obtain ⟨-, hmove⟩ := Transmission.step_cases turn
    cases hmove with
    | send f admitted sending =>
      exact h.sender.send bound (Transmission.readable_of_canSend admitted) ends keeps sending
        hreads
  | timeout f turn =>
    exact ⟨hbehind h.receiver, h.receiver,
      h.sender_receive bound turn (fun _ heq => nomatch heq), h.packets_turn bound turn⟩
  | ackArrives index f delivered turn =>
    refine ⟨hbehind h.receiver, h.receiver, h.sender_receive bound turn fun packet heq => ?_,
      h.packets_turn bound turn⟩
    exact Option.some.inj heq ▸ mem_of_deliver delivered
  | packetArrives index behind stray throws running delivered =>
    have hpass := h.receiver.receiveStep (a := ⟨_, 112, behind, stray, throws⟩) bound
      (h.packets _ (mem_of_deliver delivered))
    exact ⟨hbehind hpass, hpass, h.sender,
      fun packet hpacket => h.packets packet (mem_rest_of_deliver delivered hpacket)⟩
  | packetFault fault =>
    exact ⟨hbehind h.receiver, h.receiver, h.sender,
      fun packet hpacket => h.packets packet (mem_of_mem_apply hpacket)⟩
  | ackFault fault => exact ⟨hbehind h.receiver, h.receiver, h.sender, h.packets⟩

theorem placed_start (caAckCount : ℤ) (file : List UInt8) (pattern : LossPattern) :
    (start caAckCount true (some file) pattern).Placed file where
  behind := behind_start caAckCount true (some file) pattern
  receiver := ReceiverStateMachine.bounded_construct file.length pattern
  sender := ⟨⟨rfl, rfl⟩, Nat.zero_le _, fun _ => ⟨le_rfl, Nat.zero_le _⟩⟩
  packets := fun _ h => absurd h List.not_mem_nil

/-- A step with exact positions leaves the receiver with fewer bytes than a signed integer
counts. -/
theorem counted_step (h : t.receiver.ackedPosition = t.receiver.recvData.length ∧
      t.receiver.recvData.length < 2 ^ 31 - 1)
    (hexact : t.PositionsExact event) (hstep : t.step event = some next) :
    next.receiver.ackedPosition = next.receiver.recvData.length ∧
      next.receiver.recvData.length < 2 ^ 31 - 1 := by
  have hcases := step_cases hstep
  cases hcases with
  | packetArrives index behind stray throws running delivered =>
    rename_i packet rest
    rw [PositionsExact, delivered] at hexact
    let a : Arrival := ⟨packet, 112, behind, stray, throws⟩
    change (t.receiver.receiveStep a).1.ackedPosition =
        (t.receiver.receiveStep a).1.recvData.length ∧
      (t.receiver.receiveStep a).1.recvData.length < 2 ^ 31 - 1
    by_cases hdrop : (t.receiver.toLossFilter.count a).2 = -1
    · rw [ReceiverStateMachine.receiveStep_of_drop hdrop]
      exact h
    · rw [ReceiverStateMachine.receiveStep_of_pass hdrop]
      exact (hexact hdrop).counted h.1
  | _ => exact h

variable (caAckCount : ℤ) (pattern : LossPattern) (events : List Event)

/-- In every run of the pair on a file of fewer than `2 ^ 31 - 1` bytes the positions are exact
exactly when the end of the file is only sent from where the file position is kept. On any file,
exact positions go with fewer bytes received than that. -/
theorem positionsExact_iff
    (ends : AllSteps step EndsNear (start caAckCount true (some file) pattern) events) :
    (file.length < 2 ^ 31 - 1 →
      (AllSteps step PositionsExact (start caAckCount true (some file) pattern) events ↔
        AllSteps step KeepsPosition (start caAckCount true (some file) pattern) events)) ∧
    (AllSteps step PositionsExact (start caAckCount true (some file) pattern) events →
      AllStates step (fun t => t.receiver.recvData.length < 2 ^ 31 - 1)
        (start caAckCount true (some file) pattern) events) := by
  refine ⟨fun bound => ?_, fun hall => ?_⟩
  · exact allSteps_iff_allSteps (placed_start caAckCount file pattern)
      (fun _ _ _ h hends hstep => h.exact_step_iff bound hends hstep)
      (fun _ _ _ h hends hkeeps hstep => h.step bound hends hkeeps hstep) ends
  · have hcounted := allStates_of_allSteps
      (P := fun t => t.receiver.ackedPosition = t.receiver.recvData.length ∧
        t.receiver.recvData.length < 2 ^ 31 - 1)
      ⟨rfl, Nat.zero_lt_succ _⟩ (fun _ _ _ h hexact hstep => counted_step h hexact hstep) hall
    exact hcounted.mono fun _ h => h.2

/-- A short file goes over and its acknowledgement is on the way back. -/
theorem positionsExact_iff_delivered :
    AllSteps step PositionsExact (start 0 true (some [97, 98, 99]) .none) delivered ↔
      AllSteps step KeepsPosition (start 0 true (some [97, 98, 99]) .none) delivered :=
  (@positionsExact_iff [97, 98, 99] 0 .none delivered (by decide +kernel)).1 (by decide)

/-- Sending an empty file takes the file position two below zero. -/
theorem empty_wraps :
    ¬ ∀ (file : List UInt8) (caAckCount : ℤ) (pattern : LossPattern) (events : List Event),
      file.length + 1 < 2 ^ 32 →
        AllSteps step PositionsExact (start caAckCount true (some file) pattern) events := by
  intro h
  obtain ⟨hexact, -⟩ := h [] 0 .none [.send .usual] (by decide) _ rfl
  have hwrapped : FitsWord (-2) := hexact.unsigned (-2) (by decide)
  exact absurd hwrapped.lower (by decide)

end Transfer

end Comnet.MP2
