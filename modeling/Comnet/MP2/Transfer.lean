/-
# Both parties and the network between them

The sender takes its turns, the receiver its passes, and what they hand to `sendTo`
is in flight until it is delivered or lost. The network may lose or duplicate
anything in flight and deliver it in any order, and the sender's timer may expire
at any moment at which it waits. A packet whose `sendTo` throws is never in flight.
-/

import Comnet.Foundations.Channel
import Comnet.MP2.Transmit
import Comnet.MP2.Receiver

set_option autoImplicit false

namespace Comnet.MP2

open Foundations

/-- What a turn puts in flight. -/
def Transmission.wire (t : Transmission) (turn : Turn) : List Packet :=
  -- a datagram is sent whole or, when `sendTo` throws, not at all
  if turn.frame.throws then [] else (t.output turn).2.1.toList.map (·.packet)

/-- A turn puts the next chunk in flight or the missing one. -/
theorem Transmission.mem_wire {t next : Transmission} {turn : Turn} {packet : Packet}
    (hstep : t.step turn = some next) (h : packet ∈ t.wire turn) :
    (∃ f, turn = .send f ∧ t.machine.canSend = true ∧ packet = t.machine.nextPacket f) ∨
      ∃ recv f, turn = .receive recv f ∧ packet = t.machine.missingPacket f := by
  unfold wire at h
  split_ifs at h
  · simp at h
  obtain ⟨-, hmove⟩ := step_cases hstep
  cases hmove with
  | send f admitted sending =>
    refine Or.inl ⟨f, rfl, admitted, ?_⟩
    have hpacket := SenderStateMachine.sendRound_packet (f := f) (readable_of_canSend admitted)
    simpa [output, Handed.of, hpacket] using h
  | receive recv f waiting reaction =>
    refine Or.inr ⟨recv, f, rfl, ?_⟩
    simp only [output, Option.toList_map, List.map_map, List.mem_map, Option.mem_toList] at h
    obtain ⟨handed, hhanded, rfl⟩ := h
    exact SenderStateMachine.eq_of_handed hhanded

/-- A state of the pair. -/
structure Transfer where
  sender : Transmission
  receiver : ReceiverStateMachine
  /-- What is in flight to the receiver. -/
  packets : List Packet
  /-- What is in flight to the sender. -/
  acks : List Packet

/-- What can happen, to either party or on the network. -/
inductive Event where
  | send (f : Frame)
  | timeout (f : Frame)
  | ackArrives (index : ℕ) (f : Frame)
  | packetArrives (index : ℕ) (behind : List UInt8) (stray : ℤ) (throws : Bool)
  | packetFault (fault : Fault)
  | ackFault (fault : Fault)

namespace Transfer

/-- The pair before anything is sent. -/
def start (caAckCount : ℤ) (opened : Bool) (fileName : Option (List UInt8))
    (pattern : LossPattern) : Transfer where
  sender := Transmission.start caAckCount opened fileName
  receiver := ReceiverStateMachine.construct pattern
  packets := []
  acks := []

/-- A turn of the sender. -/
def senderTurn (t : Transfer) (turn : Turn) : Option Transfer :=
  (t.sender.step turn).map fun sender =>
    { t with sender := sender, packets := t.packets ++ t.sender.wire turn }

/-- A pass of the receiver over a packet that arrives whole. -/
def receiverPass (t : Transfer) (packet : Packet) (behind : List UInt8) (stray : ℤ)
    (throws : Bool) : Transfer :=
  let (receiver, answer) := t.receiver.receiveStep ⟨packet, 112, behind, stray, throws⟩
  { t with receiver := receiver, acks := t.acks ++ if throws then [] else answer.toList }

/-- A step of the pair. The receiver takes no more packets after it has returned. -/
def step (t : Transfer) : Event → Option Transfer
  | .send f => t.senderTurn (.send f)
  | .timeout f => t.senderTurn (.receive none f)
  | .ackArrives index f =>
    match deliver index t.acks with
    | some (ack, rest) => { t with acks := rest }.senderTurn (.receive (some ack) f)
    | none => none
  | .packetArrives index behind stray throws =>
    if t.receiver.fin then none
    else
      match deliver index t.packets with
      | some (packet, rest) =>
        some ({ t with packets := rest }.receiverPass packet behind stray throws)
      | none => none
  | .packetFault fault => some { t with packets := fault.apply t.packets }
  | .ackFault fault => some { t with acks := fault.apply t.acks }

/-- The cases of a step. -/
inductive Happening (t : Transfer) : Event → Transfer → Prop
  | send (f : Frame) {sender : Transmission} (turn : t.sender.step (.send f) = some sender) :
      Happening t (.send f) { t with
        sender := sender, packets := t.packets ++ t.sender.wire (.send f) }
  | timeout (f : Frame) {sender : Transmission}
      (turn : t.sender.step (.receive none f) = some sender) :
      Happening t (.timeout f) { t with
        sender := sender, packets := t.packets ++ t.sender.wire (.receive none f) }
  | ackArrives (index : ℕ) (f : Frame) {ack : Packet} {rest : List Packet}
      (delivered : deliver index t.acks = some (ack, rest)) {sender : Transmission}
      (turn : t.sender.step (.receive (some ack) f) = some sender) :
      Happening t (.ackArrives index f) { t with
        sender := sender
        packets := t.packets ++ t.sender.wire (.receive (some ack) f)
        acks := rest }
  | packetArrives (index : ℕ) (behind : List UInt8) (stray : ℤ) (throws : Bool)
      (running : t.receiver.fin = false) {packet : Packet} {rest : List Packet}
      (delivered : deliver index t.packets = some (packet, rest)) :
      Happening t (.packetArrives index behind stray throws)
        ({ t with packets := rest }.receiverPass packet behind stray throws)
  | packetFault (fault : Fault) :
      Happening t (.packetFault fault) { t with packets := fault.apply t.packets }
  | ackFault (fault : Fault) :
      Happening t (.ackFault fault) { t with acks := fault.apply t.acks }

variable {t next : Transfer} {event : Event}

/-- Every step is one of the cases. -/
theorem step_cases (h : t.step event = some next) : t.Happening event next := by
  cases event with
  | send f =>
    obtain ⟨sender, turn, rfl⟩ := Option.map_eq_some_iff.mp h
    exact .send f turn
  | timeout f =>
    obtain ⟨sender, turn, rfl⟩ := Option.map_eq_some_iff.mp h
    exact .timeout f turn
  | ackArrives index f =>
    rcases hdeliver : deliver index t.acks with _ | ⟨ack, rest⟩
    · simp [step, hdeliver] at h
    · simp only [step, hdeliver] at h
      obtain ⟨sender, turn, rfl⟩ := Option.map_eq_some_iff.mp h
      exact .ackArrives index f hdeliver turn
  | packetArrives index behind stray throws =>
    simp only [step] at h
    split_ifs at h with hfin
    rcases hdeliver : deliver index t.packets with _ | ⟨packet, rest⟩
    · simp [hdeliver] at h
    · simp only [hdeliver] at h
      obtain rfl := Option.some.inj h
      exact .packetArrives index behind stray throws (by simpa using hfin) hdeliver
  | packetFault fault =>
    obtain rfl := Option.some.inj h
    exact .packetFault fault
  | ackFault fault =>
    obtain rfl := Option.some.inj h
    exact .ackFault fault

end Transfer

end Comnet.MP2
