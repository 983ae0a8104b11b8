/-
# Runs of `transmit`

A run is a list of turns: a round of the inner loop while it admits a segment,
else one call of a receiving function, with or without a packet. Between two turns
`transmit` is at the head of one of its loops. Beside the machine a state keeps
what `transmit` has returned and what has passed through `sendTo`, which the code
itself does not remember.
-/

import Comnet.Foundations.Transition
import Comnet.MP2.Reaction

set_option autoImplicit false

namespace Comnet.MP2

open Foundations

/-- A packet handed to `sendTo`, with the offset in the file that its bytes were
read from, if the stream it came from could be read. -/
structure Handed where
  packet : Packet
  readFrom : Option ℕ
  deriving DecidableEq

/-- A packet with bytes that were read from a stream. -/
def Handed.of (packet : Packet) (stream : InputStream UInt8) : Handed :=
  ⟨packet, if stream.good then some stream.offset else none⟩

/-- A state of `transmit`. -/
structure Transmission where
  machine : SenderStateMachine
  returned : Option Bool
  /-- Everything handed to `sendTo`, the latest first. -/
  handed : List Handed
  /-- The sequence numbers handed to `sendTo` since the last timeout. -/
  sinceTimeout : List UInt32
  deriving DecidableEq

/-- A turn of `transmit`, with what it finds around it; receiving no packet is a
timeout. -/
inductive Turn where
  | send (f : Frame)
  | receive (recv : Option Packet) (f : Frame)

/-- The environment of a turn. -/
def Turn.frame : Turn → Frame
  | .send f => f
  | .receive _ f => f

namespace Transmission

/-- The beginning of `transmit` on a new sender whose socket may have been opened. -/
def start (caAckCount : ℤ) (opened : Bool) (fileName : Option (List UInt8)) : Transmission :=
  let s := SenderStateMachine.construct caAckCount
  let s := if opened then s.openSocket else s
  -- without a socket `transmit` returns at once
  if !s.socket then ⟨s, some false, [], []⟩
  else ⟨s.openMessage fileName, none, [], []⟩

/-- What `transmit` returns on a status. -/
def returnOf (status : ℤ) : Option Bool :=
  if status = 1 then some true else if status = -1 then some false else none

/-- Whether `transmit` takes a turn: it receives only when it cannot send. -/
def enabled (t : Transmission) : Turn → Bool
  | .send _ => t.machine.canSend
  | .receive _ _ => !t.machine.canSend

/-- What a turn makes of the machine, what it hands to `sendTo`, and what
`transmit` returns in it. -/
def output (t : Transmission) : Turn → SenderStateMachine × Option Handed × Option Bool
  | .send f =>
    let (machine, packet, returned) := t.machine.sendRound f
    (machine, some (.of packet t.machine.message), returned)
  | .receive recv f =>
    let outcome := t.machine.receive recv f
    (outcome.machine, outcome.handed.map (.of · t.machine.missingSegment),
      returnOf outcome.status)

/-- The sequence numbers that a turn does not forget. -/
def kept (t : Transmission) : Turn → List UInt32
  | .receive none _ => []
  | _ => t.sinceTimeout

/-- A turn of `transmit`; there is none after it has returned. -/
def step (t : Transmission) (turn : Turn) : Option Transmission :=
  if t.returned = none ∧ t.enabled turn then
    let (machine, handed, returned) := t.output turn
    some {
      machine := machine
      returned := returned
      handed := handed.toList ++ t.handed
      sinceTimeout := (handed.map (·.packet.seqNum)).toList ++ t.kept turn }
  else none

/-- The cases of a turn. -/
inductive Move (t : Transmission) : Turn → Transmission → Prop
  | send (f : Frame) (admitted : t.machine.canSend = true)
      {machine : SenderStateMachine} {returned : Option Bool}
      (sending : t.machine.Sending f (machine, t.machine.nextPacket f, returned)) :
      Move t (.send f) ⟨machine, returned,
        ⟨t.machine.nextPacket f, some t.machine.message.offset⟩ :: t.handed,
        (t.machine.filePosition + 1) :: t.sinceTimeout⟩
  | receive (recv : Option Packet) (f : Frame) (waiting : t.machine.canSend = false)
      {outcome : Outcome} (reaction : t.machine.Reaction f recv outcome) :
      Move t (.receive recv f) ⟨outcome.machine, returnOf outcome.status,
        (outcome.handed.map (Handed.of · t.machine.missingSegment)).toList ++ t.handed,
        (outcome.handed.map (·.seqNum)).toList ++ t.kept (.receive recv f)⟩

variable {t next : Transmission} {turn : Turn}

@[simp] theorem start_closed (caAckCount : ℤ) (fileName : Option (List UInt8)) :
    start caAckCount false fileName =
      ⟨SenderStateMachine.construct caAckCount, some false, [], []⟩ := rfl

@[simp] theorem start_opened (caAckCount : ℤ) (fileName : Option (List UInt8)) :
    start caAckCount true fileName =
      ⟨(SenderStateMachine.construct caAckCount).openSocket.openMessage fileName, none, [], []⟩ :=
  rfl

@[simp] theorem returnOf_zero : returnOf 0 = none := rfl

@[simp] theorem returnOf_one : returnOf 1 = some true := rfl

@[simp] theorem returnOf_neg_one : returnOf (-1) = some false := rfl

theorem readable_of_canSend (h : t.machine.canSend = true) : t.machine.message.failed = false := by
  simp only [SenderStateMachine.canSend, Bool.and_eq_true, InputStream.good_eq_true] at h
  exact h.1.1

/-- Every turn is one of the cases. -/
theorem step_cases (h : t.step turn = some next) : t.returned = none ∧ t.Move turn next := by
  unfold step at h
  split_ifs at h with henabled
  obtain ⟨hreturned, henabled⟩ := henabled
  obtain rfl := Option.some.inj h
  refine ⟨hreturned, ?_⟩
  cases turn with
  | send f =>
    have hgood := readable_of_canSend henabled
    have hsending := SenderStateMachine.sendRound_cases (f := f) hgood
    have hpacket := SenderStateMachine.sendRound_packet (f := f) hgood
    rw [show t.machine.sendRound f = ((t.machine.sendRound f).1, t.machine.nextPacket f,
      (t.machine.sendRound f).2.2) from hpacket ▸ rfl] at hsending
    have := Move.send f henabled hsending
    simpa [output, kept, Handed.of, InputStream.good, hgood, hpacket,
      SenderStateMachine.nextPacket, SenderStateMachine.dataPacket] using this
  | receive recv f =>
    have hwaiting : t.machine.canSend = false := by simpa [enabled] using henabled
    have := Move.receive recv f hwaiting (SenderStateMachine.receive_cases recv)
    simpa [output, Option.map_map, Function.comp_def, Handed.of] using this

/-- The acknowledged position moves only to that of a new acknowledgement. -/
theorem ackedPosition_step (h : t.step turn = some next) :
    next.machine.ackedPosition = t.machine.ackedPosition ∨
      ∃ recv f, turn = .receive (some recv) f ∧ t.machine.NewAck recv ∧
        next.machine.ackedPosition = recv.ackNum := by
  obtain ⟨-, hmove⟩ := step_cases h
  cases hmove with
  | send f admitted sending => cases sending <;> exact Or.inl rfl
  | receive recv f waiting reaction =>
    cases reaction with
    | advance recv new growth => exact Or.inr ⟨recv, f, rfl, new, rfl⟩
    | _ => exact Or.inl rfl

theorem ackedPosition_mono (h : t.step turn = some next) :
    t.machine.ackedPosition.toNat ≤ next.machine.ackedPosition.toNat := by
  rcases ackedPosition_step h with heq | ⟨recv, f, -, new, heq⟩
  · rw [heq]
  · rw [heq]
    exact (UInt32.lt_iff_toNat_lt.mp new.new).le

end Transmission

end Comnet.MP2
