/-
# The sending side of the transfer

`SenderStateMachine` reads a file in chunks of `mmsBytes` and sends each under the
file position it keeps beside the stream. The window is counted in segments:
`cwnd` may be outstanding, `notAcked` are. Acknowledgements are cumulative; three
duplicates retransmit the missing segment and a timeout goes back to the last
acknowledged position.

The counters are signed variables that a run of any length may raise: a value that leaves
the range of its type wraps.

A call finds things it does not control, gathered in a `Frame`: what an array on
the stack holds before it is written, what lies behind it, and whether `sendTo`
throws. Round-trip estimates, traces and addresses take part in no decision and
are left out.
-/

import Comnet.Foundations.InputStream
import Comnet.Foundations.MachineInt
import Comnet.MP2.Packet

set_option autoImplicit false

namespace Comnet.MP2

open Foundations

/-- The size of a chunk. -/
abbrev mmsBytes : ℕ := 100

/-- The congestion control state. -/
inductive State where
  | slowStart
  | congestionAvoidance
  | fastRecovery
  deriving DecidableEq, Repr

/-- The state of the sender. -/
structure SenderStateMachine where
  /-- The socket has been opened. -/
  socket : Bool
  /-- The window size, in segments. -/
  cwnd : ℤ
  notAcked : ℤ
  maxNotAcked : ℤ
  ssthresh : ℤ
  dupAckCount : ℤ
  ackedPosition : UInt32
  filePosition : UInt32
  caAckCount : ℤ
  state : State
  message : InputStream UInt8
  /-- What the file name leads to: the contents, or nothing that can be opened. -/
  fileName : Option (List UInt8)
  deriving DecidableEq

/-- What a call finds around it. -/
structure Frame where
  /-- The contents of an array that the code leaves uninitialised. -/
  packetData : List UInt8
  /-- The bytes behind that array. -/
  behind : List UInt8
  throws : Bool

/-- Nothing remarkable: two bytes and the end of a string lie behind an array. -/
def Frame.usual : Frame := ⟨[], [1, 1, 0], false⟩

/-- What a receiving function leaves: the machine, the packet it handed to
`sendTo`, and its status. -/
structure Outcome where
  machine : SenderStateMachine
  handed : Option Packet
  status : ℤ

namespace SenderStateMachine

/-- A new sender; the constructor leaves `caAckCount` uninitialised. -/
def construct (caAckCount : ℤ) : SenderStateMachine where
  socket := false
  cwnd := 1
  notAcked := 0
  maxNotAcked := 25
  ssthresh := 1000
  dupAckCount := 0
  ackedPosition := 1
  filePosition := 0
  caAckCount := caAckCount
  state := .slowStart
  message := InputStream.openFile none
  fileName := none

def openSocket (s : SenderStateMachine) : SenderStateMachine := { s with socket := true }

/-- The beginning of `transmit`: open the file. -/
def openMessage (s : SenderStateMachine) (fileName : Option (List UInt8)) : SenderStateMachine :=
  { s with message := InputStream.openFile fileName, fileName := fileName }

/-- Send `len` bytes that `data` points at. What is copied into the packet, and
what is reported as sent, is measured by the string at `data`; a packet has no
room for more than its array. -/
def sendData (s : SenderStateMachine) (data : List UInt8) (len : ℕ) (throws : Bool) :
    SenderStateMachine × Packet × ℤ :=
  let p := { Packet.zero with
    seqNum := s.filePosition + 1
    dataLen := UInt16.ofNat len
    fin := !s.message.good }.copyData (cString data)
  -- what is counted as sent is the length of the string less two, not what was copied
  if throws then (s, p, -1)
  else ({ s with notAcked := narrow (s.notAcked + 1) }, p, strlen data - 2)

/-- The stream that a retransmission may move and the position to go back to; an
exhausted stream is opened again. -/
def startPosition (s : SenderStateMachine) : InputStream UInt8 × ℤ :=
  if narrow s.message.tellg = -1 then
    ((InputStream.openFile s.fileName).seekg s.filePosition.toNat, asInt s.filePosition)
  else (s.message, narrow s.message.tellg)

/-- The stream that a retransmission reads from. -/
def missingSegment (s : SenderStateMachine) : InputStream UInt8 :=
  s.startPosition.1.seekg (s.ackedPosition - 1).toNat

/-- Send the segment at the acknowledged position again and go back to where the
stream was. -/
def retransmitMissingSegment (s : SenderStateMachine) (f : Frame) :
    SenderStateMachine × Packet × Bool :=
  let startPosition := s.startPosition.2
  let (chunk, message) := s.missingSegment.read mmsBytes
  let s := { s with message := message, filePosition := s.ackedPosition - 1 }
  let data := overwrite (bytesAt f.packetData mmsBytes) chunk ++ f.behind
  let len := if message.good then mmsBytes else message.gcount
  -- an error leaves the stream and the file position behind the missing segment
  let (s, p, bytesSent) := s.sendData data len f.throws
  if bytesSent < 0 then (s, p, false)
  else
    ({ s with
      message := s.message.seekg startPosition
      filePosition := toWord startPosition }, p, true)

def processTimeout (s : SenderStateMachine) : SenderStateMachine :=
  let message :=
    if s.message.tellg = -1 then
      (InputStream.openFile s.fileName).seekg (s.ackedPosition - 1).toNat
    else s.message.seekg (s.ackedPosition - 1).toNat
  { s with
    ssthresh := (narrow (s.cwnd * mmsBytes)).tdiv 2
    cwnd := 1
    dupAckCount := 0
    message := message
    filePosition := s.ackedPosition - 1
    notAcked := 0
    state := .slowStart }

def finalAck (recv : Packet) : Bool := recv.fin && recv.ack

def dupAck (s : SenderStateMachine) (recv : Packet) : SenderStateMachine × Bool :=
  if recv.ack && s.ackedPosition ≥ recv.ackNum then
    ({ s with dupAckCount := narrow (s.dupAckCount + 1) }, true)
  else (s, false)

/-- Advance the acknowledged position; a stream that has fallen behind it is moved
forward. -/
def newAck (s : SenderStateMachine) (recv : Packet) : SenderStateMachine × Bool :=
  if recv.ack && s.ackedPosition < recv.ackNum then
    -- the file position stays where it is
    let message :=
      if s.message.tellg < recv.ackNum.toNat && s.message.tellg > 0 then
        s.message.seekg (recv.ackNum - 1).toNat
      else s.message
    ({ s with ackedPosition := recv.ackNum, message := message, dupAckCount := 0 }, true)
  else (s, false)

/-- What `ssReceive` and `caReceive` do about the third duplicate. -/
def fastRetransmit (s : SenderStateMachine) (f : Frame) : Outcome :=
  -- in bytes here, in segments where the window is taken from it
  let ssthresh := narrow (s.cwnd.tdiv 2 * mmsBytes)
  let cwnd := ssthresh.tdiv mmsBytes + 3
  let s := { s with
    ssthresh := ssthresh
    cwnd := cwnd
    notAcked := cwnd - 3
    state := .fastRecovery }
  let (s, p, ok) := s.retransmitMissingSegment f
  ⟨s, some p, if ok then 0 else -1⟩

/-- Receive in slow start; no packet stands for a timeout. -/
def ssReceive (s : SenderStateMachine) (recv : Option Packet) (f : Frame) : Outcome :=
  match recv with
  | none => ⟨s.processTimeout, none, 0⟩
  | some recv =>
    if finalAck recv then ⟨s, none, 1⟩
    else
      let (s, dup) := s.dupAck recv
      if dup then
        if s.dupAckCount = 3 then s.fastRetransmit f else ⟨s, none, 0⟩
      else
        let (s, new) := s.newAck recv
        if new then
          let s := { s with cwnd := narrow (s.cwnd + 1) }
          let s :=
            if narrow (s.cwnd * mmsBytes) ≥ s.ssthresh then
              { s with caAckCount := 0, state := .congestionAvoidance }
            else s
          ⟨{ s with notAcked := narrow (s.notAcked - 1) }, none, 0⟩
        else ⟨s, none, 0⟩

/-- Receive in congestion avoidance. -/
def caReceive (s : SenderStateMachine) (recv : Option Packet) (f : Frame) : Outcome :=
  match recv with
  | none => ⟨s.processTimeout, none, 0⟩
  | some recv =>
    if finalAck recv then ⟨s, none, 1⟩
    else
      let (s, dup) := s.dupAck recv
      if dup then
        if s.dupAckCount = 3 then s.fastRetransmit f else ⟨s, none, 0⟩
      else
        let (s, new) := s.newAck recv
        if new then
          let s := { s with caAckCount := narrow (s.caAckCount + 1) }
          let s :=
            if s.cwnd = s.caAckCount then { s with cwnd := narrow (s.cwnd + 1), caAckCount := 0 }
            else s
          ⟨{ s with notAcked := narrow (s.notAcked - 1) }, none, 0⟩
        else ⟨s, none, 0⟩

/-- Receive in fast recovery. -/
def frReceive (s : SenderStateMachine) (recv : Option Packet) : Outcome :=
  match recv with
  | none => ⟨s.processTimeout, none, 0⟩
  | some recv =>
    if finalAck recv then ⟨s, none, 1⟩
    else
      let (s, dup) := s.dupAck recv
      -- a duplicate opens the window by one, and the count of duplicates decides nothing
      if dup then ⟨{ s with cwnd := narrow (s.cwnd + 1) }, none, 0⟩
      else
        let temp := asInt s.ackedPosition
        let (s, new) := s.newAck recv
        if new then
          ⟨{ s with
            cwnd := s.ssthresh.tdiv mmsBytes
            caAckCount := 0
            state := .congestionAvoidance
            -- the loop that takes one off for every whole chunk acknowledged
            notAcked := narrow (s.notAcked - ((recv.ackNum - toWord temp) / 100).toNat) }, none, 0⟩
        else ⟨s, none, 0⟩

/-- The choice of the receiving function in `transmit`. -/
def receive (s : SenderStateMachine) (recv : Option Packet) (f : Frame) : Outcome :=
  match s.state with
  | .slowStart => s.ssReceive recv f
  | .congestionAvoidance => s.caReceive recv f
  | .fastRecovery => s.frReceive recv

/-- The condition of the inner loop of `transmit`. -/
def canSend (s : SenderStateMachine) : Bool :=
  s.message.good && s.notAcked < s.cwnd && s.notAcked < s.maxNotAcked

/-- One round of the inner loop of `transmit`: the machine, the packet handed to
`sendTo`, and what `transmit` returns if it returns here. -/
def sendRound (s : SenderStateMachine) (f : Frame) :
    SenderStateMachine × Packet × Option Bool :=
  let (chunk, message) := s.message.read mmsBytes
  let s := { s with message := message }
  let data := overwrite (List.replicate mmsBytes 0) chunk ++ f.behind
  if message.good then
    let (s, p, bytesSent) := s.sendData data mmsBytes f.throws
    if bytesSent < 0 then (s, p, some false)
    else ({ s with filePosition := s.filePosition + toWord bytesSent }, p, none)
  else
    let (s, p, bytesSent) := s.sendData data message.gcount f.throws
    -- an error is not looked at here
    ({ s with filePosition := s.filePosition + toWord bytesSent }, p, none)

end SenderStateMachine

end Comnet.MP2
