/-
# What the sender's functions do, case by case

Sending a chunk, retransmitting one and receiving an acknowledgement are inverted
once here, each into the cases it can end in with everything it changes and the
packet it hands to `sendTo`. A proof about the sender goes through these cases and
never unfolds the functions again.
-/

import Comnet.MP2.Sender

set_option autoImplicit false

namespace Comnet.MP2

open Foundations

namespace SenderStateMachine

section Sending

variable (s : SenderStateMachine) (f : Frame)

/-- The packet in which `sendData` sends some bytes of the file: they lie at the
start of a memory and the length counts them. -/
def dataPacket (seqNum : UInt32) (bytes memory : List UInt8) (fin : Bool) : Packet :=
  { Packet.zero with
    seqNum := seqNum
    dataLen := UInt16.ofNat bytes.length
    fin := fin }.copyData (cString memory)

/-- What the code takes for the number of bytes that it has sent. -/
def reported (f : Frame) (memory : List UInt8) : ℤ := if f.throws then -1 else strlen memory - 2

/-- The outstanding segments after `sendData`: a packet that was refused is not counted. -/
def counted : ℤ := if f.throws then s.notAcked else narrow (s.notAcked + 1)

/-- The memory at the chunk that a round of the inner loop sends. -/
def chunkMemory : List UInt8 :=
  overwrite (List.replicate mmsBytes 0) (s.message.chunk mmsBytes) ++ f.behind

/-- The stream after a round of the inner loop. -/
def afterChunk : InputStream UInt8 :=
  { s.message with
    offset := s.message.offset + (s.message.chunk mmsBytes).length
    failed := (s.message.chunk mmsBytes).length < mmsBytes
    gcount := (s.message.chunk mmsBytes).length }

/-- The packet that a round of the inner loop sends. -/
def nextPacket : Packet :=
  dataPacket (s.filePosition + 1) (s.message.chunk mmsBytes) (s.chunkMemory f)
    ((s.message.chunk mmsBytes).length < mmsBytes)

/-- The bytes that a retransmission finds at the acknowledged position. -/
def missingChunk : List UInt8 := (s.missingSegment.read mmsBytes).1

/-- The memory at the chunk that a retransmission sends. -/
def missingMemory : List UInt8 :=
  overwrite (bytesAt f.packetData mmsBytes) s.missingChunk ++ f.behind

/-- The packet that a retransmission sends. -/
def missingPacket : Packet :=
  dataPacket s.ackedPosition s.missingChunk (s.missingMemory f)
    (s.missingChunk.length < mmsBytes)

/-- The cases of a round of the inner loop: a full chunk goes out, `transmit` gives
up on a full chunk, or the end of the file goes out and exhausts the stream. -/
inductive Sending : SenderStateMachine × Packet × Option Bool → Prop
  | full (whole : (s.message.chunk mmsBytes).length = mmsBytes) (sent : f.throws = false)
      (measured : 2 ≤ strlen (s.chunkMemory f)) :
      Sending ({ s with
        message := s.afterChunk
        notAcked := narrow (s.notAcked + 1)
        filePosition := s.filePosition + toWord (strlen (s.chunkMemory f) - 2) },
        s.nextPacket f, none)
  | refused (whole : (s.message.chunk mmsBytes).length = mmsBytes)
      (error : reported f (s.chunkMemory f) < 0) (notAcked : ℤ) :
      Sending ({ s with message := s.afterChunk, notAcked := notAcked },
        s.nextPacket f, some false)
  | short (rest : (s.message.chunk mmsBytes).length < mmsBytes) :
      Sending ({ s with
        message := s.afterChunk
        notAcked := s.counted f
        filePosition := s.filePosition + toWord (reported f (s.chunkMemory f)) },
        s.nextPacket f, none)

/-- The cases of a retransmission: it goes out and everything is put back, or it
is given up where it was. -/
inductive Resending : SenderStateMachine × Packet × Bool → Prop
  | resent (sent : f.throws = false) (measured : 2 ≤ strlen (s.missingMemory f)) :
      Resending ({ s with
        message := (s.missingSegment.read mmsBytes).2.seekg s.startPosition.2
        notAcked := narrow (s.notAcked + 1)
        filePosition := toWord s.startPosition.2 }, s.missingPacket f, true)
  | refused (error : reported f (s.missingMemory f) < 0) (notAcked : ℤ) :
      Resending ({ s with
        message := (s.missingSegment.read mmsBytes).2
        notAcked := notAcked
        filePosition := s.ackedPosition - 1 }, s.missingPacket f, false)

variable {s f}

theorem reported_lt {memory : List UInt8} (error : ¬ reported f memory < 0) :
    f.throws = false ∧ 2 ≤ strlen memory := by
  cases hthrows : f.throws with
  | true => simp [reported, hthrows] at error
  | false =>
    simp only [reported, hthrows, Bool.false_eq_true, if_false] at error
    exact ⟨rfl, by omega⟩

theorem reported_of_sent {memory : List UInt8} (sent : f.throws = false) :
    reported f memory = strlen memory - 2 := by
  simp [reported, sent]

theorem counted_of_sent (sent : f.throws = false) : s.counted f = narrow (s.notAcked + 1) := by
  simp [counted, sent]

theorem counted_of_fits (h : FitsInt (s.notAcked + 1)) :
    s.counted f = s.notAcked + if f.throws then 0 else 1 := by
  cases hthrows : f.throws <;> simp [counted, hthrows, h.narrow]

/-- What `sendData` changes, sends and reports. -/
theorem sendData_eq (data bytes : List UInt8) :
    s.sendData data bytes.length f.throws =
      ({ s with notAcked := s.counted f },
        dataPacket (s.filePosition + 1) bytes data (!s.message.good), reported f data) := by
  cases hthrows : f.throws <;> simp [sendData, reported, counted, hthrows, dataPacket]

theorem length_chunk_le : (s.message.chunk mmsBytes).length ≤ mmsBytes := by
  rw [InputStream.length_chunk]
  exact Nat.min_le_left _ _

/-- The zeros behind a chunk that does not fill its array end the string there. -/
theorem strlen_chunkMemory (rest : (s.message.chunk mmsBytes).length < mmsBytes) :
    strlen (s.chunkMemory f) = strlen (s.message.chunk mmsBytes) := by
  obtain ⟨n, hn⟩ : ∃ n, mmsBytes - (s.message.chunk mmsBytes).length = n + 1 :=
    ⟨_, (Nat.succ_pred_eq_of_pos (Nat.sub_pos_of_lt rest)).symm⟩
  rw [chunkMemory, overwrite_replicate, hn, List.replicate_succ, List.append_assoc,
    List.cons_append, strlen, cString_append_zero_cons, strlen]

/-- The length field of a packet has room for the length of a chunk. -/
theorem toNat_dataLen {bytes : List UInt8} (short : bytes.length ≤ mmsBytes) :
    (UInt16.ofNat bytes.length).toNat = bytes.length := by
  rw [UInt16.toNat_ofNat']
  exact Nat.mod_eq_of_lt (by unfold mmsBytes at short; omega)

/-- Bytes without a zero byte go out as they are, whatever lies behind them. -/
theorem payload_dataPacket {seqNum : UInt32} {bytes rest : List UInt8} {fin : Bool}
    (noNul : NoNul bytes) (short : bytes.length ≤ mmsBytes) :
    (dataPacket seqNum bytes (bytes ++ rest) fin).payload = bytes := by
  change (bytesAt (cString (bytes ++ rest)) 100).take (UInt16.ofNat bytes.length).toNat = bytes
  rw [toNat_dataLen short, cString_append noNul, take_bytesAt_append le_rfl 100 short,
    List.take_length]

/-- A round of the inner loop, with the read and the sending spelled out. -/
theorem sendRound_eq (good : s.message.failed = false) : s.sendRound f =
    (let sent := { s with
      message := s.afterChunk
      notAcked := s.counted f }
    let bytesSent := reported f (s.chunkMemory f)
    if (s.message.chunk mmsBytes).length < mmsBytes ∨ 0 ≤ bytesSent then
      ({ sent with filePosition := s.filePosition + toWord bytesSent }, s.nextPacket f, none)
    else (sent, s.nextPacket f, some false)) := by
  have hread : s.message.read mmsBytes = (s.message.chunk mmsBytes, s.afterChunk) :=
    InputStream.read_of_good good
  have hsend : ({ s with message := s.afterChunk }).sendData (s.chunkMemory f)
      (s.message.chunk mmsBytes).length f.throws =
        ({ s with
          message := s.afterChunk
          notAcked := s.counted f },
        s.nextPacket f, reported f (s.chunkMemory f)) := by
    rw [sendData_eq]
    simp only [counted, nextPacket, InputStream.good, afterChunk, Bool.not_not]
  have hmemory : overwrite (List.replicate mmsBytes 0) (s.message.chunk mmsBytes) ++ f.behind =
      s.chunkMemory f := rfl
  unfold sendRound
  rw [hread]
  dsimp only
  rw [hmemory]
  by_cases hshort : (s.message.chunk mmsBytes).length < mmsBytes
  · have hfailed : s.afterChunk.good = false := by simp [afterChunk, hshort]
    have hgcount : s.afterChunk.gcount = (s.message.chunk mmsBytes).length := rfl
    rw [hfailed, hgcount, hsend, if_neg Bool.false_ne_true, if_pos (Or.inl hshort)]
  · have hgood : s.afterChunk.good = true := by simp [afterChunk, hshort]
    have hwhole : (s.message.chunk mmsBytes).length = mmsBytes :=
      Nat.le_antisymm length_chunk_le (Nat.not_lt.mp hshort)
    rw [hwhole] at hsend ⊢
    rw [hgood, hsend, if_pos rfl]
    dsimp only
    by_cases herror : reported f (s.chunkMemory f) < 0
    · have hneither : ¬ (mmsBytes < mmsBytes ∨ 0 ≤ reported f (s.chunkMemory f)) := by
        rintro (hless | hreported)
        · exact lt_irrefl _ hless
        · exact absurd herror (not_lt.mpr hreported)
      rw [if_pos herror]
      exact (if_neg hneither).symm
    · rw [if_neg herror, if_pos (Or.inr (not_lt.mp herror))]

theorem sendRound_cases (good : s.message.failed = false) : Sending s f (s.sendRound f) := by
  rw [sendRound_eq good]
  dsimp only
  by_cases hshort : (s.message.chunk mmsBytes).length < mmsBytes
  · rw [if_pos (Or.inl hshort)]
    exact .short hshort
  · have hwhole : (s.message.chunk mmsBytes).length = mmsBytes :=
      Nat.le_antisymm length_chunk_le (Nat.not_lt.mp hshort)
    by_cases herror : reported f (s.chunkMemory f) < 0
    · rw [if_neg (by simp [hshort, not_le.mpr herror])]
      exact .refused hwhole herror _
    · obtain ⟨hsent, hmeasured⟩ := reported_lt herror
      rw [if_pos (Or.inr (not_lt.mp herror)), reported_of_sent hsent, counted_of_sent hsent]
      exact .full hwhole hsent hmeasured

theorem sendRound_packet (good : s.message.failed = false) :
    (s.sendRound f).2.1 = s.nextPacket f := by
  have hsending := sendRound_cases (f := f) good
  generalize s.sendRound f = round at hsending ⊢
  cases hsending <;> rfl

/-- A read delivers all it was asked for exactly when it leaves the stream good. -/
theorem good_missingSegment : (s.missingSegment.read mmsBytes).2.good =
    !decide (s.missingChunk.length < mmsBytes) := by
  unfold missingChunk
  cases hfailed : s.missingSegment.failed with
  | true => simp [InputStream.read_of_failed hfailed, InputStream.good, hfailed]
  | false => simp [InputStream.read_of_good hfailed, InputStream.good]

theorem length_missingChunk_le : s.missingChunk.length ≤ mmsBytes := by
  unfold missingChunk
  cases hfailed : s.missingSegment.failed with
  | true => simp [InputStream.read_of_failed hfailed]
  | false =>
    rw [InputStream.read_of_good hfailed, InputStream.length_chunk]
    exact Nat.min_le_left _ _

theorem gcount_missingSegment :
    (s.missingSegment.read mmsBytes).2.gcount = s.missingChunk.length := by
  unfold missingChunk
  cases hfailed : s.missingSegment.failed with
  | true => simp [InputStream.read_of_failed hfailed]
  | false => simp [InputStream.read_of_good hfailed]

/-- A retransmission, with the read and the sending spelled out. -/
theorem retransmit_eq : s.retransmitMissingSegment f =
    (let sent := { s with
      message := (s.missingSegment.read mmsBytes).2
      notAcked := s.counted f
      filePosition := s.ackedPosition - 1 }
    if reported f (s.missingMemory f) < 0 then (sent, s.missingPacket f, false)
    else ({ sent with
      message := (s.missingSegment.read mmsBytes).2.seekg s.startPosition.2
      filePosition := toWord s.startPosition.2 }, s.missingPacket f, true)) := by
  have hlen : (if (s.missingSegment.read mmsBytes).2.good = true then mmsBytes
      else (s.missingSegment.read mmsBytes).2.gcount) = s.missingChunk.length := by
    rw [gcount_missingSegment, good_missingSegment]
    have := length_missingChunk_le (s := s)
    split_ifs with hgood
    · have : ¬ s.missingChunk.length < mmsBytes := by simpa using hgood
      omega
    · rfl
  have hsend := sendData_eq (f := f) (s := { s with
      message := (s.missingSegment.read mmsBytes).2
      filePosition := s.ackedPosition - 1 }) (s.missingMemory f) s.missingChunk
  rw [good_missingSegment, UInt32.sub_add_cancel, Bool.not_not] at hsend
  unfold retransmitMissingSegment
  dsimp only
  rw [hlen]
  have hmemory : overwrite (bytesAt f.packetData mmsBytes) (s.missingSegment.read mmsBytes).1 ++
      f.behind = s.missingMemory f := rfl
  rw [hmemory, hsend]
  rfl

theorem retransmit_cases : Resending s f (s.retransmitMissingSegment f) := by
  rw [retransmit_eq]
  dsimp only
  by_cases herror : reported f (s.missingMemory f) < 0
  · rw [if_pos herror]
    exact .refused herror _
  · obtain ⟨hsent, hmeasured⟩ := reported_lt herror
    rw [if_neg herror, counted_of_sent hsent]
    exact .resent hsent hmeasured

end Sending

section Receiving

/-- The stream after a new acknowledgement. -/
def forwarded (s : SenderStateMachine) (recv : Packet) : InputStream UInt8 :=
  if s.message.tellg < recv.ackNum.toNat ∧ s.message.tellg > 0 then
    s.message.seekg (recv.ackNum - 1).toNat
  else s.message

/-- What a new acknowledgement makes of `cwnd`, `notAcked`, `caAckCount` and the
state, in each of the three states. -/
inductive Growth (s : SenderStateMachine) (recv : Packet) : ℤ → ℤ → ℤ → State → Prop
  | slowStart (state : s.state = .slowStart)
      (below : narrow (narrow (s.cwnd + 1) * mmsBytes) < s.ssthresh) :
      Growth s recv (narrow (s.cwnd + 1)) (narrow (s.notAcked - 1)) s.caAckCount .slowStart
  | leave (state : s.state = .slowStart)
      (reached : s.ssthresh ≤ narrow (narrow (s.cwnd + 1) * mmsBytes)) :
      Growth s recv (narrow (s.cwnd + 1)) (narrow (s.notAcked - 1)) 0 .congestionAvoidance
  | avoid (state : s.state = .congestionAvoidance)
      (counting : s.cwnd ≠ narrow (s.caAckCount + 1)) :
      Growth s recv s.cwnd (narrow (s.notAcked - 1)) (narrow (s.caAckCount + 1))
        .congestionAvoidance
  | raise (state : s.state = .congestionAvoidance) (full : s.cwnd = narrow (s.caAckCount + 1)) :
      Growth s recv (narrow (s.cwnd + 1)) (narrow (s.notAcked - 1)) 0 .congestionAvoidance
  | recover (state : s.state = .fastRecovery) :
      Growth s recv (s.ssthresh.tdiv mmsBytes)
        (narrow (s.notAcked - ((recv.ackNum - s.ackedPosition) / 100).toNat)) 0
        .congestionAvoidance

/-- An acknowledgement of nothing new that does not close the transfer. -/
structure Duplicate (s : SenderStateMachine) (recv : Packet) : Prop where
  ack : recv.ack = true
  notFin : recv.fin = false
  old : recv.ackNum ≤ s.ackedPosition

/-- The third duplicate outside of fast recovery. -/
structure ThirdDuplicate (s : SenderStateMachine) (recv : Packet) : Prop where
  ack : recv.ack = true
  notFin : recv.fin = false
  old : recv.ackNum ≤ s.ackedPosition
  state : s.state ≠ .fastRecovery
  third : narrow (s.dupAckCount + 1) = 3

/-- An acknowledgement of something new that does not close the transfer. -/
structure NewAck (s : SenderStateMachine) (recv : Packet) : Prop where
  ack : recv.ack = true
  notFin : recv.fin = false
  new : s.ackedPosition < recv.ackNum

instance (s : SenderStateMachine) (recv : Packet) : Decidable (s.Duplicate recv) :=
  decidable_of_iff (recv.ack = true ∧ recv.fin = false ∧ recv.ackNum ≤ s.ackedPosition)
    ⟨fun ⟨h₁, h₂, h₃⟩ => ⟨h₁, h₂, h₃⟩, fun ⟨h₁, h₂, h₃⟩ => ⟨h₁, h₂, h₃⟩⟩

instance (s : SenderStateMachine) (recv : Packet) : Decidable (s.ThirdDuplicate recv) :=
  decidable_of_iff (recv.ack = true ∧ recv.fin = false ∧ recv.ackNum ≤ s.ackedPosition ∧
      s.state ≠ .fastRecovery ∧ narrow (s.dupAckCount + 1) = 3)
    ⟨fun ⟨h₁, h₂, h₃, h₄, h₅⟩ => ⟨h₁, h₂, h₃, h₄, h₅⟩,
      fun ⟨h₁, h₂, h₃, h₄, h₅⟩ => ⟨h₁, h₂, h₃, h₄, h₅⟩⟩

instance (s : SenderStateMachine) (recv : Packet) : Decidable (s.NewAck recv) :=
  decidable_of_iff (recv.ack = true ∧ recv.fin = false ∧ s.ackedPosition < recv.ackNum)
    ⟨fun ⟨h₁, h₂, h₃⟩ => ⟨h₁, h₂, h₃⟩, fun ⟨h₁, h₂, h₃⟩ => ⟨h₁, h₂, h₃⟩⟩

/-- Half of the window, in segments, as it is taken from the halved window in bytes. -/
def halved (s : SenderStateMachine) : ℤ := (narrow (s.cwnd.tdiv 2 * mmsBytes)).tdiv mmsBytes

/-- The machine when it enters fast recovery, before it retransmits. -/
def entered (s : SenderStateMachine) : SenderStateMachine :=
  { s with
    ssthresh := narrow (s.cwnd.tdiv 2 * mmsBytes)
    cwnd := s.halved + 3
    notAcked := s.halved
    dupAckCount := narrow (s.dupAckCount + 1)
    state := .fastRecovery }

/-- The cases of what a receiving function does. -/
inductive Reaction (s : SenderStateMachine) (f : Frame) : Option Packet → Outcome → Prop
  | timeout : Reaction s f none ⟨s.processTimeout, none, 0⟩
  | final (recv : Packet) (ack : recv.ack = true) (fin : recv.fin = true) :
      Reaction s f (some recv) ⟨s, none, 1⟩
  | ignored (recv : Packet) (ack : recv.ack = false) : Reaction s f (some recv) ⟨s, none, 0⟩
  | duplicate (recv : Packet) (ack : recv.ack = true) (notFin : recv.fin = false)
      (old : recv.ackNum ≤ s.ackedPosition) (notThird : ¬ s.ThirdDuplicate recv) :
      Reaction s f (some recv) ⟨{ s with
        dupAckCount := narrow (s.dupAckCount + 1)
        cwnd := if s.state = .fastRecovery then narrow (s.cwnd + 1) else s.cwnd }, none, 0⟩
  | resent (recv : Packet) (third : s.ThirdDuplicate recv) (sent : f.throws = false)
      (measured : 2 ≤ strlen (s.missingMemory f)) :
      Reaction s f (some recv) ⟨{ s.entered with
        message := (s.missingSegment.read mmsBytes).2.seekg s.startPosition.2
        notAcked := s.halved + 1
        filePosition := toWord s.startPosition.2 }, some (s.missingPacket f), 0⟩
  | refused (recv : Packet) (third : s.ThirdDuplicate recv)
      (error : reported f (s.missingMemory f) < 0) (notAcked : ℤ) :
      Reaction s f (some recv) ⟨{ s.entered with
        message := (s.missingSegment.read mmsBytes).2
        notAcked := notAcked
        filePosition := s.ackedPosition - 1 }, some (s.missingPacket f), -1⟩
  | advance (recv : Packet) (new : s.NewAck recv) {cwnd notAcked caAckCount : ℤ} {state : State}
      (growth : s.Growth recv cwnd notAcked caAckCount state) :
      Reaction s f (some recv) ⟨{ s with
        cwnd := cwnd
        notAcked := notAcked
        dupAckCount := 0
        ackedPosition := recv.ackNum
        caAckCount := caAckCount
        state := state
        message := s.forwarded recv }, none, 0⟩

variable {s : SenderStateMachine} {f : Frame}

/-! A packet that closes the transfer, acknowledges nothing or nothing new is no new
acknowledgement, and a new one is no duplicate. -/

variable {recv : Packet}

theorem not_newAck_of_fin (fin : recv.fin = true) : ¬ s.NewAck recv := fun new =>
  absurd (new.notFin.symm.trans fin) Bool.false_ne_true

theorem not_newAck_of_no_ack (ack : recv.ack = false) : ¬ s.NewAck recv := fun new =>
  absurd (ack.symm.trans new.ack) Bool.false_ne_true

theorem not_newAck_of_old (old : recv.ackNum ≤ s.ackedPosition) : ¬ s.NewAck recv := fun new =>
  absurd new.new (UInt32.not_lt.mpr old)

theorem not_duplicate_of_fin (fin : recv.fin = true) : ¬ s.Duplicate recv := fun dup =>
  absurd (dup.notFin.symm.trans fin) Bool.false_ne_true

theorem not_duplicate_of_no_ack (ack : recv.ack = false) : ¬ s.Duplicate recv := fun dup =>
  absurd (ack.symm.trans dup.ack) Bool.false_ne_true

theorem NewAck.not_duplicate (new : s.NewAck recv) : ¬ s.Duplicate recv := fun dup =>
  not_newAck_of_old dup.old new

theorem ThirdDuplicate.duplicate (third : s.ThirdDuplicate recv) : s.Duplicate recv :=
  ⟨third.ack, third.notFin, third.old⟩

theorem not_thirdDuplicate_of_fin (fin : recv.fin = true) : ¬ s.ThirdDuplicate recv := fun third =>
  absurd (third.notFin.symm.trans fin) Bool.false_ne_true

theorem not_thirdDuplicate_of_no_ack (ack : recv.ack = false) : ¬ s.ThirdDuplicate recv :=
  fun third => absurd (ack.symm.trans third.ack) Bool.false_ne_true

theorem NewAck.not_thirdDuplicate (new : s.NewAck recv) : ¬ s.ThirdDuplicate recv := fun third =>
  not_newAck_of_old third.old new

/-- Moving the stream forward never makes it fail. -/
@[simp] theorem good_forwarded (recv : Packet) :
    (s.forwarded recv).good = s.message.good := by
  unfold forwarded
  split
  · exact InputStream.good_seekg_natCast _
  · rfl

/-- Bytes are counted within the signed range, so what is taken from them in segments is far
from its ends. -/
theorem halved_mem (s : SenderStateMachine) : -2 ^ 30 ≤ s.halved ∧ s.halved < 2 ^ 30 := by
  have hfits := fitsInt_narrow (s.cwnd.tdiv 2 * mmsBytes)
  have hlower := hfits.lower
  have hupper := hfits.upper
  unfold halved
  generalize narrow (s.cwnd.tdiv 2 * mmsBytes) = value at hlower hupper
  have hmms : (mmsBytes : ℤ) = 100 := rfl
  rw [hmms]
  have hsplit := Int.tmod_add_mul_tdiv value 100
  have hless := Int.tmod_lt_of_pos value (show (0 : ℤ) < 100 by decide)
  have hmore := Int.lt_tmod_of_pos value (show (0 : ℤ) < 100 by decide)
  constructor <;> omega

/-- Half of a window that is counted in bytes without a loss. -/
theorem halved_of_fits (h : FitsInt (s.cwnd.tdiv 2 * mmsBytes)) : s.halved = s.cwnd.tdiv 2 := by
  -- the threshold is a multiple of the chunk size, so dividing it again loses nothing
  rw [halved, h.narrow]
  exact Int.mul_tdiv_cancel _ (by decide)

theorem fastRetransmit_cases (third : s.ThirdDuplicate recv) :
    Reaction s f (some recv)
      ({ s with dupAckCount := narrow (s.dupAckCount + 1) }.fastRetransmit f) := by
  have hentered : ({ s with dupAckCount := narrow (s.dupAckCount + 1) }.fastRetransmit f) =
      ⟨(s.entered.retransmitMissingSegment f).1, some (s.entered.retransmitMissingSegment f).2.1,
        if (s.entered.retransmitMissingSegment f).2.2 then 0 else -1⟩ := by
    unfold fastRetransmit entered halved
    simp only [add_sub_cancel_right]
  rw [hentered]
  have hresending := retransmit_cases (s := s.entered) (f := f)
  generalize s.entered.retransmitMissingSegment f = resending at hresending
  cases hresending with
  | resent sent measured =>
    obtain ⟨hlower, hupper⟩ := s.halved_mem
    have hcount : narrow (s.entered.notAcked + 1) = s.halved + 1 :=
      narrow_of_mem (by change _ ≤ s.halved + 1; omega) (by change s.halved + 1 < _; omega)
    rw [hcount]
    exact .resent recv third sent measured
  | refused error notAcked => exact .refused recv third error notAcked

theorem dupAck_of_old (ack : recv.ack = true)
    (old : recv.ackNum ≤ s.ackedPosition) :
    s.dupAck recv = ({ s with dupAckCount := narrow (s.dupAckCount + 1) }, true) := by
  simp [dupAck, ack, old]

theorem dupAck_of_new (new : s.NewAck recv) : s.dupAck recv = (s, false) := by
  have : ¬ recv.ackNum ≤ s.ackedPosition := UInt32.not_le.mpr new.new
  simp [dupAck, new.ack, this]

theorem newAck_of_new (new : s.NewAck recv) :
    s.newAck recv = ({ s with
      ackedPosition := recv.ackNum
      message := s.forwarded recv
      dupAckCount := 0 }, true) := by
  have h := new.new
  simp [SenderStateMachine.newAck, new.ack, h, forwarded]

/-- A datagram that acknowledges nothing is ignored. -/
theorem receive_of_no_ack (ack : recv.ack = false) :
    s.receive (some recv) f = ⟨s, none, 0⟩ := by
  unfold receive
  cases s.state <;>
    simp [ssReceive, caReceive, frReceive, finalAck, dupAck, SenderStateMachine.newAck, ack]

theorem receive_of_final (ack : recv.ack = true) (fin : recv.fin = true) :
    s.receive (some recv) f = ⟨s, none, 1⟩ := by
  unfold receive
  cases s.state <;> simp [ssReceive, caReceive, frReceive, finalAck, ack, fin]

theorem receive_of_old (ack : recv.ack = true) (notFin : recv.fin = false)
    (old : recv.ackNum ≤ s.ackedPosition) : Reaction s f (some recv) (s.receive (some recv) f) := by
  have hdup := dupAck_of_old ack old
  have hfinal : finalAck recv = false := by simp [finalAck, notFin]
  by_cases hthird : s.ThirdDuplicate recv
  · have hcount := hthird.third
    have : s.receive (some recv) f =
        { s with dupAckCount := narrow (s.dupAckCount + 1) }.fastRetransmit f := by
      unfold receive
      cases hstate : s.state with
      | fastRecovery => exact absurd hstate hthird.state
      | slowStart => simp [ssReceive, hfinal, hdup, hcount, hstate]
      | congestionAvoidance => simp [caReceive, hfinal, hdup, hcount, hstate]
    exact this ▸ fastRetransmit_cases hthird
  · -- in fast recovery the count may pass three, outside of it this is no third one
    have hcount : s.state ≠ .fastRecovery → ¬ narrow (s.dupAckCount + 1) = 3 := fun hstate h =>
      hthird ⟨ack, notFin, old, hstate, h⟩
    have : s.receive (some recv) f = ⟨{ s with
        dupAckCount := narrow (s.dupAckCount + 1)
        cwnd := if s.state = .fastRecovery then narrow (s.cwnd + 1) else s.cwnd }, none, 0⟩ := by
      unfold receive
      cases hstate : s.state with
      | fastRecovery => simp [frReceive, hfinal, hdup, hstate]
      | slowStart => simp [ssReceive, hfinal, hdup, hcount, hstate]
      | congestionAvoidance => simp [caReceive, hfinal, hdup, hcount, hstate]
    exact this ▸ .duplicate recv ack notFin old hthird

theorem receive_of_new (new : s.NewAck recv) :
    Reaction s f (some recv) (s.receive (some recv) f) := by
  have hdup := dupAck_of_new new
  have hnew := newAck_of_new new
  have hfinal : finalAck recv = false := by simp [finalAck, new.notFin]
  unfold receive
  cases hstate : s.state with
  | slowStart =>
    by_cases hreached : s.ssthresh ≤ narrow (narrow (s.cwnd + 1) * 100)
    · simpa [ssReceive, hfinal, hdup, hnew, hstate, hreached] using
        Reaction.advance (f := f) recv new (.leave hstate hreached)
    · simpa [ssReceive, hfinal, hdup, hnew, hstate, hreached] using
        Reaction.advance (f := f) recv new (.slowStart hstate (not_le.mp hreached))
  | congestionAvoidance =>
    by_cases hfull : s.cwnd = narrow (s.caAckCount + 1)
    · simpa [caReceive, hfinal, hdup, hnew, hstate, hfull] using
        Reaction.advance (f := f) recv new (.raise hstate hfull)
    · simpa [caReceive, hfinal, hdup, hnew, hstate, hfull] using
        Reaction.advance (f := f) recv new (.avoid hstate hfull)
  | fastRecovery =>
    simpa [frReceive, hfinal, hdup, hnew, hstate] using
      Reaction.advance (f := f) recv new (.recover hstate)

/-- Every call of a receiving function is one of the cases. -/
theorem receive_cases (recv : Option Packet) : Reaction s f recv (s.receive recv f) := by
  cases recv with
  | none =>
    have : s.receive none f = ⟨s.processTimeout, none, 0⟩ := by
      unfold receive
      cases s.state <;> rfl
    exact this ▸ .timeout
  | some recv =>
    cases hack : recv.ack with
    | false => exact receive_of_no_ack (f := f) hack ▸ .ignored recv hack
    | true =>
      cases hfin : recv.fin with
      | true => exact receive_of_final (f := f) hack hfin ▸ .final recv hack hfin
      | false =>
        by_cases hold : recv.ackNum ≤ s.ackedPosition
        · exact receive_of_old hack hfin hold
        · exact receive_of_new ⟨hack, hfin, UInt32.not_le.mp hold⟩

/-- What a receiving function hands to `sendTo` is the missing segment. -/
theorem eq_of_handed {recv : Option Packet} {packet : Packet}
    (h : (s.receive recv f).handed = some packet) : packet = s.missingPacket f := by
  have hreaction := receive_cases (s := s) (f := f) recv
  generalize s.receive recv f = outcome at h hreaction
  cases hreaction with
  | resent recv third sent measured => exact (Option.some.inj h).symm
  | refused recv third error notAcked => exact (Option.some.inj h).symm
  | _ => exact nomatch h

/-- A receiving function calls `sendTo` for the third duplicate and for nothing else. -/
theorem isSome_handed_iff :
    (s.receive (some recv) f).handed.isSome = true ↔ s.ThirdDuplicate recv := by
  have hreaction := receive_cases (s := s) (f := f) (some recv)
  generalize s.receive (some recv) f = outcome at hreaction
  cases hreaction with
  | final recv ack fin => exact iff_of_false (by simp) (not_thirdDuplicate_of_fin fin)
  | ignored recv ack => exact iff_of_false (by simp) (not_thirdDuplicate_of_no_ack ack)
  | duplicate recv ack notFin old notThird => exact iff_of_false (by simp) notThird
  | resent recv third sent measured => exact iff_of_true rfl third
  | refused recv third error notAcked => exact iff_of_true rfl third
  | advance recv new growth => exact iff_of_false (by simp) new.not_thirdDuplicate

end Receiving

end SenderStateMachine

end Comnet.MP2
