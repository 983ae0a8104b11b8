/-
# Going back in the file

A third duplicate and a timeout both read the file again from the acknowledged position.
The timeout moves the stream and the file position there for good, so what is sent next
is what is missing. The retransmission is to put both back where they were: it does so
only while the missing segment fills a chunk and the stream can be read, or the
other way around.
-/

import Comnet.MP2.Reading
import Comnet.MP2.Waiting

set_option autoImplicit false

namespace Comnet.MP2

open Foundations

namespace SenderStateMachine

/-- Where a stream reads next, if there is anything left to read. -/
def nextRead (stream : InputStream UInt8) : Option ℕ :=
  if stream.good then some stream.offset else none

/-- The missing segment fills a chunk. -/
def Whole (file : List UInt8) (s : SenderStateMachine) : Prop :=
  (s.ackedPosition - 1).toNat + mmsBytes ≤ file.length

instance (file : List UInt8) (s : SenderStateMachine) : Decidable (s.Whole file) :=
  inferInstanceAs (Decidable (_ ≤ _))

/-- The inner loop of `transmit`, with what each round finds around it: the machine, what
is handed to `sendTo`, in order, and what `transmit` returns if it returns here. -/
def innerLoop (s : SenderStateMachine) :
    List Frame → SenderStateMachine × List Handed × Option Bool
  | [] => (s, [], none)
  | f :: frames =>
    if s.canSend then
      let (next, packet, returned) := s.sendRound f
      let handed := Handed.of packet s.message
      if returned.isSome then (next, [handed], returned)
      else
        let (last, rest, returned) := next.innerLoop frames
        (last, handed :: rest, returned)
    else (s, [], none)

variable {s : SenderStateMachine} {f : Frame} {file : List UInt8}

theorem nextRead_seekg (stream : InputStream UInt8) (position : ℤ) :
    nextRead (stream.seekg position) =
      if position < 0 then none else (nextRead stream).map fun _ => position.toNat := by
  unfold nextRead
  cases hfailed : stream.failed with
  | true => simp [InputStream.seekg_of_failed hfailed, InputStream.good, hfailed]
  | false =>
    by_cases hneg : position < 0
    · simp [InputStream.seekg_of_neg hfailed hneg, hneg, InputStream.good]
    · simp [InputStream.seekg_of_good hfailed (not_lt.mp hneg), hneg, InputStream.good, hfailed]

/-- The stream after a retransmission has read: behind the missing segment, unless it does
not fill a chunk. -/
theorem ReadsFrom.nextRead_missing (h : ReadsFrom file s) :
    nextRead (s.missingSegment.read mmsBytes).2 =
      if s.Whole file then some ((s.ackedPosition - 1).toNat + mmsBytes) else none := by
  obtain ⟨hfailed, hcontent, hoffset⟩ := h.missingSegment_eq
  have hlength : (s.missingSegment.chunk mmsBytes).length =
      min mmsBytes (file.length - (s.ackedPosition - 1).toNat) := by
    rw [InputStream.length_chunk, hcontent, hoffset]
  rw [nextRead, InputStream.read_of_good hfailed, hoffset]
  by_cases hwhole : s.Whole file
  · have hfull : (s.missingSegment.chunk mmsBytes).length = mmsBytes :=
      hlength.trans (Nat.min_eq_left (Nat.le_sub_of_add_le' hwhole))
    rw [if_pos hwhole, hfull, if_pos (by simp)]
  · have hshort : (s.missingSegment.chunk mmsBytes).length < mmsBytes := by
      unfold Whole at hwhole
      unfold mmsBytes at *
      omega
    rw [if_neg hwhole, if_neg (by simp [hshort])]

/-! ## The frame of a retransmission -/

/-- A retransmission hands over one packet, the one at the acknowledged position, and
leaves the file position and what is read next as they were. -/
structure Framed (s : SenderStateMachine) (f : Frame) : Prop where
  seqNum : (s.retransmitMissingSegment f).2.1.seqNum = s.ackedPosition
  readFrom : (Handed.of (s.retransmitMissingSegment f).2.1 s.missingSegment).readFrom =
    some (s.ackedPosition.toNat - 1)
  filePosition : (s.retransmitMissingSegment f).1.filePosition = s.filePosition
  nextRead_eq : nextRead (s.retransmitMissingSegment f).1.message = nextRead s.message

instance (s : SenderStateMachine) (f : Frame) : Decidable (s.Framed f) :=
  decidable_of_iff ((s.retransmitMissingSegment f).2.1.seqNum = s.ackedPosition ∧
      (Handed.of (s.retransmitMissingSegment f).2.1 s.missingSegment).readFrom =
        some (s.ackedPosition.toNat - 1) ∧
      (s.retransmitMissingSegment f).1.filePosition = s.filePosition ∧
      nextRead (s.retransmitMissingSegment f).1.message = nextRead s.message)
    ⟨fun h => ⟨h.1, h.2.1, h.2.2.1, h.2.2.2⟩, fun h => ⟨h.1, h.2, h.3, h.4⟩⟩

/-- `sendTo` throws, or one of the first two bytes at the array ends the string there once
the missing segment has been read into it. -/
def GivenUp (file : List UInt8) (s : SenderStateMachine) (f : Frame) : Prop :=
  f.throws = true ∨ strlen (overwrite (bytesAt f.packetData mmsBytes)
    ((file.drop (s.ackedPosition - 1).toNat).take mmsBytes) ++ f.behind) < 2

/-- The states that a retransmission leaves as they are. Given up, it stays behind the
missing segment, so it must have been there before; else it goes back in a stream that
can still be read, and an exhausted one stays so unless it was opened again. -/
def KeepsFrame (file : List UInt8) (s : SenderStateMachine) (f : Frame) : Prop :=
  (s.GivenUp file f ∧ s.filePosition = s.ackedPosition - 1 ∧
    nextRead s.message =
      if s.Whole file then some ((s.ackedPosition - 1).toNat + mmsBytes) else none) ∨
  (¬ s.GivenUp file f ∧ s.message.good = true ∧ s.Whole file ∧
    s.message.offset = s.filePosition.toNat ∧ s.message.offset < 2 ^ 31) ∨
  (¬ s.GivenUp file f ∧ s.message.good = false ∧
    (¬ s.Whole file ∨ 2 ^ 31 ≤ s.filePosition.toNat))

theorem reported_neg_iff {memory : List UInt8} :
    reported f memory < 0 ↔ f.throws = true ∨ strlen memory < 2 := by
  cases hthrows : f.throws with
  | true => simp [reported, hthrows]
  | false =>
    rw [reported_of_sent hthrows]
    simp only [Bool.false_eq_true, false_or]
    omega

theorem ReadsFrom.givenUp_iff (h : ReadsFrom file s) :
    s.GivenUp file f ↔ reported f (s.missingMemory f) < 0 := by
  rw [reported_neg_iff, GivenUp, missingMemory, h.missingChunk_eq]

/-- The position that a retransmission goes back to is that of the stream or, where the
stream was exhausted, the file position. -/
theorem startPosition_cases (s : SenderStateMachine) :
    ∃ word, s.startPosition.2 = asInt word ∧
      (word = s.filePosition ∨ s.message.good = true ∧ word = toWord s.message.offset) := by
  unfold startPosition
  split_ifs with hposition
  · exact ⟨s.filePosition, rfl, .inl rfl⟩
  · have hgood := good_of_position hposition
    rw [InputStream.tellg_of_good (InputStream.good_eq_true.mp hgood)]
    exact ⟨_, rfl, .inr ⟨hgood, rfl⟩⟩

/-- Going back is going back to where both were. -/
theorem goesBack_iff {word filePosition : UInt32} {offset : ℕ}
    (hword : word = filePosition ∨ word = toWord offset) :
    word = filePosition ∧ asInt word = offset ↔
      offset = filePosition.toNat ∧ offset < 2 ^ 31 := by
  rw [asInt_eq_natCast_iff]
  constructor
  · rintro ⟨rfl, hoffset, hlt⟩
    exact ⟨hoffset.symm, hlt⟩
  · rintro ⟨rfl, hlt⟩
    have hsame : word = filePosition := by
      rcases hword with rfl | rfl
      · rfl
      · apply UInt32.toNat_inj.mp
        rw [toNat_toWord_of_lt (by omega) (by omega), Int.toNat_natCast]
    exact ⟨hsame, congrArg UInt32.toNat hsame, hlt⟩

theorem wentBack_iff {position : ℤ} {offset : ℕ} :
    (if position < 0 then none else some position.toNat) = some offset ↔ position = offset := by
  split_ifs with hneg
  · exact iff_of_false (by simp) (by omega)
  · rw [Option.some_inj]
    omega

/-- The frame, for a machine that reads from a file. -/
theorem ReadsFrom.framed_iff (h : ReadsFrom file s) (hpos : 1 ≤ s.ackedPosition.toNat) :
    s.Framed f ↔ s.KeepsFrame file f := by
  have hseqNum : (s.retransmitMissingSegment f).2.1.seqNum = s.ackedPosition := by
    rw [retransmit_eq]
    dsimp only
    split_ifs <;> rfl
  have hreadFrom : (Handed.of (s.retransmitMissingSegment f).2.1 s.missingSegment).readFrom =
      some (s.ackedPosition.toNat - 1) := by
    obtain ⟨hfailed, -, hoffset⟩ := h.missingSegment_eq
    have hsub : (s.ackedPosition - 1).toNat = s.ackedPosition.toNat - 1 := toNat_sub_one hpos
    rw [Handed.of, InputStream.good, hfailed, hoffset, hsub]
    rfl
  have hparts : s.Framed f ↔ (s.retransmitMissingSegment f).1.filePosition = s.filePosition ∧
      nextRead (s.retransmitMissingSegment f).1.message = nextRead s.message :=
    ⟨fun hframed => ⟨hframed.filePosition, hframed.nextRead_eq⟩,
      fun hkept => ⟨hseqNum, hreadFrom, hkept.1, hkept.2⟩⟩
  rw [hparts, retransmit_eq, KeepsFrame]
  dsimp only
  by_cases herror : reported f (s.missingMemory f) < 0
  · have hgiven : s.GivenUp file f := h.givenUp_iff.mpr herror
    simp only [herror, if_true, hgiven, true_and, not_true, false_and, or_false,
      h.nextRead_missing]
    exact and_congr eq_comm eq_comm
  · have hgiven : ¬ s.GivenUp file f := fun hgiven => herror (h.givenUp_iff.mp hgiven)
    obtain ⟨word, hstart, hword⟩ := s.startPosition_cases
    simp only [herror, if_false, hgiven, false_and, not_false_eq_true, true_and, false_or,
      nextRead_seekg, h.nextRead_missing, hstart, toWord_asInt]
    cases hgood : s.message.good with
    | true =>
      have hread : nextRead s.message = some s.message.offset := if_pos hgood
      have hplace := goesBack_iff (hword.imp_right (·.2))
      rw [hread]
      by_cases hwhole : s.Whole file
      · rw [if_pos hwhole, Option.map_some, wentBack_iff, hplace]
        simp [hwhole]
      · simp [hwhole]
    | false =>
      have hread : nextRead s.message = none := if_neg (by simp [hgood])
      obtain rfl : word = s.filePosition := hword.resolve_right (by simp [hgood])
      rw [hread]
      by_cases hwhole : s.Whole file
      · simp [hwhole, asInt_neg_iff]
      · simp [hwhole]

/-! ## After a timeout -/

theorem innerLoop_of_not_canSend (h : s.canSend = false) (frames : List Frame) :
    s.innerLoop frames = (s, [], none) := by
  cases frames with
  | nil => rfl
  | cons f frames => rw [innerLoop, if_neg (by simp [h])]

/-- A round that leaves nothing to send is the last one. -/
theorem innerLoop_of_last (hcan : s.canSend = true) (hlast : (s.sendRound f).1.canSend = false)
    (frames : List Frame) :
    s.innerLoop (f :: frames) =
      ((s.sendRound f).1, [Handed.of (s.sendRound f).2.1 s.message], (s.sendRound f).2.2) := by
  rw [innerLoop, if_pos hcan]
  dsimp only
  cases hreturned : (s.sendRound f).2.2 with
  | none => rw [if_neg (by simp), innerLoop_of_not_canSend hlast]
  | some returned => exact if_pos rfl

/-- The packet that is sent after a timeout: the chunk at the acknowledged position. -/
def firstPacket (file : List UInt8) (s : SenderStateMachine) (f : Frame) : Packet :=
  let bytes := (file.drop (s.ackedPosition.toNat - 1)).take mmsBytes
  dataPacket s.ackedPosition bytes (overwrite (List.replicate mmsBytes 0) bytes ++ f.behind)
    (bytes.length < mmsBytes)

theorem payload_firstPacket
    (noNul : NoNul ((file.drop (s.ackedPosition.toNat - 1)).take mmsBytes)) :
    (s.firstPacket file f).payload =
      (file.drop (s.ackedPosition.toNat - 1)).take mmsBytes := by
  change (dataPacket _ _ (_ ++ _ ++ _) _).payload = _
  rw [List.append_assoc]
  exact payload_dataPacket noNul (List.length_take_le _ _)

theorem ReadsFrom.nextPacket_processTimeout (h : ReadsFrom file s)
    (hpos : 1 ≤ s.ackedPosition.toNat) :
    s.processTimeout.nextPacket f = s.firstPacket file f := by
  obtain ⟨-, hcontent, hoffset⟩ := h.processTimeout_message
  have hsub : (s.ackedPosition - 1).toNat = s.ackedPosition.toNat - 1 := toNat_sub_one hpos
  have hnumber : s.processTimeout.filePosition + 1 = s.ackedPosition :=
    UInt32.sub_add_cancel _ _
  rw [nextPacket, chunkMemory, hnumber, InputStream.chunk, hcontent, hoffset, hsub]
  rfl

/-- After a timeout the inner loop takes one round, and the window is full again. -/
theorem ReadsFrom.innerLoop_processTimeout (h : ReadsFrom file s)
    (hpos : 1 ≤ s.ackedPosition.toNat) (hlimit : s.maxNotAcked = 25) (sent : f.throws = false)
    (frames : List Frame) :
    ∃ last returned, s.processTimeout.innerLoop (f :: frames) =
        (last, [⟨s.firstPacket file f, some (s.ackedPosition.toNat - 1)⟩], returned) ∧
      last.cwnd = 1 ∧ last.notAcked = 1 ∧ last.dupAckCount = 0 ∧ last.state = .slowStart := by
  obtain ⟨hgood, -, hoffset⟩ := h.processTimeout_message
  have hcan : s.processTimeout.canSend = true :=
    Transmission.canSend_processTimeout (h.fileName ▸ rfl) hlimit
  have hwindow : (s.processTimeout.sendRound f).1.cwnd = 1 ∧
      (s.processTimeout.sendRound f).1.notAcked = 1 ∧
      (s.processTimeout.sendRound f).1.dupAckCount = 0 ∧
      (s.processTimeout.sendRound f).1.state = .slowStart := by
    have hcount : s.processTimeout.counted f = 1 := counted_of_sent sent
    rw [sendRound_eq hgood, hcount]
    dsimp only
    split_ifs <;> exact ⟨rfl, rfl, rfl, rfl⟩
  have hfull : (s.processTimeout.sendRound f).1.canSend = false := by
    rw [canSend, hwindow.1, hwindow.2.1]
    simp
  have hpacket : (s.processTimeout.sendRound f).2.1 = s.firstPacket file f :=
    (sendRound_packet hgood).trans (h.nextPacket_processTimeout hpos)
  have hreadFrom : Handed.of (s.firstPacket file f) s.processTimeout.message =
      ⟨s.firstPacket file f, some (s.ackedPosition.toNat - 1)⟩ := by
    have hsub : (s.ackedPosition - 1).toNat = s.ackedPosition.toNat - 1 := toNat_sub_one hpos
    rw [Handed.of, InputStream.good, hgood, hoffset, hsub]
    rfl
  refine ⟨_, (s.processTimeout.sendRound f).2.2, ?_, hwindow⟩
  rw [innerLoop_of_last hcan hfull, hpacket, hreadFrom]

end SenderStateMachine

namespace Transmission

variable {t next : Transmission} {turn : Turn} {file : List UInt8}

/-- What every state of a run on an opened file has in common. -/
theorem readsFrom_run {caAckCount : ℤ} {turns : List Turn}
    (hrun : run step (start caAckCount true (some file)) turns = some t) :
    t.machine.ReadsFrom file ∧ 1 ≤ t.machine.ackedPosition.toNat ∧
      t.machine.maxNotAcked = 25 := by
  refine invariant_run (P := fun t => t.machine.ReadsFrom file ∧
    1 ≤ t.machine.ackedPosition.toNat ∧ t.machine.maxNotAcked = 25) ?_ ?_ hrun
  · exact ⟨⟨rfl, rfl⟩, le_rfl, rfl⟩
  · rintro t turn next ⟨hreads, hpos, hlimit⟩ hstep
    exact ⟨readsFrom_step hreads hstep, hpos.trans (ackedPosition_mono hstep),
      maxNotAcked_step hlimit hstep⟩

variable (caAckCount : ℤ) (turns : List Turn)

/-- In every state of a run on an opened file, a retransmission is a frame around one packet exactly
when it finds the two places where it leaves them. -/
theorem retransmission_framed_iff
    (hrun : run step (start caAckCount true (some file)) turns = some t) (f : Frame) :
    t.machine.Framed f ↔ t.machine.KeepsFrame file f := by
  obtain ⟨hreads, hpos, -⟩ := readsFrom_run hrun
  exact hreads.framed_iff hpos

/-- The first segment is acknowledged and two more are out; in a file of 250 bytes the last
chunk is among them. -/
def exhausted : List Turn :=
  [.send .usual, .receive (some (.acknowledgement 101)) .usual, .send .usual, .send .usual]

/-- In a longer file the retransmission goes back to where the third chunk ends. -/
theorem retransmission_framed_iff_exhausted :
    let t := (run step (start 0 true (some (List.replicate 600 65))) exhausted).get
      (by decide +kernel)
    t.machine.Framed .usual :=
  (retransmission_framed_iff 0 exhausted (Option.some_get _).symm .usual).mpr
    (.inr (.inl ⟨by rw [SenderStateMachine.GivenUp]; decide +kernel, by decide +kernel⟩))

/-- Sending the second chunk again opens the exhausted stream, so the end of the file is
read again. -/
theorem retransmission_reopens :
    ¬ ∀ (file : List UInt8) (caAckCount : ℤ) (turns : List Turn) (t : Transmission),
      run step (start caAckCount true (some file)) turns = some t →
        ∀ f : Frame, t.machine.Framed f := by
  intro h
  have hend : (run step (start 0 true (some (List.replicate 250 65))) exhausted).map
      (fun t => decide (t.machine.Framed .usual)) = some false := by
    decide +kernel
  obtain ⟨t, hrun, hframed⟩ := Option.map_eq_some_iff.mp hend
  exact of_decide_eq_false hframed (h _ 0 exhausted t hrun .usual)

/-- From every state of a run on an opened file, a timeout and the inner loop that follows it
send one packet, the one at the acknowledged position, and leave the sender in slow start with a
window of one segment that is out. The packet carries the bytes of the file there, as far as no
zero byte among them ends the copy. -/
theorem timeout_goesBack
    (hrun : run step (start caAckCount true (some file)) turns = some t) {f : Frame}
    (sent : f.throws = false) (frames : List Frame) :
    ∃ last returned, t.machine.processTimeout.innerLoop (f :: frames) =
        (last, [⟨t.machine.firstPacket file f, some (t.machine.ackedPosition.toNat - 1)⟩],
          returned) ∧
      (t.machine.firstPacket file f).seqNum = t.machine.ackedPosition ∧
      (NoNul ((file.drop (t.machine.ackedPosition.toNat - 1)).take mmsBytes) →
        (t.machine.firstPacket file f).payload =
          (file.drop (t.machine.ackedPosition.toNat - 1)).take mmsBytes) ∧
      last.cwnd = 1 ∧ last.notAcked = 1 ∧ last.dupAckCount = 0 ∧ last.state = .slowStart := by
  obtain ⟨hreads, hpos, hlimit⟩ := readsFrom_run hrun
  obtain ⟨last, returned, hloop, hwindow⟩ :=
    hreads.innerLoop_processTimeout hpos hlimit sent frames
  refine ⟨last, returned, hloop, rfl, fun noNul => ?_, hwindow⟩
  exact SenderStateMachine.payload_firstPacket noNul

/-- The timer expires when all of a file of 250 bytes is out and its first chunk acknowledged. -/
theorem timeout_goesBack_exhausted :
    let file := List.replicate 250 65
    let t := (run step (start 0 true (some file)) exhausted).get (by decide +kernel)
    ∃ last returned, t.machine.processTimeout.innerLoop [.usual] =
        (last, [⟨t.machine.firstPacket file .usual, some (t.machine.ackedPosition.toNat - 1)⟩],
          returned) ∧
      (t.machine.firstPacket file .usual).seqNum = t.machine.ackedPosition ∧
      (NoNul ((file.drop (t.machine.ackedPosition.toNat - 1)).take mmsBytes) →
        (t.machine.firstPacket file .usual).payload =
          (file.drop (t.machine.ackedPosition.toNat - 1)).take mmsBytes) ∧
      last.cwnd = 1 ∧ last.notAcked = 1 ∧ last.dupAckCount = 0 ∧ last.state = .slowStart :=
  timeout_goesBack 0 exhausted (Option.some_get _).symm rfl []

end Transmission

end Comnet.MP2
