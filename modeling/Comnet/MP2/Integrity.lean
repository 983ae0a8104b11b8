/-
# The integrity of a transfer

The two parties together: the sender puts only packets in flight that sit where the
file puts them, the receiver reassembles such packets into the file, and the sender
returns successfully only on an acknowledgement of all of it. This holds of every
run in which no new acknowledgement moves the sender's stream forward. One that does
leaves the stream ahead of the file position, and later bytes go out under earlier
sequence numbers.
-/

import Comnet.MP2.Acknowledgement
import Comnet.MP2.Closing
import Comnet.MP2.Labelling
import Comnet.MP2.Reading
import Comnet.MP2.Reassembly

set_option autoImplicit false

namespace Comnet.MP2

open Foundations

/-! ## What the sender puts in flight -/

variable {file : List UInt8}

/-- A packet with the bytes from an offset of the file sits at that offset. -/
theorem labelled_dataPacket {offset : ℕ} {seqNum : UInt32} {bytes rest : List UInt8} {fin : Bool}
    (noNul : NoNul file) (within : offset ≤ file.length)
    (number : seqNum.toNat = offset + 1)
    (hbytes : bytes = (file.drop offset).take mmsBytes)
    (hfin : fin = true → bytes.length < mmsBytes) :
    (SenderStateMachine.dataPacket seqNum bytes (bytes ++ rest) fin).Labelled file := by
  have hslice : Slice file offset bytes := hbytes ▸ slice_take_drop within
  have hlen : bytes.length = min mmsBytes (file.length - offset) := by
    rw [hbytes, List.length_take, List.length_drop]
  have hle : bytes.length ≤ mmsBytes := hlen ▸ Nat.min_le_left _ _
  have hcount : (UInt16.ofNat bytes.length).toNat = bytes.length :=
    SenderStateMachine.toNat_dataLen hle
  have hnumber : seqNum.toNat - 1 = offset := by omega
  constructor
  · change 1 ≤ seqNum.toNat
    omega
  · exact hcount.le.trans hle
  · change seqNum.toNat - 1 + (UInt16.ofNat bytes.length).toNat ≤ file.length
    rw [hcount, hnumber]
    exact hslice.within
  · rw [SenderStateMachine.payload_dataPacket (noNul.sublist hslice.sublist) hle]
    change bytes = (file.drop (seqNum.toNat - 1)).take (UInt16.ofNat bytes.length).toNat
    rw [hcount, hnumber]
    exact hslice.eq
  · intro hclose
    have hshort := hfin hclose
    change seqNum.toNat - 1 + (UInt16.ofNat bytes.length).toNat = file.length
    rw [hcount, hnumber]
    omega

/-! ## The chunks of a file -/

/-- How many chunks a file goes over in; the last one is not full. -/
def chunkCount (file : List UInt8) : ℕ := file.length / mmsBytes + 1

/-- The packet that carries a chunk of the file. -/
structure IsChunk (file : List UInt8) (i : ℕ) (packet : Packet) : Prop where
  labelled : packet.Labelled file
  seqNum : packet.seqNum.toNat = mmsBytes * i + 1
  dataLen : packet.dataLen.toNat = min mmsBytes (file.length - mmsBytes * i)
  fin : packet.fin = decide (i + 1 = chunkCount file)

variable {i : ℕ}

theorem chunkCount_pos (file : List UInt8) : 0 < chunkCount file := Nat.succ_pos _

theorem lt_chunkCount_iff : i < chunkCount file ↔ mmsBytes * i ≤ file.length := by
  unfold chunkCount mmsBytes
  omega

theorem last_chunk_iff : i + 1 = chunkCount file ↔
    mmsBytes * i ≤ file.length ∧ file.length < mmsBytes * i + mmsBytes := by
  unfold chunkCount mmsBytes
  omega

/-- Where the stream and the file position are behind so many chunks, the next one goes out. -/
theorem isChunk_nextPacket {m : SenderStateMachine} {f : Frame} (noNul : NoNul file)
    (bound : file.length < 2 ^ 31 - 1) (content : m.message.content = file)
    (offset : m.message.offset = mmsBytes * i) (position : m.filePosition.toNat = mmsBytes * i)
    (within : mmsBytes * i ≤ file.length) : IsChunk file i (m.nextPacket f) := by
  have hnumber : (m.filePosition + 1).toNat = mmsBytes * i + 1 := by
    rw [← position]
    exact (@toNat_add_ofNat m.filePosition 1 (by decide)).mpr (by omega)
  have hlength : (m.message.chunk mmsBytes).length =
      min mmsBytes (file.length - mmsBytes * i) := by
    rw [InputStream.length_chunk, content, offset]
  have hmemory : m.chunkMemory f = m.message.chunk mmsBytes ++
      (List.replicate (mmsBytes - (m.message.chunk mmsBytes).length) 0 ++ f.behind) := by
    rw [SenderStateMachine.chunkMemory, overwrite_replicate, List.append_assoc]
  refine ⟨?_, hnumber, ?_, ?_⟩
  · unfold SenderStateMachine.nextPacket
    rw [hmemory]
    refine labelled_dataPacket noNul within hnumber ?_ (fun hfin => by simpa using hfin)
    rw [InputStream.chunk, content, offset]
  · change (UInt16.ofNat (m.message.chunk mmsBytes).length).toNat = _
    rw [SenderStateMachine.toNat_dataLen SenderStateMachine.length_chunk_le, hlength]
  · change decide ((m.message.chunk mmsBytes).length < mmsBytes) = _
    rw [hlength]
    refine decide_eq_decide.mpr ?_
    rw [last_chunk_iff]
    unfold mmsBytes at *
    omega

/-! ## The parties of a transfer -/

namespace Transmission

/-- The sender's side while it sends a file: every stream it opens is on that file,
stream and file position agree, and the file position lies within the file, except
at the end of a file of less than one chunk. -/
structure Faithful (file : List UInt8) (t : Transmission) : Prop where
  content : t.machine.message.content = file
  fileName : t.machine.fileName = some file
  synchronised : t.Synchronised
  place : t.machine.filePosition.toNat ≤ file.length ∨
    (file.length < mmsBytes ∧ t.machine.message.good = false)

variable {t next : Transmission} {turn : Turn}

theorem Faithful.reads (h : Faithful file t) : t.machine.ReadsFrom file :=
  ⟨h.content, h.fileName⟩

theorem Faithful.place_of_good (h : Faithful file t) (hgood : t.machine.message.good = true) :
    t.machine.filePosition.toNat ≤ file.length := by
  rcases h.place with hplace | ⟨-, hfailed⟩
  · exact hplace
  · exact absurd (hfailed.symm.trans hgood) Bool.false_ne_true

/-- A readable stream is at the file position, within the file. -/
theorem Faithful.offset_eq (h : Faithful file t) (running : t.returned = none)
    (hgood : t.machine.message.good = true) :
    t.machine.message.offset = t.machine.filePosition.toNat := by
  have htell := h.synchronised.position running hgood
  rw [InputStream.tellg_of_good (InputStream.good_eq_true.mp hgood)] at htell
  exact_mod_cast htell

/-- A retransmission goes back to the file position. -/
theorem Faithful.startPosition_eq (h : Faithful file t) (running : t.returned = none) :
    t.machine.startPosition.2 = asInt t.machine.filePosition := by
  unfold SenderStateMachine.startPosition
  split
  · rfl
  · rename_i hposition
    have htell := h.synchronised.position running
      (SenderStateMachine.good_of_position hposition)
    have hword : toWord (t.machine.filePosition.toNat : ℤ) = t.machine.filePosition := by
      apply UInt32.toNat_inj.mp
      have hbound := t.machine.filePosition.toNat_lt
      rw [toNat_toWord_of_lt (by omega) (by omega), Int.toNat_natCast]
    rw [htell, narrow, hword]

/-- A turn of a faithful sender puts only packets in flight that sit where the file puts them. -/
theorem Faithful.labelled (h : Faithful file t) (noNul : NoNul file)
    (bound : file.length < 2 ^ 31 - 1) (hpos : 1 ≤ t.machine.ackedPosition.toNat)
    (hacked : t.machine.ackedPosition.toNat ≤ file.length + 1)
    (hstep : t.step turn = some next) {packet : Packet} (hpacket : packet ∈ t.wire turn) :
    packet.Labelled file := by
  have running := (step_cases hstep).1
  rcases mem_wire hstep hpacket with ⟨f, rfl, admitted, rfl⟩ | ⟨recv, f, rfl, rfl⟩
  · have hgood := readable_of_canSend admitted
    have hoffset := h.offset_eq running (InputStream.good_eq_true.mpr hgood)
    have hplace := h.place_of_good (InputStream.good_eq_true.mpr hgood)
    have hmemory : t.machine.chunkMemory f = t.machine.message.chunk mmsBytes ++
        (List.replicate (mmsBytes - (t.machine.message.chunk mmsBytes).length) 0 ++ f.behind) := by
      rw [SenderStateMachine.chunkMemory, overwrite_replicate, List.append_assoc]
    unfold SenderStateMachine.nextPacket
    rw [hmemory]
    refine labelled_dataPacket noNul hplace ?_ ?_ (fun hfin => by simpa using hfin)
    · exact (@toNat_add_ofNat t.machine.filePosition 1 (by decide)).mpr (by omega)
    · rw [InputStream.chunk, h.content, hoffset]
  · have hsub : (t.machine.ackedPosition - 1).toNat = t.machine.ackedPosition.toNat - 1 :=
      toNat_sub_one hpos
    unfold SenderStateMachine.missingPacket SenderStateMachine.missingMemory overwrite
    rw [List.append_assoc]
    exact labelled_dataPacket noNul (by omega) (by omega) h.reads.missingChunk_eq
      (fun hfin => by simpa using hfin)

/-- What is taken for the length of the last chunk: the zeros behind it end the string. -/
theorem reported_short {m : SenderStateMachine} {f : Frame} (noNul : NoNul m.message.content)
    (rest : (m.message.chunk mmsBytes).length < mmsBytes) :
    SenderStateMachine.reported f (m.chunkMemory f) =
      if f.throws then -1 else ((m.message.chunk mmsBytes).length : ℤ) - 2 := by
  have hchunk : NoNul (m.message.chunk mmsBytes) :=
    noNul.sublist ((List.take_sublist _ _).trans (List.drop_sublist _ _))
  rw [SenderStateMachine.reported, SenderStateMachine.strlen_chunkMemory rest, strlen,
    cString_eq_self hchunk]

/-- A round of the inner loop stays within the file. -/
theorem Faithful.send (h : Faithful file t) (noNul : NoNul file)
    (bound : file.length < 2 ^ 31 - 1) (running : t.returned = none)
    {f : Frame} (admitted : t.machine.canSend = true) (measured : t.Measured (.send f))
    {machine : SenderStateMachine} {packet : Packet} {returned : Option Bool}
    (sending : t.machine.Sending f (machine, packet, returned)) :
    machine.filePosition.toNat ≤ file.length ∨
      (file.length < mmsBytes ∧ machine.message.good = false) := by
  have hgood := InputStream.good_eq_true.mpr (readable_of_canSend admitted)
  have hoffset := h.offset_eq running hgood
  have hplace := h.place_of_good hgood
  have hlen : (t.machine.message.chunk mmsBytes).length =
      min mmsBytes (file.length - t.machine.message.offset) := by
    rw [InputStream.length_chunk, h.content]
  cases sending with
  | full whole sent _ =>
    apply Or.inl
    dsimp only
    have hadd := @toNat_add_toWord t.machine.filePosition (strlen (t.machine.chunkMemory f) - 2)
    rw [measured whole] at hadd ⊢
    unfold mmsBytes at whole hlen hadd ⊢
    omega
  | refused whole error => exact Or.inl hplace
  | short rest =>
    by_cases hsmall : file.length < mmsBytes
    · exact Or.inr ⟨hsmall, by simp [SenderStateMachine.afterChunk, rest]⟩
    · -- the last chunk starts behind the first byte, and two bytes are taken off its end
      apply Or.inl
      have hreported := reported_short (f := f) (h.content ▸ noNul) rest
      have hadd := @toNat_add_toWord t.machine.filePosition
        (SenderStateMachine.reported f (t.machine.chunkMemory f))
      dsimp only
      rw [hreported] at hadd ⊢
      unfold mmsBytes at *
      cases hthrows : f.throws with
      | true =>
        simp only [hthrows, if_true] at hadd ⊢
        omega
      | false =>
        simp only [hthrows, if_false, Bool.false_eq_true] at hadd ⊢
        omega

/-- Receiving stays within the file. -/
theorem Faithful.receive (h : Faithful file t) (hpos : 1 ≤ t.machine.ackedPosition.toNat)
    (hacked : t.machine.ackedPosition.toNat ≤ file.length + 1) (running : t.returned = none)
    {recv : Option Packet} {f : Frame} {outcome : Outcome}
    (reaction : t.machine.Reaction f recv outcome) :
    outcome.machine.filePosition.toNat ≤ file.length ∨
      (file.length < mmsBytes ∧ outcome.machine.message.good = false) := by
  have hsub : (t.machine.ackedPosition - 1).toNat = t.machine.ackedPosition.toNat - 1 :=
    toNat_sub_one hpos
  cases reaction with
  | timeout =>
    apply Or.inl
    change (t.machine.ackedPosition - 1).toNat ≤ file.length
    omega
  | resent recv third sent measured =>
    dsimp only
    rw [h.startPosition_eq running, toWord_asInt]
    rcases h.place with hplace | ⟨hsmall, -⟩
    · exact Or.inl hplace
    · refine Or.inr ⟨hsmall, ?_⟩
      have hshort : t.machine.missingChunk.length < mmsBytes := by
        rw [h.reads.missingChunk_eq, List.length_take, List.length_drop]
        omega
      have hfailed : (t.machine.missingSegment.read mmsBytes).2.failed = true := by
        have := SenderStateMachine.good_missingSegment (s := t.machine)
        rw [decide_eq_true hshort] at this
        simpa using this
      rw [InputStream.seekg_of_failed hfailed]
      simpa using hfailed
  | refused recv third error notAcked =>
    apply Or.inl
    change (t.machine.ackedPosition - 1).toNat ≤ file.length
    omega
  | advance recv new growth =>
    change _ ∨ (_ ∧ (t.machine.forwarded recv).good = false)
    rw [SenderStateMachine.good_forwarded]
    exact h.place
  | _ => exact h.place

/-- A turn that keeps the sender's two places together keeps the sender faithful. -/
theorem Faithful.step (h : Faithful file t) (hstep : t.step turn = some next)
    (noNul : NoNul file) (bound : file.length < 2 ^ 31 - 1)
    (hpos : 1 ≤ t.machine.ackedPosition.toNat)
    (hacked : t.machine.ackedPosition.toNat ≤ file.length + 1) (measured : t.Measured turn)
    (keeps : t.KeepsPlace turn) : Faithful file next := by
  have hsync := (synchronised_step h.synchronised hpos measured hstep).mpr keeps
  have hreads := readsFrom_step h.reads hstep
  obtain ⟨running, hmove⟩ := step_cases hstep
  cases hmove with
  | send f admitted sending =>
    have hplace := h.send noNul bound running admitted measured sending
    exact ⟨hreads.content, hreads.fileName, hsync, hplace⟩
  | receive recv f waiting reaction =>
    have hplace := h.receive hpos hacked running reaction
    exact ⟨hreads.content, hreads.fileName, hsync, hplace⟩

/-- Sending within the file never takes the file position beyond a word. -/
theorem Faithful.keepsPlace_send (h : Faithful file t) (bound : file.length < 2 ^ 31 - 1)
    {f : Frame} (hstep : t.step (.send f) = some next) : t.KeepsPlace (.send f) := by
  obtain ⟨-, hmove⟩ := step_cases hstep
  cases hmove with
  | send f admitted sending =>
    have hplace := h.place_of_good (InputStream.good_eq_true.mpr (readable_of_canSend admitted))
    exact ⟨by omega, fun _ _ => by unfold mmsBytes; omega⟩

/-- `transmit` returns successfully only on an acknowledgement that closes. -/
theorem closing_of_returned (hstep : t.step turn = some next) (h : next.returned = some true) :
    ∃ ack f, turn = .receive (some ack) f ∧ ack.fin = true := by
  obtain ⟨-, hmove⟩ := step_cases hstep
  cases hmove with
  | send f admitted sending => cases sending <;> exact nomatch h
  | receive recv f waiting reaction =>
    cases reaction with
    | final recv ack fin => exact ⟨recv, f, rfl, fin⟩
    | _ => exact nomatch h

theorem faithful_start (caAckCount : ℤ) (file : List UInt8) :
    Faithful file (start caAckCount true (some file)) :=
  ⟨rfl, rfl, synchronised_start caAckCount true (some file), Or.inl (Nat.zero_le _)⟩

end Transmission

namespace Transfer

/-- A full chunk that the sender sends is measured right. -/
def Measured (t : Transfer) : Event → Prop
  | .send f => t.sender.Measured (.send f)
  | _ => True

/-- No new acknowledgement moves the sender's stream forward. -/
def KeepsStream (t : Transfer) : Event → Prop
  | .ackArrives index f =>
    match deliver index t.acks with
    | some (ack, _) => t.sender.KeepsPlace (.receive (some ack) f)
    | none => True
  | _ => True

/-- Both parties and everything between them are in order. -/
structure Intact (file : List UInt8) (t : Transfer) : Prop where
  behind : t.Behind
  closesComplete : t.ClosesComplete
  faithful : t.sender.Faithful file
  reassembled : t.receiver.Reassembled file
  labelled : ∀ packet ∈ t.packets, packet.Labelled file
  returned : t.sender.returned = some true → t.receiver.fin = true

/-- What the receiver holds is the beginning of the file, and all of it once either
party has returned successfully. -/
def Received (file : List UInt8) (t : Transfer) : Prop :=
  t.receiver.recvData <+: file ∧
    (t.sender.returned = some true ∨ t.receiver.fin = true → t.receiver.recvData = file)

instance (t : Transfer) : ∀ event, Decidable (t.Measured event)
  | .send f => inferInstanceAs (Decidable (t.sender.Measured (.send f)))
  | .timeout _ => instDecidableTrue
  | .ackArrives _ _ => instDecidableTrue
  | .packetArrives _ _ _ _ => instDecidableTrue
  | .packetFault _ => instDecidableTrue
  | .ackFault _ => instDecidableTrue

instance (t : Transfer) : ∀ event, Decidable (t.KeepsStream event)
  | .ackArrives index f =>
    match h : deliver index t.acks with
    | some (ack, rest) =>
      decidable_of_iff (t.sender.KeepsPlace (.receive (some ack) f)) (by simp [KeepsStream, h])
    | none => isTrue (by simp [KeepsStream, h])
  | .send _ => instDecidableTrue
  | .timeout _ => instDecidableTrue
  | .packetArrives _ _ _ _ => instDecidableTrue
  | .packetFault _ => instDecidableTrue
  | .ackFault _ => instDecidableTrue

variable {t next : Transfer} {event : Event}

theorem Intact.received (h : t.Intact file) : t.Received file := by
  refine ⟨h.reassembled.stored, fun hdone => h.reassembled.recvData_eq ?_⟩
  rcases hdone with hreturned | hfin
  · exact h.returned hreturned
  · exact hfin

/-- What is in flight after a turn of the sender. -/
theorem Intact.labelled_turn (h : t.Intact file) (noNul : NoNul file)
    (bound : file.length < 2 ^ 31 - 1) {turn : Turn} {sender : Transmission}
    (hturn : t.sender.step turn = some sender) :
    ∀ packet ∈ t.packets ++ t.sender.wire turn, packet.Labelled file := by
  have hstored := h.reassembled.stored.length_le
  have hacked := h.behind.acked
  intro packet hpacket
  rcases List.mem_append.mp hpacket with hold | hnew
  · exact h.labelled packet hold
  · exact h.faithful.labelled noNul bound h.behind.acked_pos (by omega) hturn hnew

/-- A step that does not move the sender's stream forward keeps everything in order. -/
theorem Intact.step (h : t.Intact file) (noNul : NoNul file) (bound : file.length < 2 ^ 31 - 1)
    (measured : t.Measured event) (keeps : t.KeepsStream event)
    (hstep : t.step event = some next) : next.Intact file := by
  have hcloses := closesComplete_step h.closesComplete hstep
  have hpos := h.behind.acked_pos
  have hacked : t.sender.machine.ackedPosition.toNat ≤ file.length + 1 :=
    h.behind.acked.trans (Nat.succ_le_succ h.reassembled.stored.length_le)
  have hbehind : next.receiver.Reassembled file → next.Behind := fun hnext =>
    behind_step h.behind (hnext.stored.length_le.trans_lt bound) hstep
  have hcases := step_cases hstep
  cases hcases with
  | send f turn =>
    have hkeeps := h.faithful.keepsPlace_send bound turn
    refine ⟨hbehind h.reassembled, hcloses, ?_, h.reassembled,
      h.labelled_turn noNul bound turn, ?_⟩
    · exact h.faithful.step turn noNul bound hpos hacked measured hkeeps
    · intro hreturned
      obtain ⟨ack, f', hturn, -⟩ := Transmission.closing_of_returned turn hreturned
      exact nomatch hturn
  | timeout f turn =>
    refine ⟨hbehind h.reassembled, hcloses, ?_, h.reassembled,
      h.labelled_turn noNul bound turn, ?_⟩
    · exact h.faithful.step turn noNul bound hpos hacked trivial trivial
    · intro hreturned
      obtain ⟨ack, f', hturn, -⟩ := Transmission.closing_of_returned turn hreturned
      exact nomatch hturn
  | ackArrives index f delivered turn =>
    simp only [KeepsStream, delivered] at keeps
    refine ⟨hbehind h.reassembled, hcloses, ?_, h.reassembled,
      h.labelled_turn noNul bound turn, ?_⟩
    · exact h.faithful.step turn noNul bound hpos hacked trivial keeps
    · intro hreturned
      obtain ⟨ack, f', hturn, hfin⟩ := Transmission.closing_of_returned turn hreturned
      obtain ⟨rfl, -⟩ : _ = ack ∧ _ := by simpa using hturn
      -- the acknowledgement was in flight, and only a complete receiver closes
      exact h.closesComplete _ (mem_of_deliver delivered) hfin
  | packetArrives index behind stray throws running delivered =>
    have hlabelled := h.labelled _ (mem_of_deliver delivered)
    have hpass := (h.reassembled.receiveStep (a := ⟨_, 112, behind, stray, throws⟩) noNul bound
      hlabelled).1
    refine ⟨hbehind hpass, hcloses, h.faithful, hpass, fun packet hpacket => ?_,
      fun hreturned => ?_⟩
    · exact h.labelled packet (mem_rest_of_deliver delivered hpacket)
    · exact absurd (running.symm.trans (h.returned hreturned)) Bool.false_ne_true
  | packetFault fault =>
    exact ⟨hbehind h.reassembled, hcloses, h.faithful, h.reassembled,
      fun packet hpacket => h.labelled packet (mem_of_mem_apply hpacket), h.returned⟩
  | ackFault fault =>
    exact ⟨hbehind h.reassembled, hcloses, h.faithful, h.reassembled, h.labelled, h.returned⟩

theorem intact_start (caAckCount : ℤ) (file : List UInt8) (pattern : LossPattern) :
    (start caAckCount true (some file) pattern).Intact file where
  behind := behind_start caAckCount true (some file) pattern
  closesComplete := fun _ h => absurd h List.not_mem_nil
  faithful := Transmission.faithful_start caAckCount file
  reassembled := ReceiverStateMachine.reassembled_construct file pattern
  labelled := fun _ h => absurd h List.not_mem_nil
  returned := fun h => nomatch h

/-- **Integrity.** A file without zero bytes goes over a network that loses,
duplicates, delays and reorders at will, with timeouts at any moment: in every run in
which no new acknowledgement moves the sender's stream forward, the receiver holds a
prefix of the file at every moment, and all of it once either party has returned
successfully. -/
theorem transfer_received (caAckCount : ℤ) (pattern : LossPattern) (noNul : NoNul file)
    (bound : file.length < 2 ^ 31 - 1) (events : List Event)
    (measured : AllSteps step Measured (start caAckCount true (some file) pattern) events)
    (keeps : AllSteps step KeepsStream (start caAckCount true (some file) pattern) events) :
    AllStates step (Received file) (start caAckCount true (some file) pattern) events := by
  have hintact : AllStates step (Intact file) (start caAckCount true (some file) pattern) events :=
    allStates_of_allSteps (intact_start caAckCount file pattern)
      (fun _ _ _ h hcond hstep => h.step noNul bound hcond.1 hcond.2 hstep) (measured.and keeps)
  exact hintact.mono fun _ h => h.received

/-- A duplicated packet, a timeout and the acknowledgement of the first copy. -/
theorem transfer_received_duplicate :
    AllStates step (Received [97, 98, 99]) (start 0 true (some [97, 98, 99]) .none)
      [.send .usual, .packetFault (.duplicate 0), .packetArrives 1 [] 0 false, .timeout .usual,
        .send .usual, .ackArrives 0 .usual] :=
  transfer_received 0 .none (by decide) (by decide) _ (by decide +kernel) (by decide +kernel)

/-- The acknowledgement of three segments overtaken by a timeout arrives when one of
them has been sent again; of the two segments that follow, the second is stored where
the first belongs. -/
def overtakenByTimeout : List Event :=
  [.send .usual, .packetArrives 0 [] 0 false, .ackArrives 0 .usual,
    .send .usual, .send .usual, .packetArrives 0 [] 0 false, .packetArrives 0 [] 0 false,
    .timeout .usual, .send .usual, .ackArrives 1 .usual, .send .usual, .send .usual,
    .packetArrives 2 [] 0 false]

/-- The receiver holds the first 300 bytes and then the fifth hundred. -/
theorem overtakenByTimeout_corrupts :
    AllSteps step Measured (start 0 true (some Transmission.sixSegments) .none)
        overtakenByTimeout ∧
      ¬ AllStates step (Received Transmission.sixSegments)
        (start 0 true (some Transmission.sixSegments) .none) overtakenByTimeout := by
  have hend : (run step (start 0 true (some Transmission.sixSegments) .none)
      overtakenByTimeout).map (fun t => decide (t.receiver.recvData <+: Transmission.sixSegments)) =
        some false := by
    decide +kernel
  refine ⟨by decide +kernel, not_allStates_of_run hend fun t hlast hreceived => ?_⟩
  exact of_decide_eq_false hlast hreceived.1

end Transfer

end Comnet.MP2
