/-
# How far a transfer can go wrong

A transfer whose stream has been moved forward stores bytes where they do not belong. They are
still bytes of the file, in the chunks that the sender reads: whatever the network and the timer
do, nothing else is ever stored. And the sender has to go back for the stream to be moved: as
long as no timer expires and no third duplicate is counted, the receiver holds a prefix of the
file, however the network loses, duplicates and reorders.
-/

import Comnet.Foundations.Queue
import Comnet.MP2.Exchange
import Comnet.MP2.Integrity
import Comnet.MP2.Positions

set_option autoImplicit false

namespace Comnet.MP2

open Foundations

variable {file : List UInt8}

/-! ## Only chunks of the file are stored -/

/-- What a read of a chunk finds at an offset. -/
def chunkAt (file : List UInt8) (offset : ℕ) : List UInt8 := (file.drop offset).take mmsBytes

/-- Some bytes are a chunk of the file, the last one if they are flagged. -/
def IsChunkOf (file bytes : List UInt8) (fin : Bool) : Prop :=
  ∃ offset, bytes = chunkAt file offset ∧ (fin = true → file.length < offset + mmsBytes)

/-- Some bytes are chunks of the file one after the other, the last one of the file among them
if they are flagged. -/
def AreChunksOf (file bytes : List UInt8) (fin : Bool) : Prop :=
  ∃ offsets : List ℕ, bytes = offsets.flatMap (chunkAt file) ∧
    (fin = true → ∃ offset ∈ offsets, file.length < offset + mmsBytes)

theorem noNul_chunkAt (noNul : NoNul file) (offset : ℕ) : NoNul (chunkAt file offset) :=
  noNul.sublist ((List.take_sublist _ _).trans (List.drop_sublist _ _))

theorem IsChunkOf.noNul {bytes : List UInt8} {fin : Bool} (h : IsChunkOf file bytes fin)
    (noNul : NoNul file) : NoNul bytes := by
  obtain ⟨offset, rfl, -⟩ := h
  exact noNul_chunkAt noNul offset

/-- A chunk more. -/
theorem AreChunksOf.append {bytes chunk : List UInt8} {fin last : Bool}
    (h : AreChunksOf file bytes fin) (hchunk : IsChunkOf file chunk last) :
    AreChunksOf file (bytes ++ chunk) (fin || last) := by
  obtain ⟨offsets, rfl, hfin⟩ := h
  obtain ⟨offset, rfl, hlast⟩ := hchunk
  refine ⟨offsets ++ [offset], by simp, fun hclose => ?_⟩
  rcases Bool.or_eq_true_iff.mp hclose with hclose | hclose
  · obtain ⟨other, hother, hend⟩ := hfin hclose
    exact ⟨other, List.mem_append_left _ hother, hend⟩
  · exact ⟨offset, by simp, hlast hclose⟩

/-- A packet carries a chunk of the file. -/
structure Packet.Carries (file : List UInt8) (packet : Packet) : Prop where
  dataLen_le : packet.dataLen.toNat ≤ 100
  isChunk : IsChunkOf file packet.payload packet.fin

/-- A packet with the bytes at an offset of the file carries them. -/
theorem carries_dataPacket {offset : ℕ} {seqNum : UInt32} {bytes rest : List UInt8} {fin : Bool}
    (noNul : NoNul file) (hbytes : bytes = chunkAt file offset)
    (hfin : fin = true → bytes.length < mmsBytes) :
    (SenderStateMachine.dataPacket seqNum bytes (bytes ++ rest) fin).Carries file := by
  have hlength : bytes.length = min mmsBytes (file.length - offset) := by
    rw [hbytes, chunkAt, List.length_take, List.length_drop]
  have hle : bytes.length ≤ mmsBytes := hlength ▸ Nat.min_le_left _ _
  have hcount : (UInt16.ofNat bytes.length).toNat = bytes.length :=
    SenderStateMachine.toNat_dataLen hle
  refine ⟨hcount.le.trans hle, offset, ?_, fun hclose => ?_⟩
  · have hbytesNul : NoNul bytes := hbytes ▸ noNul_chunkAt noNul offset
    rw [SenderStateMachine.payload_dataPacket hbytesNul hle, hbytes]
  · have hshort := hfin hclose
    omega

namespace ReceiverStateMachine

/-- The receiver has stored and buffered only chunks of the file. -/
structure InChunks (file : List UInt8) (s : ReceiverStateMachine) : Prop where
  stored : AreChunksOf file s.recvData s.fin
  buffered : ∀ (key : ℤ) (early : List UInt8 × Bool), s.buffer[key]? = some early →
    IsChunkOf file early.1 early.2

variable {s : ReceiverStateMachine} {packet : Packet} {early : List UInt8 × Bool}

theorem inChunks_construct (file : List UInt8) (pattern : LossPattern) :
    (construct pattern).InChunks file where
  stored := ⟨[], rfl, fun h => nomatch h⟩
  buffered := by simp [construct]

theorem InChunks.takeEarly (h : s.InChunks file)
    (hfind : s.buffer[s.ackedPosition + 1]? = some early) : (s.takeEarly early).InChunks file := by
  refine ⟨?_, fun key other hother => ?_⟩
  · rw [takeEarly_recvData, takeEarly_fin]
    exact h.stored.append (h.buffered _ _ hfind)
  · rw [getElem?_takeEarly] at hother
    split_ifs at hother
    exact h.buffered key other hother

/-- An early segment is kept whole. -/
theorem InChunks.storeEarlyData (h : s.InChunks file) (noNul : NoNul file)
    (carries : packet.Carries file) (behind : List UInt8) :
    (s.storeEarlyData (asInt packet.seqNum) (packet.data ++ behind) packet.dataLen.toNat
      packet.fin).InChunks file := by
  refine ⟨h.stored, fun key early hearly => ?_⟩
  change (s.buffer.insert _ _)[key]? = some early at hearly
  rw [Std.ExtTreeMap.getElem?_insert,
    Packet.bytesAt_cString_data carries.dataLen_le (carries.isChunk.noNul noNul)] at hearly
  split_ifs at hearly
  · obtain rfl := Option.some.inj hearly
    exact carries.isChunk
  · exact h.buffered key early hearly

/-- The segment expected is appended whole. -/
theorem InChunks.processPacket (h : s.InChunks file) (carries : packet.Carries file)
    (behind : List UInt8) : (s.processPacket packet behind).InChunks file := by
  have hdata : (s.processPacket packet behind).recvData = s.recvData ++ packet.payload := by
    rw [← Packet.bytesAt_data carries.dataLen_le behind]
    rfl
  exact ⟨hdata ▸ h.stored.append carries.isChunk, h.buffered⟩

theorem InChunks.receiveStep (h : s.InChunks file) (noNul : NoNul file) {a : Arrival}
    (carries : a.packet.Carries file) : (s.receiveStep a).1.InChunks file := by
  have hcounted : (s.receivePacket a).1.InChunks file := ⟨h.stored, h.buffered⟩
  by_cases hdrop : (s.toLossFilter.count a).2 = -1
  · rw [receiveStep_of_drop hdrop]
    exact hcounted
  · rw [receiveStep_of_pass hdrop]
    exact handle_rule a.packet a.behind hcounted (hcounted.storeEarlyData noNul carries a.behind)
      (hcounted.processPacket carries a.behind) fun _ _ hs hfind => hs.takeEarly hfind

end ReceiverStateMachine

/-- Whatever a sender of the file puts in flight carries a chunk of it. -/
theorem Transmission.carries_wire {t next : Transmission} {turn : Turn} {packet : Packet}
    (hreads : t.machine.ReadsFrom file) (noNul : NoNul file) (hstep : t.step turn = some next)
    (hpacket : packet ∈ t.wire turn) : packet.Carries file := by
  rcases mem_wire hstep hpacket with ⟨f, rfl, -, rfl⟩ | ⟨recv, f, rfl, rfl⟩
  · have hmemory : t.machine.chunkMemory f = t.machine.message.chunk mmsBytes ++
        (List.replicate (mmsBytes - (t.machine.message.chunk mmsBytes).length) 0 ++ f.behind) := by
      rw [SenderStateMachine.chunkMemory, overwrite_replicate, List.append_assoc]
    have hbytes : t.machine.message.chunk mmsBytes = chunkAt file t.machine.message.offset := by
      rw [InputStream.chunk, hreads.content, chunkAt]
    unfold SenderStateMachine.nextPacket
    rw [hmemory]
    exact carries_dataPacket noNul hbytes (fun hfin => by simpa using hfin)
  · unfold SenderStateMachine.missingPacket SenderStateMachine.missingMemory overwrite
    rw [List.append_assoc]
    exact carries_dataPacket noNul hreads.missingChunk_eq (fun hfin => by simpa using hfin)

namespace Transfer

/-- Everything that is sent, in flight, buffered or stored are chunks of the file. -/
structure Contents (file : List UInt8) (t : Transfer) : Prop where
  reads : t.sender.machine.ReadsFrom file
  receiver : t.receiver.InChunks file
  packets : ∀ packet ∈ t.packets, packet.Carries file
  closesComplete : t.ClosesComplete
  returned : t.sender.returned = some true → t.receiver.fin = true

variable {t next : Transfer} {event : Event}

theorem contents_start (caAckCount : ℤ) (file : List UInt8) (pattern : LossPattern) :
    (start caAckCount true (some file) pattern).Contents file where
  reads := ⟨rfl, rfl⟩
  receiver := ReceiverStateMachine.inChunks_construct file pattern
  packets := fun _ h => absurd h List.not_mem_nil
  closesComplete := fun _ h => absurd h List.not_mem_nil
  returned := fun h => nomatch h

/-- What is in flight after a turn of the sender. -/
theorem Contents.packets_turn (h : t.Contents file) (noNul : NoNul file) {turn : Turn}
    {sender : Transmission} (hturn : t.sender.step turn = some sender) :
    ∀ packet ∈ t.packets ++ t.sender.wire turn, packet.Carries file := by
  intro packet hpacket
  rcases List.mem_append.mp hpacket with hold | hnew
  · exact h.packets packet hold
  · exact Transmission.carries_wire h.reads noNul hturn hnew

/-- No step, whichever it is, brings in a byte from elsewhere. -/
theorem Contents.step (h : t.Contents file) (noNul : NoNul file)
    (hstep : t.step event = some next) : next.Contents file := by
  have hcloses := closesComplete_step h.closesComplete hstep
  have hcases := step_cases hstep
  cases hcases with
  | send f turn =>
    refine ⟨Transmission.readsFrom_step h.reads turn, h.receiver, h.packets_turn noNul turn,
      hcloses, fun hreturned => ?_⟩
    obtain ⟨ack, f', hturn, -⟩ := Transmission.closing_of_returned turn hreturned
    exact nomatch hturn
  | timeout f turn =>
    refine ⟨Transmission.readsFrom_step h.reads turn, h.receiver, h.packets_turn noNul turn,
      hcloses, fun hreturned => ?_⟩
    obtain ⟨ack, f', hturn, -⟩ := Transmission.closing_of_returned turn hreturned
    exact nomatch hturn
  | ackArrives index f delivered turn =>
    -- only here can the sender return successfully, and what closes it comes from the receiver
    refine ⟨Transmission.readsFrom_step h.reads turn, h.receiver, h.packets_turn noNul turn,
      hcloses, fun hreturned => ?_⟩
    obtain ⟨ack, f', hturn, hfin⟩ := Transmission.closing_of_returned turn hreturned
    obtain ⟨rfl, -⟩ : _ = ack ∧ _ := by simpa using hturn
    exact h.closesComplete _ (mem_of_deliver delivered) hfin
  | packetArrives index behind stray throws running delivered =>
    have hcarries := h.packets _ (mem_of_deliver delivered)
    refine ⟨h.reads, h.receiver.receiveStep noNul hcarries, fun packet hpacket => ?_, hcloses,
      fun hreturned => ?_⟩
    · exact h.packets packet (mem_rest_of_deliver delivered hpacket)
    · exact absurd (running.symm.trans (h.returned hreturned)) Bool.false_ne_true
  | packetFault fault =>
    exact ⟨h.reads, h.receiver, fun packet hpacket => h.packets packet (mem_of_mem_apply hpacket),
      hcloses, h.returned⟩
  | ackFault fault => exact ⟨h.reads, h.receiver, h.packets, hcloses, h.returned⟩

/-- **Containment.** Whatever the network, the timer and the memory on the stack do, also when
the stream is moved forward: what the receiver holds are chunks of the file one after the other,
and neither party returns successfully before a chunk that reaches the end of the file is
among them. -/
theorem received_areChunks (caAckCount : ℤ) (pattern : LossPattern) (noNul : NoNul file)
    (events : List Event) (t : Transfer)
    (hrun : run step (start caAckCount true (some file) pattern) events = some t) :
    ∃ offsets : List ℕ, t.receiver.recvData = offsets.flatMap (chunkAt file) ∧
      (t.sender.returned = some true ∨ t.receiver.fin = true →
        ∃ offset ∈ offsets, file.length < offset + mmsBytes) := by
  have hcontents : t.Contents file := invariant_run (contents_start caAckCount file pattern)
    (fun _ _ _ h hstep => h.step noNul hstep) hrun
  obtain ⟨offsets, hdata, hfin⟩ := hcontents.receiver.stored
  refine ⟨offsets, hdata, fun hdone => hfin ?_⟩
  rcases hdone with hreturned | hfin
  · exact hcontents.returned hreturned
  · exact hfin

/-- The transfer that stores the fifth hundred bytes behind the third. -/
theorem received_areChunks_overtaken :
    let t := (run step (start 0 true (some Transmission.sixSegments) .none)
      overtakenByTimeout).get (by decide +kernel)
    ∃ offsets : List ℕ,
      t.receiver.recvData = offsets.flatMap (chunkAt Transmission.sixSegments) ∧
      (t.sender.returned = some true ∨ t.receiver.fin = true →
        ∃ offset ∈ offsets, Transmission.sixSegments.length < offset + mmsBytes) :=
  received_areChunks 0 .none (by decide +kernel) overtakenByTimeout _ (Option.some_get _).symm

end Transfer

/-! ## As long as the sender never goes back -/

theorem Packet.Within.mono {packet : Packet} {size larger : ℕ} (h : packet.Within size)
    (hle : size ≤ larger) : packet.Within larger :=
  ⟨h.seqNum_pos, h.within.trans hle⟩

theorem ReceiverStateMachine.Bounded.mono {s : ReceiverStateMachine} {size larger : ℕ}
    (h : s.Bounded size) (hle : size ≤ larger) : s.Bounded larger where
  position := h.position
  stored := h.stored.trans hle
  buffered := fun key early hfind =>
    (h.buffered key early hfind).trans (Nat.cast_le.mpr hle)

/-- An acknowledgement that is no third duplicate leaves the file position and what has been
handed to `sendTo`, and a stream stays readable or not. -/
theorem Transmission.receive_goesOn {s next : Transmission} {ack : Packet} {f : Frame}
    (onward : ¬ s.machine.ThirdDuplicate ack)
    (hstep : s.step (.receive (some ack) f) = some next) :
    next.machine.filePosition = s.machine.filePosition ∧ next.handed = s.handed ∧
      next.machine.message.good = s.machine.message.good := by
  obtain ⟨-, hmove⟩ := step_cases hstep
  cases hmove with
  | receive recv f waiting reaction =>
    cases reaction with
    | resent recv third sent measured => exact absurd third onward
    | refused recv third error notAcked => exact absurd third onward
    | advance recv new growth => exact ⟨rfl, rfl, SenderStateMachine.good_forwarded _⟩
    | _ => exact ⟨rfl, rfl, rfl⟩

namespace Transfer

/-- Nothing sends the sender back: neither the timer nor a third duplicate. -/
def GoesOn (t : Transfer) : Event → Prop
  | .timeout _ => False
  | .ackArrives index _ =>
    match deliver index t.acks with
    | some (ack, _) => ¬ t.sender.machine.ThirdDuplicate ack
    | none => True
  | _ => True

instance (t : Transfer) : ∀ event, Decidable (t.GoesOn event)
  | .timeout _ => instDecidableFalse
  | .ackArrives index f =>
    match h : deliver index t.acks with
    | some (ack, rest) =>
      decidable_of_iff (¬ t.sender.machine.ThirdDuplicate ack) (by simp [GoesOn, h])
    | none => isTrue (by simp [GoesOn, h])
  | .send _ => instDecidableTrue
  | .packetArrives _ _ _ _ => instDecidableTrue
  | .packetFault _ => instDecidableTrue
  | .ackFault _ => instDecidableTrue

/-- What has been handed to `sendTo` are the chunks of the file in their order, each once. -/
def SentOnce (file : List UInt8) (t : Transfer) : Prop :=
  Numbered (IsChunk file) 0 (t.sender.handed.map (·.packet)).reverse

variable {t next : Transfer} {event : Event}

/-- While the sender can read on, the file position is ahead of everything in flight and at the
receiver, behind the chunks sent. -/
structure Leads (file : List UInt8) (t : Transfer) : Prop where
  position : t.sender.returned = none → t.sender.machine.message.good = true →
    t.sender.machine.filePosition.toNat = mmsBytes * t.sender.handed.length
  receiver : t.sender.returned = none → t.sender.machine.message.good = true →
    t.receiver.Bounded t.sender.machine.filePosition.toNat
  packets : t.sender.returned = none → t.sender.machine.message.good = true →
    ∀ packet ∈ t.packets, packet.Within t.sender.machine.filePosition.toNat
  sentOnce : t.SentOnce file

theorem leads_start (caAckCount : ℤ) (file : List UInt8) (pattern : LossPattern) :
    (start caAckCount true (some file) pattern).Leads file where
  position := fun _ _ => rfl
  receiver := fun _ _ => ReceiverStateMachine.bounded_construct _ pattern
  packets := fun _ _ _ h => absurd h List.not_mem_nil
  sentOnce := trivial

/-- A stream that leads is not moved by an acknowledgement. -/
theorem Leads.keepsStream (h : t.Leads file) (intact : t.Intact file)
    (hstep : t.step event = some next) : t.KeepsStream event := by
  have hcases := step_cases hstep
  cases hcases with
  | @ackArrives index f ack rest delivered sender turn =>
    have hrunning := (Transmission.step_cases turn).1
    simp only [KeepsStream, delivered]
    rintro - hgood ⟨-, hless⟩
    have hack := intact.behind.inFlight _ (mem_of_deliver delivered)
    have hstored := (h.receiver hrunning hgood).stored
    have hoffset := intact.faithful.offset_eq hrunning hgood
    -- an acknowledgement is of bytes received, and these lie before where the stream reads
    omega
  | _ => trivial

/-- A round of the inner loop moves the file position behind the chunk that it sends. -/
theorem Leads.send (h : t.Leads file) (intact : t.Intact file) (noNul : NoNul file)
    (bound : file.length < 2 ^ 31 - 1)
    {f : Frame} {sender : Transmission} (turn : t.sender.step (.send f) = some sender)
    (faithful : sender.Faithful file) :
    Leads file { t with sender := sender, packets := t.packets ++ t.sender.wire (.send f) } := by
  obtain ⟨hrunning, hmove⟩ := Transmission.step_cases turn
  cases hmove with
  | @send f admitted machine returned sending =>
    have hgood := InputStream.good_eq_true.mpr (Transmission.readable_of_canSend admitted)
    have hposition := h.position hrunning hgood
    have hplace := intact.faithful.place_of_good hgood
    have hread : t.sender.machine.message.offset = t.sender.machine.filePosition.toNat :=
      intact.faithful.offset_eq hrunning hgood
    have hnumber : (t.sender.machine.filePosition + 1).toNat =
        t.sender.machine.filePosition.toNat + 1 :=
      (@toNat_add_ofNat t.sender.machine.filePosition 1 (by decide)).mpr (by omega)
    have hsent : SentOnce file { t with
        sender := ⟨machine, returned,
          ⟨t.sender.machine.nextPacket f, some t.sender.machine.message.offset⟩ ::
            t.sender.handed, (t.sender.machine.filePosition + 1) :: t.sender.sinceTimeout⟩
        packets := t.packets ++ t.sender.wire (.send f) } := by
      unfold SentOnce
      rw [List.map_cons, List.reverse_cons, numbered_concat, List.length_reverse,
        List.length_map, Nat.zero_add]
      exact ⟨h.sentOnce, isChunk_nextPacket noNul bound intact.faithful.content
        (hread.trans hposition) hposition (hposition ▸ hplace)⟩
    cases sending with
    | full whole sent measured =>
      have hoffset := faithful.offset_eq rfl (by simp [SenderStateMachine.afterChunk, whole])
      have hafter : (t.sender.machine.filePosition +
          toWord (strlen (t.sender.machine.chunkMemory f) - 2)).toNat =
            t.sender.machine.filePosition.toNat + mmsBytes := by
        rw [← hoffset, ← hread]
        exact congrArg (t.sender.machine.message.offset + ·) whole
      refine ⟨fun _ _ => ?_, fun _ _ => ?_, fun _ _ packet hpacket => ?_, hsent⟩
      · change (_ : UInt32).toNat = mmsBytes * (t.sender.handed.length + 1)
        rw [hafter, hposition, Nat.mul_succ]
      · change t.receiver.Bounded (_ : UInt32).toNat
        rw [hafter]
        exact (h.receiver hrunning hgood).mono (Nat.le_add_right _ _)
      · rw [hafter]
        rcases List.mem_append.mp hpacket with hold | hnew
        · exact (h.packets hrunning hgood packet hold).mono (Nat.le_add_right _ _)
        · rcases Transmission.mem_wire turn hnew with ⟨f', hturn, -, rfl⟩ | ⟨recv, f', hturn, -⟩
          · refine Packet.within_dataPacket ?_ ?_ SenderStateMachine.length_chunk_le
            · omega
            · omega
          · exact Turn.noConfusion hturn
    | refused whole error =>
      have hreturned : ¬ some false = (none : Option Bool) := Option.some_ne_none false
      exact ⟨fun h => absurd h hreturned, fun h => absurd h hreturned,
        fun h => absurd h hreturned, hsent⟩
    | short rest =>
      have hfailed : ¬ t.sender.machine.afterChunk.good = true := by
        simp [SenderStateMachine.afterChunk, rest]
      exact ⟨fun _ hgood => absurd hgood hfailed, fun _ hgood => absurd hgood hfailed,
        fun _ hgood => absurd hgood hfailed, hsent⟩

/-- A step that does not send the sender back keeps everything in order, with the file position
ahead. -/
theorem Leads.step (h : t.Leads file) (intact : t.Intact file) (noNul : NoNul file)
    (bound : file.length < 2 ^ 31 - 1) (measured : t.Measured event) (onward : t.GoesOn event)
    (hstep : t.step event = some next) : next.Intact file ∧ next.Leads file := by
  have hintact := intact.step noNul bound measured (h.keepsStream intact hstep) hstep
  refine ⟨hintact, ?_⟩
  have hcases := step_cases hstep
  cases hcases with
  | send f turn => exact h.send intact noNul bound turn hintact.faithful
  | timeout f turn => exact absurd onward id
  | @ackArrives index f ack rest delivered sender turn =>
    simp only [GoesOn, delivered] at onward
    have hrunning := (Transmission.step_cases turn).1
    obtain ⟨hposition, hhanded, hreadable⟩ := Transmission.receive_goesOn onward turn
    rw [Transmission.wire_of_not_third onward, List.append_nil]
    refine ⟨fun _ hgood => ?_, fun _ hgood => ?_, fun _ hgood => ?_, ?_⟩
    · dsimp only at hgood ⊢
      rw [hposition, hhanded]
      exact h.position hrunning (hreadable ▸ hgood)
    · dsimp only at hgood ⊢
      rw [hposition]
      exact h.receiver hrunning (hreadable ▸ hgood)
    · dsimp only at hgood ⊢
      rw [hposition]
      exact h.packets hrunning (hreadable ▸ hgood)
    · unfold SentOnce
      rw [hhanded]
      exact h.sentOnce
  | packetArrives index behind stray throws running delivered =>
    refine ⟨h.position, fun hreturned hgood => ?_, fun hreturned hgood packet hpacket => ?_,
      h.sentOnce⟩
    · have hplace := intact.faithful.place_of_good hgood
      have hwithin := h.packets hreturned hgood _ (mem_of_deliver delivered)
      exact (h.receiver hreturned hgood).receiveStep (a := ⟨_, 112, behind, stray, throws⟩)
        (hplace.trans_lt bound) hwithin
    · exact h.packets hreturned hgood packet (mem_rest_of_deliver delivered hpacket)
  | packetFault fault =>
    exact ⟨h.position, h.receiver, fun hreturned hgood packet hpacket =>
      h.packets hreturned hgood packet (mem_of_mem_apply hpacket), h.sentOnce⟩
  | ackFault fault => exact ⟨h.position, h.receiver, h.packets, h.sentOnce⟩

/-- A sender that never goes back is safe on any network. In every run in which no timer
expires and no third duplicate is counted, whatever is lost, duplicated or overtaken, the chunks
of the file are handed to `sendTo` in their order and each once, the receiver holds a prefix of
the file, and all of it once either party has returned successfully. -/
theorem received_of_goesOn (caAckCount : ℤ) (pattern : LossPattern) (noNul : NoNul file)
    (bound : file.length < 2 ^ 31 - 1) (events : List Event)
    (measured : AllSteps step Measured (start caAckCount true (some file) pattern) events)
    (onward : AllSteps step GoesOn (start caAckCount true (some file) pattern) events) :
    AllStates step (fun t => t.SentOnce file ∧ t.Received file)
      (start caAckCount true (some file) pattern) events := by
  have hleads : AllStates step (fun t => t.Intact file ∧ t.Leads file)
      (start caAckCount true (some file) pattern) events :=
    allStates_of_allSteps
      ⟨intact_start caAckCount file pattern, leads_start caAckCount file pattern⟩
      (fun _ _ _ h hcond hstep => h.2.step h.1 noNul bound hcond.1 hcond.2 hstep)
      (measured.and onward)
  exact hleads.mono fun _ h => ⟨h.2.sentOnce, h.1.received⟩

/-- Two segments overtake each other, one of them twice, and two acknowledgements are lost. -/
theorem received_of_goesOn_overtaking :
    AllStates step
      (fun t => t.SentOnce Transmission.sixSegments ∧ t.Received Transmission.sixSegments)
      (start 0 true (some Transmission.sixSegments) .none)
      [.send .usual, .packetArrives 0 [] 0 false, .ackArrives 0 .usual, .send .usual,
        .send .usual, .packetFault (.duplicate 1), .packetArrives 1 [] 0 false,
        .packetArrives 0 [] 0 false, .packetArrives 0 [] 0 false, .ackFault (.lose 0),
        .ackFault (.lose 0), .ackArrives 0 .usual, .send .usual] :=
  received_of_goesOn 0 .none (by decide +kernel) (by decide +kernel) _ (by decide +kernel)
    (by decide +kernel)

end Transfer

end Comnet.MP2
