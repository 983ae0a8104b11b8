/-
# What can still end well

A transfer can always still end well, as long as the sender is running and, if the receiver has
returned, an acknowledgement that closes the transfer is left in flight. It does not matter
what has happened before: segments under wrong numbers, memory that was sent along, a network that
has lost or kept whatever it liked. Where the packets that have arrived sat where the file puts
them, ending well delivers the file.
-/

import Comnet.MP2.Exchange
import Comnet.MP2.Integrity

set_option autoImplicit false

namespace Comnet.MP2

open Foundations

/-! ## The room that a run needs at the receiver -/

namespace ReceiverStateMachine

/-- What the receiver holds, or the file if that is more, and full segments for all that is
buffered come to so many bytes at most. -/
structure Roomy (file : List UInt8) (size : ℕ) (s : ReceiverStateMachine) : Prop where
  position : s.ackedPosition = s.recvData.length
  buffered : ∀ (key : ℤ) (early : List UInt8 × Bool), s.buffer[key]? = some early →
    early.1.length ≤ 100
  room : max s.recvData.length file.length + 100 * s.buffer.size ≤ size

variable {s : ReceiverStateMachine} {file : List UInt8} {size : ℕ} {early : List UInt8 × Bool}
  {packet : Packet}

theorem roomy_construct (file : List UInt8) (pattern : LossPattern) :
    (construct pattern).Roomy file file.length where
  position := rfl
  buffered := by simp [construct]
  room := by simp [construct]

theorem Roomy.mono (h : s.Roomy file size) {larger : ℕ} (hle : size ≤ larger) :
    s.Roomy file larger :=
  ⟨h.position, h.buffered, h.room.trans hle⟩

theorem Roomy.takeEarly (h : s.Roomy file size) (bound : size < 2 ^ 31 - 1)
    (hfind : s.buffer[s.ackedPosition + 1]? = some early) :
    (s.takeEarly early).Roomy file size := by
  have hpos := h.position
  have hroom := h.room
  have hshort := h.buffered _ _ hfind
  have hsize := size_takeEarly hfind
  refine ⟨?_, fun key other hother => ?_, ?_⟩
  · rw [takeEarly_ackedPosition, takeEarly_recvData, List.length_append,
      narrow_of_mem (by omega) (by omega), hpos, Nat.cast_add]
  · rw [getElem?_takeEarly] at hother
    split_ifs at hother
    exact h.buffered key other hother
  · rw [takeEarly_recvData, List.length_append]
    omega

theorem Roomy.checkEarlyData (h : s.Roomy file size) (bound : size < 2 ^ 31 - 1) :
    s.checkEarlyData.Roomy file size :=
  (checkEarlyData_rule h fun _ _ hs hfind => hs.takeEarly bound hfind).1

theorem Roomy.storeEarlyData (h : s.Roomy file size) (short : packet.dataLen.toNat ≤ 100)
    (behind : List UInt8) :
    (s.storeEarlyData (asInt packet.seqNum) (packet.data ++ behind) packet.dataLen.toNat
      packet.fin).Roomy file (size + 100) := by
  refine ⟨h.position, fun key early hearly => ?_, ?_⟩
  · change (s.buffer.insert _ _)[key]? = some early at hearly
    rw [Std.ExtTreeMap.getElem?_insert] at hearly
    split_ifs at hearly with hkey
    · obtain rfl := Option.some.inj hearly
      rw [length_bytesAt]
      exact short
    · exact h.buffered key early hearly
  · have hroom := h.room
    have hsize : (s.buffer.insert (asInt packet.seqNum)
        (bytesAt (cString (packet.data ++ behind)) packet.dataLen.toNat, packet.fin)).size ≤
          s.buffer.size + 1 := Std.ExtTreeMap.size_insert_le
    change max s.recvData.length file.length + 100 * (s.buffer.insert _ _).size ≤ size + 100
    omega

/-- Storing a segment takes the room it takes behind what is held or behind the file. -/
theorem Roomy.processPacket (h : s.Roomy file size) (behind : List UInt8) {larger : ℕ}
    (fits : max (s.recvData.length + packet.dataLen.toNat) file.length + 100 * s.buffer.size ≤
      larger) : (s.processPacket packet behind).Roomy file larger := by
  have hlength : (s.processPacket packet behind).recvData.length =
      s.recvData.length + packet.dataLen.toNat := by
    change (s.recvData ++ bytesAt _ packet.dataLen.toNat).length = _
    rw [List.length_append, length_bytesAt]
  refine ⟨?_, h.buffered, ?_⟩
  · change s.ackedPosition + packet.dataLen.toNat = _
    rw [hlength, h.position, Nat.cast_add]
  · rw [hlength]
    exact fits

/-- A pass over any packet takes the room of a full segment at most. -/
theorem Roomy.receiveStep (h : s.Roomy file size) (bound : size + 100 < 2 ^ 31 - 1)
    {a : Arrival} (short : a.packet.dataLen.toNat ≤ 100) :
    (s.receiveStep a).1.Roomy file (size + 100) := by
  have hstart : (s.receivePacket a).1.Roomy file size := ⟨h.position, h.buffered, h.room⟩
  by_cases hdrop : (s.toLossFilter.count a).2 = -1
  · rw [receiveStep_of_drop hdrop]
    exact hstart.mono (by omega)
  · rw [receiveStep_of_pass hdrop]
    have hroom := h.room
    rcases (s.receivePacket a).1.handle_cases a.packet a.behind with
      ⟨-, heq⟩ | ⟨-, heq⟩ | ⟨-, heq⟩ <;>
      rw [heq]
    · exact hstart.storeEarlyData short a.behind
    · exact hstart.mono (by omega)
    · refine (hstart.processPacket a.behind ?_).checkEarlyData (by omega)
      rw [recvData_receivePacket, buffer_receivePacket]
      omega

/-- A segment of the file at a position that has been reached takes no room that was not there
for the file. -/
theorem Roomy.receiveStep_again (h : s.Roomy file size) (bound : size < 2 ^ 31 - 1)
    {m : SenderStateMachine}
    (hacked : m.ackedPosition.toNat ≤ s.recvData.length + 1) :
    (s.receiveStep (.again file m)).1.Roomy file size := by
  have hstart : (s.receivePacket (.again file m)).1.Roomy file size :=
    ⟨h.position, h.buffered, h.room⟩
  by_cases hdrop : (s.toLossFilter.count (.again file m)).2 = -1
  · rw [receiveStep_of_drop hdrop]
    exact hstart
  · rw [receiveStep_of_pass hdrop]
    have hroom := h.room
    have hnext : (toWord (s.ackedPosition + 1)).toNat = s.recvData.length + 1 := by
      have hposition := h.position
      rw [toNat_toWord_of_lt (by omega) (by omega)]
      omega
    have hnumber : (m.firstPacket file .usual).seqNum = m.ackedPosition := rfl
    change ((s.receivePacket (.again file m)).1.handle (m.firstPacket file .usual) []).1.Roomy
      file size
    rcases (s.receivePacket (.again file m)).1.handle_cases (m.firstPacket file .usual) [] with
      ⟨hearly, -⟩ | ⟨-, heq⟩ | ⟨hexpected, heq⟩
    · have hlt := UInt32.lt_iff_toNat_lt.mp hearly
      rw [hnumber, ackedPosition_receivePacket, hnext] at hlt
      omega
    · rw [heq]
      exact hstart
    · have hlast : m.ackedPosition.toNat = s.recvData.length + 1 := by
        rw [← hnext, ← hnumber, hexpected]
        rfl
      have hcount := m.dataLen_firstPacket file .usual
      rw [heq]
      refine (hstart.processPacket [] ?_).checkEarlyData bound
      rw [recvData_receivePacket, buffer_receivePacket, hcount]
      omega

end ReceiverStateMachine

namespace Transmission

variable {t next : Transmission} {turn : Turn}

/-- `transmit` returns successfully only on an acknowledgement that closes the transfer. -/
theorem final_of_returned (hstep : t.step turn = some next) (h : next.returned = some true) :
    ∃ ack f, turn = .receive (some ack) f ∧ ack.ack = true ∧ ack.fin = true := by
  obtain ⟨-, hmove⟩ := step_cases hstep
  cases hmove with
  | send f admitted sending => cases sending <;> exact nomatch h
  | receive recv f waiting reaction =>
    cases reaction with
    | final recv ack fin => exact ⟨recv, f, rfl, ack, fin⟩
    | _ => exact nomatch h

/-- What the sender puts in flight counts no more than a chunk. -/
theorem dataLen_wire (hstep : t.step turn = some next) {packet : Packet}
    (hpacket : packet ∈ t.wire turn) : packet.dataLen.toNat ≤ 100 := by
  rcases mem_wire hstep hpacket with ⟨f, rfl, admitted, rfl⟩ | ⟨recv, f, rfl, rfl⟩
  · exact (SenderStateMachine.toNat_dataLen SenderStateMachine.length_chunk_le).le.trans
      SenderStateMachine.length_chunk_le
  · exact (SenderStateMachine.toNat_dataLen SenderStateMachine.length_missingChunk_le).le.trans
      SenderStateMachine.length_missingChunk_le

end Transmission

namespace Transfer

variable {t u next : Transfer} {event : Event} {events : List Event} {file : List UInt8}
  {R : ReceiverStateMachine → Prop} {size : ℕ}

/-- A step leaves the sender as it is or takes one of its turns. -/
theorem sender_step (hstep : t.step event = some next) :
    next.sender = t.sender ∨ ∃ turn, t.sender.step turn = some next.sender := by
  have hcases := step_cases hstep
  cases hcases with
  | send f turn => exact Or.inr ⟨_, turn⟩
  | timeout f turn => exact Or.inr ⟨_, turn⟩
  | ackArrives index f delivered turn => exact Or.inr ⟨_, turn⟩
  | _ => exact Or.inl rfl

/-- A step leaves the receiver as it is or takes one of its passes. -/
theorem receiver_step (hstep : t.step event = some next) :
    next.receiver = t.receiver ∨ ∃ a, next.receiver = (t.receiver.receiveStep a).1 := by
  have hcases := step_cases hstep
  cases hcases with
  | packetArrives index behind stray throws running delivered => exact Or.inr ⟨_, rfl⟩
  | _ => exact Or.inl rfl

/-! ## From one state -/

/-- A transfer that neither party has ended can be ended well. -/
theorem Underway.completes (h : t.Underway file R) (receives : Receives file R)
    (noNul : NoNul file) : Reaches step (fun v => Done v ∧ R v.receiver) t := by
  -- an exchange takes the sender to what the receiver holds, and every further one a chunk on
  refine Reaches.of_variant (I := Underway file R) (fun u =>
    2 * (file.length + 1 - u.receiver.recvData.length) +
      if u.sender.machine.ackedPosition.toNat = u.receiver.recvData.length + 1 then 0 else 1) ?_ h
  intro u hu
  refine (reaches_waits hu.sender noNul).bind fun v hv => ?_
  have hunder : v.Underway file R := by
    refine ⟨hv.sender, ?_, ?_, ?_, ?_⟩ <;> rw [hv.receiver]
    · exact hu.open_
    · exact hu.receiver
    · exact hv.acked ▸ hu.acked
    · exact hu.spares
  have hpasses : v.receiver.toLossFilter.undropped (List.replicate
      (3 * (v.receiver.specificPackets.length - v.receiver.specificPosition) + 3)
        (.again file v.sender.machine)) ≠ [] := by
    refine LossFilter.undropped_ne_nil hunder.spares (fun a ha => ?_) (by simp)
    rw [List.eq_of_mem_replicate ha]
    exact ⟨by simp [Arrival.again], rfl⟩
  refine (hunder.reaches_of_waiting receives noNul _ hv.waiting hpasses).mono ?_
  rintro w (hdone | ⟨hnext, hadvanced⟩)
  · exact Or.inl hdone
  · refine Or.inr ⟨hnext, ?_⟩
    have hkept := hadvanced.kept
    have hgrown := hadvanced.grown
    rw [hv.receiver, hv.acked] at hgrown
    rw [hv.receiver] at hkept
    rw [if_pos hadvanced.synced]
    split_ifs with hsynced
    · have := hgrown hsynced
      omega
    · omega

/-- A receiver that has returned has left the sender what it needs, as long as it is in
flight. -/
theorem completes_of_closing (h : t.sender.OnFile file) (noNul : NoNul file)
    (closed : t.receiver.fin = true) (closing : ClosingInFlight t.acks) :
    Reaches step (fun v => Done v ∧ v.receiver = t.receiver) t := by
  obtain ⟨ack, hmem, hack, hfin⟩ := closing
  refine (reaches_waits h noNul).bind fun v hv => ?_
  apply reaches_of_ack hv.sender.running hv.waiting (hv.acks ▸ hmem)
  intro w hturn hreceiver
  have hsame : w.receiver = t.receiver := hreceiver.trans hv.receiver
  exact ⟨⟨returned_of_closing hack hfin hturn, hsame ▸ closed⟩, hsame⟩

/-- Nothing is left that could end `transmit`. -/
structure Stranded (t : Transfer) : Prop where
  closed : t.receiver.fin = true
  notReturned : t.sender.returned ≠ some true
  lost : ¬ ClosingInFlight t.acks

/-- A sender that is stranded stays stranded. -/
theorem stranded_step (h : t.Stranded) (hstep : t.step event = some next) : next.Stranded := by
  have hcases := step_cases hstep
  cases hcases with
  | send f turn =>
    refine ⟨h.closed, fun hreturned => ?_, h.lost⟩
    obtain ⟨ack, f', hturn, -⟩ := Transmission.final_of_returned turn hreturned
    exact nomatch hturn
  | timeout f turn =>
    refine ⟨h.closed, fun hreturned => ?_, h.lost⟩
    obtain ⟨ack, f', hturn, -⟩ := Transmission.final_of_returned turn hreturned
    exact nomatch hturn
  | ackArrives index f delivered turn =>
    refine ⟨h.closed, fun hreturned => ?_, ?_⟩
    · obtain ⟨ack, f', hturn, hack, hfin⟩ := Transmission.final_of_returned turn hreturned
      obtain ⟨rfl, -⟩ : _ = ack ∧ _ := by simpa using hturn
      exact h.lost ⟨_, mem_of_deliver delivered, hack, hfin⟩
    · rintro ⟨ack, hmem, hclosing⟩
      exact h.lost ⟨ack, mem_rest_of_deliver delivered hmem, hclosing⟩
  | packetArrives index behind stray throws running delivered =>
    exact absurd (running.symm.trans h.closed) Bool.false_ne_true
  | packetFault fault => exact ⟨h.closed, h.notReturned, h.lost⟩
  | ackFault fault =>
    refine ⟨h.closed, h.notReturned, ?_⟩
    rintro ⟨ack, hmem, hclosing⟩
    exact h.lost ⟨ack, mem_of_mem_apply hmem, hclosing⟩

/-- A sender that has given up does not return successfully any more. -/
theorem gaveUp_step (h : t.sender.returned = some false) (hstep : t.step event = some next) :
    next.sender.returned = some false := by
  rcases sender_step hstep with hsame | ⟨turn, hturn⟩
  · rw [hsame, h]
  · exact absurd ((Transmission.step_cases hturn).1.symm.trans h) (by decide)

/-! ## Along a run -/

/-- Where the packets carry at most a chunk, the receiver needs so much room. -/
structure Contained (file : List UInt8) (size : ℕ) (t : Transfer) : Prop where
  receiver : t.receiver.Roomy file size
  packets : ∀ packet ∈ t.packets, packet.dataLen.toNat ≤ 100

/-- A step takes the room of a full segment at most. -/
theorem contained_step (h : t.Contained file size) (bound : size + 100 < 2 ^ 31 - 1)
    (hstep : t.step event = some next) : next.Contained file (size + 100) := by
  have hroomy := h.receiver.mono (Nat.le_add_right size 100)
  have hsent : ∀ {turn sender}, t.sender.step turn = some sender →
      ∀ packet ∈ t.packets ++ t.sender.wire turn, packet.dataLen.toNat ≤ 100 := by
    intro turn sender hturn packet hpacket
    rcases List.mem_append.mp hpacket with hold | hnew
    · exact h.packets packet hold
    · exact Transmission.dataLen_wire hturn hnew
  have hcases := step_cases hstep
  cases hcases with
  | send f turn => exact ⟨hroomy, hsent turn⟩
  | timeout f turn => exact ⟨hroomy, hsent turn⟩
  | ackArrives index f delivered turn => exact ⟨hroomy, hsent turn⟩
  | packetArrives index behind stray throws running delivered =>
    refine ⟨?_, fun packet hpacket => h.packets packet (mem_rest_of_deliver delivered hpacket)⟩
    exact h.receiver.receiveStep bound (h.packets _ (mem_of_deliver delivered))
  | packetFault fault =>
    exact ⟨hroomy, fun packet hpacket => h.packets packet (mem_of_mem_apply hpacket)⟩
  | ackFault fault => exact ⟨hroomy, h.packets⟩

theorem contained_run (h : t.Contained file size)
    (bound : size + 100 * events.length < 2 ^ 31 - 1)
    (hrun : run step t events = some next) :
    next.Contained file (size + 100 * events.length) := by
  induction events generalizing t size with
  | nil =>
    obtain rfl : t = next := by simpa using hrun
    exact h
  | cons event events ih =>
    obtain ⟨middle, hstep, hrest⟩ := run_cons_eq_some.mp hrun
    rw [List.length_cons] at bound ⊢
    have hmiddle := contained_step h (by omega) hstep
    -- a step costs the room of a segment, and so much is left for the rest
    have hend := ih hmiddle (by omega) hrest
    rwa [show size + 100 * (events.length + 1) = size + 100 + 100 * events.length by omega]

/-- What holds of the two parties in every state of a run on an opened file. -/
structure Opened (file : List UInt8) (pattern : LossPattern) (t : Transfer) : Prop where
  reads : t.sender.machine.ReadsFrom file
  limit : t.sender.machine.maxNotAcked = 25
  pattern : t.receiver.toLossPattern = pattern
  typed : t.sender.CountTyped
  closesComplete : t.ClosesComplete
  returned : t.sender.returned = some true → t.receiver.fin = true

variable {pattern : LossPattern}

theorem opened_start (caAckCount : ℤ) (file : List UInt8) (pattern : LossPattern) :
    (start caAckCount true (some file) pattern).Opened file pattern where
  reads := ⟨rfl, rfl⟩
  limit := rfl
  pattern := rfl
  typed := fun _ => fitsInt_zero
  closesComplete := fun _ h => absurd h List.not_mem_nil
  returned := fun h => nomatch h

/-- The sender returns successfully only after the receiver has. -/
theorem closed_step (h : t.sender.returned = some true → t.receiver.fin = true)
    (hcloses : t.ClosesComplete) (hstep : t.step event = some next)
    (hreturned : next.sender.returned = some true) : next.receiver.fin = true := by
  have hcases := step_cases hstep
  cases hcases with
  | send f turn =>
    obtain ⟨ack, f', hturn, -⟩ := Transmission.final_of_returned turn hreturned
    exact nomatch hturn
  | timeout f turn =>
    obtain ⟨ack, f', hturn, -⟩ := Transmission.final_of_returned turn hreturned
    exact nomatch hturn
  | ackArrives index f delivered turn =>
    obtain ⟨ack, f', hturn, -, hfin⟩ := Transmission.final_of_returned turn hreturned
    obtain ⟨rfl, -⟩ : _ = ack ∧ _ := by simpa using hturn
    exact hcloses _ (mem_of_deliver delivered) hfin
  | packetArrives index behind stray throws running delivered =>
    exact absurd (running.symm.trans (h hreturned)) Bool.false_ne_true
  | _ => exact h hreturned

theorem opened_step (h : t.Opened file pattern) (hstep : t.step event = some next) :
    next.Opened file pattern := by
  have hcloses := closesComplete_step h.closesComplete hstep
  have hpattern : next.receiver.toLossPattern = pattern := by
    rcases receiver_step hstep with hsame | ⟨a, hsame⟩
    · exact hsame ▸ h.pattern
    · rw [hsame, filter_receiveStep, toLossPattern_count]
      exact h.pattern
  have hreturned := closed_step h.returned h.closesComplete hstep
  rcases sender_step hstep with hsame | ⟨turn, hturn⟩
  · exact ⟨hsame ▸ h.reads, hsame ▸ h.limit, hpattern, hsame ▸ h.typed, hcloses, hreturned⟩
  · exact ⟨Transmission.readsFrom_step h.reads hturn,
      Transmission.maxNotAcked_step h.limit hturn, hpattern,
      Transmission.countTyped_step h.typed hturn, hcloses, hreturned⟩

/-- What is left of a transfer that can end well: the sender has returned, or it is running
and is going to be told if the receiver has returned. -/
def CanEnd (t : Transfer) : Prop :=
  t.sender.returned = some true ∨ t.sender.returned = none ∧ t.Answered

/-- What cannot end well never does. -/
theorem not_reaches_done (h : ¬ t.CanEnd) : ¬ Reaches step Done t := by
  rw [CanEnd, not_or, not_and] at h
  obtain ⟨hnot, hstuck⟩ := h
  -- a sender that has given up and one that is stranded are the two ways to be lost
  cases hreturned : t.sender.returned with
  | some result =>
    cases result with
    | true => exact absurd hreturned hnot
    | false =>
      refine not_reaches_of_invariant (Q := fun u => u.sender.returned = some false) hreturned
        (fun _ _ _ => gaveUp_step) fun u hu hdone => ?_
      exact absurd (hu.symm.trans hdone.returned) (by decide)
  | none =>
    have hlost := hstuck hreturned
    simp only [Answered, Classical.not_imp] at hlost
    obtain ⟨hclosed, -, hlost⟩ := hlost
    exact not_reaches_of_invariant (Q := Stranded) ⟨hclosed, hnot, hlost⟩
      (fun _ _ _ => stranded_step) fun u hu hdone => hu.notReturned hdone.returned

/-- What can end well does, for any receiver that an exchange can go on with. -/
theorem Opened.completes (h : t.Opened file pattern) (spares : pattern.SparesSome)
    (receives : Receives file R) (receiver : R t.receiver) (noNul : NoNul file)
    (behind : t.Behind) (canEnd : t.CanEnd) :
    Reaches step (fun v => Done v ∧ R v.receiver) t := by
  rcases canEnd with hreturned | ⟨running, hanswered⟩
  · exact Reaches.refl ⟨⟨hreturned, h.returned hreturned⟩, receiver⟩
  · have hfile : t.sender.OnFile file :=
      ⟨running, h.typed running, h.reads, h.limit, behind.acked_pos⟩
    cases hfin : t.receiver.fin with
    | true =>
      refine (completes_of_closing hfile noNul hfin (hanswered hfin running)).mono ?_
      rintro v ⟨hdone, hsame⟩
      exact ⟨hdone, hsame ▸ receiver⟩
    | false =>
      exact Underway.completes
        ⟨hfile, hfin, receiver, behind.acked, h.pattern ▸ spares⟩ receives noNul

/-- The room that a run has needed is enough to go on. -/
theorem receives_roomy (bound : size < 2 ^ 31 - 1) :
    Receives file (ReceiverStateMachine.Roomy file size) where
  position := fun _ h => h.position
  small := fun s h => by
    have hroom := h.room
    omega
  keeps := fun _ _ h _ hacked => h.receiveStep_again bound hacked

/-- Reassembling goes on with the segments that a timeout sends again. -/
theorem receives_reassembled (noNul : NoNul file) (bound : file.length < 2 ^ 31 - 1) :
    Receives file (ReceiverStateMachine.Reassembled file) where
  position := fun _ h => h.position
  small := fun _ h => h.stored.length_le.trans_lt bound
  keeps := by
    intro s m h hpos hacked
    have hstored := h.stored.length_le
    refine (h.receiveStep noNul bound ?_).1
    change (SenderStateMachine.dataPacket _ _ (overwrite _ _ ++ _) _).Labelled file
    rw [overwrite, List.append_assoc]
    exact labelled_dataPacket noNul (by omega) (by omega) rfl (fun hfin => by simpa using hfin)

/-! ## From every state of a run -/

variable {fuel : ℕ} {losses : Option (List UInt8)} {result : ℤ}

/-- In a run of fewer than some twenty million steps over any network, from every state the transfer
can still end well for both parties exactly when the sender has returned successfully, or it is
running and, if the receiver has returned, an acknowledgement that closes the transfer is in
flight. -/
theorem reaches_done_iff (caAckCount : ℤ) (noNul : NoNul file)
    (hopen : openLossPatern fuel losses = some (.returns pattern result)) (events : List Event)
    (bound : file.length + 100 * events.length < 2 ^ 31 - 1)
    (hrun : run step (start caAckCount true (some file) pattern) events = some t) :
    Reaches step Done t ↔ t.CanEnd := by
  -- one direction is two traps that no step leaves, the other the exchange from where the run is
  refine ⟨fun hreaches => by_contra fun hnot => not_reaches_done hnot hreaches, fun hcan => ?_⟩
  have hopened : t.Opened file pattern :=
    invariant_run (opened_start caAckCount file pattern) (fun _ _ _ => opened_step) hrun
  have hcontained : t.Contained file (file.length + 100 * events.length) :=
    contained_run ⟨ReceiverStateMachine.roomy_construct file pattern,
      fun _ h => absurd h List.not_mem_nil⟩ bound hrun
  have hreceives : Receives file _ := receives_roomy bound
  have hbehind := behind_run (behind_start caAckCount true (some file) pattern)
    (hreceives.small _ hcontained.receiver) hrun
  exact (hopened.completes (sparesSome_of_open hopen) hreceives hcontained.receiver noNul hbehind
    hcan).mono fun _ h => h.1

/-- The first segment is lost, as every third is. -/
def firstLost : List Event := [.send .usual, .packetArrives 0 [] 0 false]

theorem reaches_done_firstLost :
    Reaches step Done ((run step (start 0 true (some [97, 98, 99]) losingThird) firstLost).get
      (by decide +kernel)) :=
  (reaches_done_iff 0 (by decide) opened_everyThird firstLost (by decide)
    (Option.some_get _).symm).mpr
      (Or.inr ⟨by decide +kernel, fun h => absurd h (by decide +kernel)⟩)

/-- From every state of a run in which no new acknowledgement has moved the sender's stream forward,
a sender that is running and, if the receiver has returned, is going to be told can still return
successfully with the receiver holding the file. -/
theorem delivery_stays_possible (caAckCount : ℤ) (noNul : NoNul file)
    (bound : file.length < 2 ^ 31 - 1)
    (hopen : openLossPatern fuel losses = some (.returns pattern result)) (events : List Event)
    (measured : AllSteps step Measured (start caAckCount true (some file) pattern) events)
    (keeps : AllSteps step KeepsStream (start caAckCount true (some file) pattern) events)
    (hrun : run step (start caAckCount true (some file) pattern) events = some t)
    (canEnd : t.CanEnd) :
    Reaches step (fun u => Done u ∧ u.receiver.recvData = file) t := by
  have hopened : t.Opened file pattern :=
    invariant_run (opened_start caAckCount file pattern) (fun _ _ _ => opened_step) hrun
  have hintact : t.Intact file :=
    (allStates_of_allSteps (intact_start caAckCount file pattern)
      (fun _ _ _ h hcond hstep => h.step noNul bound hcond.1 hcond.2 hstep)
      (measured.and keeps)).last hrun
  refine (hopened.completes (sparesSome_of_open hopen) (receives_reassembled noNul bound)
    hintact.reassembled noNul hintact.behind canEnd).mono ?_
  rintro u ⟨hdone, hreassembled⟩
  exact ⟨hdone, hreassembled.recvData_eq hdone.closed⟩

theorem delivery_stays_possible_firstLost :
    Reaches step (fun u => Done u ∧ u.receiver.recvData = [97, 98, 99])
      ((run step (start 0 true (some [97, 98, 99]) losingThird) firstLost).get
        (by decide +kernel)) :=
  delivery_stays_possible 0 (by decide) (by decide) opened_everyThird firstLost
    (by decide +kernel) (by decide +kernel) (Option.some_get _).symm
    (Or.inr ⟨by decide +kernel, fun h => absurd h (by decide +kernel)⟩)

end Transfer

end Comnet.MP2
