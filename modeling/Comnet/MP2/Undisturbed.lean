/-
# An undisturbed transfer

A network that loses nothing and keeps the order, a timer that does not expire and a pattern
without losses: both parties then go through the file in step. What is in flight are the
chunks between what has been sent and what has arrived, and the answers between what has
arrived and what is acknowledged. Whatever the order of the steps, there are three for each chunk
and none is possible before the file is over that is not one of them.
-/

import Comnet.Foundations.Queue
import Comnet.MP2.Completion

set_option autoImplicit false

namespace Comnet.MP2

open Foundations

/-- The acknowledgement that answers a chunk. -/
structure IsAnswer (file : List UInt8) (i : ℕ) (answer : Packet) : Prop where
  ack : answer.ack = true
  fin : answer.fin = decide (i + 1 = chunkCount file)
  ackNum : answer.ackNum.toNat = min (mmsBytes * (i + 1)) file.length + 1

variable {file : List UInt8} {i sent arrived acked : ℕ} {packet : Packet}

/-! ## The sender -/

namespace Transmission

/-- The sender has sent so many chunks of the file, of which so many are acknowledged. -/
structure Sends (file : List UInt8) (sent acked : ℕ) (t : Transmission) : Prop where
  content : t.machine.message.content = file
  sent_le : sent ≤ chunkCount file
  returned : t.returned = if acked = chunkCount file then some true else none
  stream : sent < chunkCount file → t.machine.message.failed = false ∧
    t.machine.message.offset = mmsBytes * sent ∧
      t.machine.filePosition.toNat = mmsBytes * sent
  exhausted : sent = chunkCount file → t.machine.message.failed = true
  out : acked < chunkCount file → t.machine.notAcked = sent - acked
  window : 1 ≤ t.machine.cwnd
  window_le : t.machine.cwnd ≤ acked + 1
  limit : t.machine.maxNotAcked = 25
  state : t.machine.state ≠ .fastRecovery
  acked : acked < chunkCount file → t.machine.ackedPosition.toNat = mmsBytes * acked + 1
  handed : Numbered (IsChunk file) 0 (t.handed.map (·.packet)).reverse
  length_handed : t.handed.length = sent

variable {t next : Transmission} {f : Frame}

theorem sends_start (caAckCount : ℤ) (file : List UInt8) :
    (start caAckCount true (some file)).Sends file 0 0 where
  content := rfl
  sent_le := Nat.zero_le _
  returned := by
    rw [if_neg (chunkCount_pos file).ne]
    rfl
  stream := fun _ => ⟨rfl, rfl, rfl⟩
  exhausted := fun h => absurd h (chunkCount_pos file).ne
  out := fun _ => rfl
  window := le_rfl
  window_le := le_rfl
  limit := rfl
  state := by
    change State.slowStart ≠ .fastRecovery
    decide
  acked := fun _ => rfl
  handed := trivial
  length_handed := rfl

/-- The chunk that goes out next. -/
theorem Sends.isChunk (h : t.Sends file sent acked) (noNul : NoNul file)
    (bound : file.length < 2 ^ 31 - 1) (hlt : sent < chunkCount file) :
    IsChunk file sent (t.machine.nextPacket f) := by
  obtain ⟨-, hoffset, hposition⟩ := h.stream hlt
  exact isChunk_nextPacket noNul bound h.content hoffset hposition (lt_chunkCount_iff.mp hlt)

/-- A round of the inner loop sends the next chunk. -/
theorem Sends.send (h : t.Sends file sent acked) (noNul : NoNul file)
    (bound : file.length < 2 ^ 31 - 1) (calm : f.throws = false) (measured : t.Measured (.send f))
    (hstep : t.step (.send f) = some next) :
    sent < chunkCount file ∧ next.Sends file (sent + 1) acked := by
  obtain ⟨hrunning, hmove⟩ := step_cases hstep
  have hacked : acked ≠ chunkCount file := fun heq => by
    rw [h.returned, if_pos heq] at hrunning
    exact nomatch hrunning
  cases hmove with
  | send f admitted sending =>
    have hlt : sent < chunkCount file := by
      refine lt_of_le_of_ne h.sent_le fun heq => ?_
      exact absurd ((readable_of_canSend admitted).symm.trans (h.exhausted heq)) (by decide)
    obtain ⟨-, hoffset, hposition⟩ := h.stream hlt
    have hle := lt_chunkCount_iff.mp hlt
    have hlength : (t.machine.message.chunk mmsBytes).length =
        min mmsBytes (file.length - mmsBytes * sent) := by
      rw [InputStream.length_chunk, h.content, hoffset]
    have hhanded : Numbered (IsChunk file) 0 ((⟨t.machine.nextPacket f,
        some t.machine.message.offset⟩ :: t.handed : List Handed).map (·.packet)).reverse := by
      rw [List.map_cons, List.reverse_cons, numbered_concat, List.length_reverse, List.length_map,
        h.length_handed, Nat.zero_add]
      exact ⟨h.handed, h.isChunk noNul bound hlt⟩
    have hcounted : (⟨t.machine.nextPacket f, some t.machine.message.offset⟩ :: t.handed :
        List Handed).length = sent + 1 := by
      rw [List.length_cons, h.length_handed]
    have hout : acked < chunkCount file →
        narrow (t.machine.notAcked + 1) = ((sent + 1 : ℕ) : ℤ) - acked := fun hless => by
      have hbehind := lt_chunkCount_iff.mp hless
      rw [h.out hless]
      unfold mmsBytes at *
      rw [narrow_of_mem (by omega) (by omega)]
      push_cast
      ring
    refine ⟨hlt, ?_⟩
    cases sending with
    | full whole sent' measured' =>
      have hadvance := @toNat_add_toWord t.machine.filePosition
        (strlen (t.machine.chunkMemory f) - 2)
      rw [measured whole] at hadvance
      have hnext : mmsBytes * (sent + 1) ≤ file.length := by
        unfold mmsBytes at *
        omega
      refine ⟨h.content, hlt, ?_, fun _ => ⟨?_, ?_, ?_⟩, fun heq => ?_, hout, h.window,
        h.window_le, h.limit, h.state, h.acked, hhanded, hcounted⟩
      · rw [if_neg hacked]
      · simp [SenderStateMachine.afterChunk, whole]
      · change t.machine.message.offset + (t.machine.message.chunk mmsBytes).length = _
        rw [whole, hoffset]
        ring
      · dsimp only
        rw [measured whole]
        unfold mmsBytes at *
        omega
      · exact absurd (lt_chunkCount_iff.mpr hnext) (by omega)
    | refused whole error notAcked =>
      rw [SenderStateMachine.reported_of_sent calm, measured whole] at error
      exact absurd error (by decide)
    | short rest =>
      have hlast : sent + 1 = chunkCount file := by
        rw [last_chunk_iff]
        unfold mmsBytes at *
        omega
      have hfailed : t.machine.afterChunk.failed = true := by
        simp [SenderStateMachine.afterChunk, rest]
      refine ⟨h.content, hlt, ?_, fun hless => absurd hlast hless.ne, fun _ => hfailed, ?_,
        h.window, h.window_le, h.limit, h.state, h.acked, hhanded, hcounted⟩
      · rw [if_neg hacked]
      · intro hless
        dsimp only
        rw [SenderStateMachine.counted_of_sent calm]
        exact hout hless

/-- An acknowledgement of what has been sent does not move the stream. -/
theorem Sends.forwarded_eq (h : t.Sends file sent acked) (order : acked < sent)
    {answer : Packet} (hnum : answer.ackNum.toNat = mmsBytes * (acked + 1) + 1) :
    t.machine.forwarded answer = t.machine.message := by
  unfold SenderStateMachine.forwarded
  split_ifs with hbehind
  · obtain ⟨hless, hpositive⟩ := hbehind
    have hgood : t.machine.message.failed = false := by
      by_contra hfailed
      have htell := InputStream.tellg_eq_neg_one.mpr ((Bool.not_eq_false _).mp hfailed)
      omega
    have hlt : sent < chunkCount file := by
      refine lt_of_le_of_ne h.sent_le fun heq => ?_
      exact absurd (hgood.symm.trans (h.exhausted heq)) (by decide)
    obtain ⟨-, hoffset, -⟩ := h.stream hlt
    have hsub : (answer.ackNum - 1).toNat = answer.ackNum.toNat - 1 := toNat_sub_one (by omega)
    rw [InputStream.tellg_of_good hgood] at hless
    rw [InputStream.seekg_of_good hgood (Int.natCast_nonneg _), Int.toNat_natCast]
    have hsame : (answer.ackNum - 1).toNat = t.machine.message.offset := by
      unfold mmsBytes at *
      omega
    rw [hsame]
  · rfl

/-- An answer is of the chunk that is acknowledged next. -/
theorem Sends.receive (h : t.Sends file sent acked) (bound : file.length < 2 ^ 31 - 1)
    (order : acked < sent) {answer : Packet}
    (isAnswer : IsAnswer file acked answer)
    (hstep : t.step (.receive (some answer) f) = some next) :
    next.Sends file sent (acked + 1) ∧ t.wire (.receive (some answer) f) = [] := by
  have hlt : acked < chunkCount file := order.trans_le h.sent_le
  have hposition := h.acked hlt
  have hnum : answer.fin = false → acked + 1 < chunkCount file ∧
      answer.ackNum.toNat = mmsBytes * (acked + 1) + 1 := by
    intro hopen
    have hless : acked + 1 < chunkCount file := by
      rw [isAnswer.fin, decide_eq_false_iff_not] at hopen
      omega
    have hle := lt_chunkCount_iff.mp hless
    exact ⟨hless, by rw [isAnswer.ackNum, Nat.min_eq_left hle]⟩
  have hnotOld : answer.fin = false → ¬ answer.ackNum ≤ t.machine.ackedPosition := by
    intro hopen hold
    have := UInt32.le_iff_toNat_le.mp hold
    rw [(hnum hopen).2, hposition] at this
    unfold mmsBytes at this
    omega
  refine ⟨?_, wire_of_not_third fun third => hnotOld third.notFin third.old⟩
  obtain ⟨-, hmove⟩ := step_cases hstep
  cases hmove with
  | receive recv f waiting reaction =>
    cases reaction with
    | final recv ack fin =>
      have hlast : acked + 1 = chunkCount file := by simpa [isAnswer.fin] using fin
      exact ⟨h.content, h.sent_le, by rw [if_pos hlast]; rfl, h.stream, h.exhausted,
        fun hless => absurd hlast hless.ne, h.window, h.window_le.trans (by push_cast; omega),
        h.limit, h.state, fun hless => absurd hlast hless.ne, h.handed, h.length_handed⟩
    | ignored recv ack => exact absurd (ack.symm.trans isAnswer.ack) Bool.false_ne_true
    | duplicate recv ack notFin old notThird => exact absurd old (hnotOld notFin)
    | resent recv third sent measured => exact absurd third.old (hnotOld third.notFin)
    | refused recv third error notAcked => exact absurd third.old (hnotOld third.notFin)
    | @advance recv new cwnd notAcked caAckCount state growth =>
      obtain ⟨hless, hnumber⟩ := hnum new.notFin
      have hsame := h.forwarded_eq order hnumber
      have hwindow := h.window
      have hupper := h.window_le
      have hbehind := lt_chunkCount_iff.mp hlt
      have hout := h.out hlt
      have hsentLe := h.sent_le
      -- neither the window nor the count has more than the chunks of the file to count
      have hraised : narrow (t.machine.cwnd + 1) = t.machine.cwnd + 1 := by
        unfold mmsBytes at *
        exact narrow_of_mem (by omega) (by omega)
      have htaken : narrow (t.machine.notAcked - 1) = t.machine.notAcked - 1 := by
        have hall := lt_chunkCount_iff.mp (Nat.sub_one_lt (chunkCount_pos file).ne')
        unfold mmsBytes at *
        exact narrow_of_mem (by omega) (by omega)
      -- the window never shrinks here: without a third duplicate there is no recovery to leave
      have hgrowth : 1 ≤ cwnd ∧ cwnd ≤ t.machine.cwnd + 1 ∧
          notAcked = t.machine.notAcked - 1 ∧ state ≠ .fastRecovery := by
        cases growth with
        | slowStart hstate below => exact ⟨by omega, by omega, htaken, by decide⟩
        | leave hstate reached => exact ⟨by omega, by omega, htaken, by decide⟩
        | avoid hstate counting => exact ⟨hwindow, by omega, htaken, by decide⟩
        | raise hstate full => exact ⟨by omega, by omega, htaken, by decide⟩
        | recover hstate => exact absurd hstate h.state
      obtain ⟨hpos, hnext, hcount, hphase⟩ := hgrowth
      refine ⟨?_, h.sent_le, ?_, ?_, ?_, fun _ => ?_, hpos, ?_, h.limit, hphase,
        fun _ => hnumber, h.handed, h.length_handed⟩
      · exact (congrArg (·.content) hsame).trans h.content
      · rw [if_neg hless.ne]
        rfl
      · dsimp only
        rw [hsame]
        exact h.stream
      · dsimp only
        rw [hsame]
        exact h.exhausted
      · dsimp only
        push_cast
        omega
      · dsimp only
        push_cast
        omega

end Transmission

/-! ## The receiver -/

namespace ReceiverStateMachine

/-- So many chunks have arrived, each in its turn. -/
structure Holds (file : List UInt8) (arrived : ℕ) (s : ReceiverStateMachine) : Prop where
  recvData : s.recvData = file.take (mmsBytes * arrived)
  position : s.ackedPosition = s.recvData.length
  buffer : ∀ key : ℤ, s.buffer[key]? = none
  fin : s.fin = decide (arrived = chunkCount file)
  lossless : s.periodic = false ∧ s.specific = false

variable {s : ReceiverStateMachine}

theorem holds_construct (file : List UInt8) : (construct .none).Holds file 0 where
  recvData := by simp [construct]
  position := rfl
  buffer := by simp [construct]
  fin := (decide_eq_false (chunkCount_pos file).ne).symm
  lossless := ⟨rfl, rfl⟩

/-- A pass stores the chunk that arrives next and answers it. -/
theorem Holds.pass (h : s.Holds file arrived) (bound : file.length < 2 ^ 31 - 1)
    (hlt : arrived < chunkCount file) (isChunk : IsChunk file arrived packet)
    (behind : List UInt8) (stray : ℤ) (throws : Bool) :
    (s.receiveStep ⟨packet, 112, behind, stray, throws⟩).1.Holds file (arrived + 1) ∧
      ∃ answer, (s.receiveStep ⟨packet, 112, behind, stray, throws⟩).2 = some answer ∧
        IsAnswer file arrived answer := by
  obtain ⟨hperiodic, hspecific⟩ := h.lossless
  have hle := lt_chunkCount_iff.mp hlt
  have hheld : s.recvData.length = mmsBytes * arrived := by
    rw [h.recvData, List.length_take, Nat.min_eq_left hle]
  have hcount : s.toLossFilter.count ⟨packet, 112, behind, stray, throws⟩ =
      ({ s.toLossFilter with rsn := narrow (s.rsn + 1) }, 112) := by
    simp [LossFilter.count, hperiodic, hspecific]
  have hpass : (s.toLossFilter.count ⟨packet, 112, behind, stray, throws⟩).2 ≠ -1 := by
    rw [hcount]
    exact (by decide : (112 : ℤ) ≠ -1)
  have hnext : (s.receiveStep ⟨packet, 112, behind, stray, throws⟩).1.Holds file
      (arrived + 1) := by
    rw [receiveStep_of_pass hpass]
    have hseqNum := isChunk.seqNum
    have hnumber : (toWord (s.ackedPosition + 1)).toNat = mmsBytes * arrived + 1 := by
      have hposition := h.position
      rw [toNat_toWord_of_lt (by omega) (by omega)]
      omega
    rcases (s.receivePacket ⟨packet, 112, behind, stray, throws⟩).1.handle_cases packet behind
      with ⟨hearly, -⟩ | ⟨hold, -⟩ | ⟨-, heq⟩
    · have hless := UInt32.lt_iff_toNat_lt.mp hearly
      rw [ackedPosition_receivePacket] at hless
      omega
    · have hless := UInt32.lt_iff_toNat_lt.mp hold
      rw [ackedPosition_receivePacket] at hless
      omega
    · have hdrained := @checkEarlyData_of_none
        ((s.receivePacket ⟨packet, 112, behind, stray, throws⟩).1.processPacket packet behind)
        (h.buffer _)
      dsimp only
      rw [heq, hdrained]
      have hlabelled := isChunk.labelled
      have hstored : s.recvData ++ packet.payload = file.take (mmsBytes * (arrived + 1)) := by
        rw [h.recvData, hlabelled.payload_eq, hseqNum, Nat.add_sub_cancel, isChunk.dataLen,
          ← List.take_add, List.take_eq_take_iff]
        unfold mmsBytes at *
        omega
      have hlength := congrArg List.length hstored
      rw [List.length_append, Packet.length_payload hlabelled.dataLen_le] at hlength
      refine ⟨?_, ?_, h.buffer, ?_, ?_⟩
      · change s.recvData ++ bytesAt (packet.data ++ behind) packet.dataLen.toNat = _
        rw [Packet.bytesAt_data hlabelled.dataLen_le, hstored]
      · change s.ackedPosition + packet.dataLen.toNat =
          ((s.recvData ++ bytesAt (packet.data ++ behind) packet.dataLen.toNat).length : ℤ)
        rw [List.length_append, length_bytesAt, h.position, Nat.cast_add]
      · change (s.fin || packet.fin) = _
        rw [h.fin, isChunk.fin, decide_eq_false hlt.ne, Bool.false_or]
      · change (s.toLossFilter.count ⟨packet, 112, behind, stray, throws⟩).1.periodic = false ∧
          (s.toLossFilter.count ⟨packet, 112, behind, stray, throws⟩).1.specific = false
        rw [hcount]
        exact h.lossless
  have hposition := hnext.position
  have hlength := congrArg List.length hnext.recvData
  rw [List.length_take] at hlength
  obtain ⟨answer, hanswer, hack, hfin, hnum⟩ := Transfer.answer_of_pass hposition (by omega) hpass
  exact ⟨hnext, answer, hanswer, hack, hfin.trans hnext.fin, by rw [hnum, hlength]⟩

end ReceiverStateMachine

/-! ## Both together -/

namespace Transfer

/-- Nothing disturbs the step: it is a round of the inner loop whose `sendTo` does not throw, or
the arrival of what was sent first. -/
def Undisturbed : Event → Prop
  | .send f => f.throws = false
  | .timeout _ => False
  | .ackArrives index _ => index = 0
  | .packetArrives index _ _ throws => index = 0 ∧ throws = false
  | .packetFault _ => False
  | .ackFault _ => False

/-- Both parties are so far in the file, and in between is what the one has sent and the other
has not received. -/
structure Flowing (file : List UInt8) (sent arrived acked : ℕ) (t : Transfer) : Prop where
  sender : t.sender.Sends file sent acked
  receiver : t.receiver.Holds file arrived
  packets : Numbered (IsChunk file) arrived t.packets
  acks : Numbered (IsAnswer file) acked t.acks
  sent : sent = arrived + t.packets.length
  arrived : arrived = acked + t.acks.length

variable {t next : Transfer} {event : Event} {events : List Event}

theorem flowing_start (caAckCount : ℤ) (file : List UInt8) :
    (start caAckCount true (some file) .none).Flowing file 0 0 0 where
  sender := Transmission.sends_start caAckCount file
  receiver := ReceiverStateMachine.holds_construct file
  packets := trivial
  acks := trivial
  sent := rfl
  arrived := rfl

/-- A step takes one chunk one stage further. -/
theorem Flowing.step (h : t.Flowing file sent arrived acked) (noNul : NoNul file)
    (bound : file.length < 2 ^ 31 - 1) (calm : Undisturbed event) (measured : t.Measured event)
    (hstep : t.step event = some next) :
    ∃ sent' arrived' acked', next.Flowing file sent' arrived' acked' ∧
      sent' + arrived' + acked' = sent + arrived + acked + 1 := by
  have hsent := h.sent
  have harrived := h.arrived
  have hcases := step_cases hstep
  cases hcases with
  | send f turn =>
    obtain ⟨hlt, hsender⟩ := h.sender.send noNul bound calm measured turn
    obtain ⟨-, hmove⟩ := Transmission.step_cases turn
    have hwire : t.sender.wire (.send f) = [t.sender.machine.nextPacket f] := by
      cases hmove with
      | send f admitted sending => exact Transmission.wire_send calm admitted
    refine ⟨sent + 1, arrived, acked, ⟨hsender, h.receiver, ?_, h.acks, ?_, harrived⟩, by omega⟩
    · dsimp only
      rw [hwire, numbered_concat, ← hsent]
      exact ⟨h.packets, h.sender.isChunk noNul bound hlt⟩
    · dsimp only
      rw [hwire, List.length_append, List.length_singleton]
      omega
  | timeout f turn => exact calm.elim
  | ackArrives index f delivered turn =>
    obtain rfl : index = 0 := calm
    obtain ⟨hanswer, hrest, hlength⟩ := h.acks.of_deliver delivered
    obtain ⟨hsender, hwire⟩ := h.sender.receive bound (by omega) hanswer turn
    refine ⟨sent, arrived, acked + 1, ⟨hsender, h.receiver, ?_, hrest, ?_, ?_⟩, by omega⟩
    · dsimp only
      rw [hwire, List.append_nil]
      exact h.packets
    · dsimp only
      rw [hwire, List.append_nil]
      exact hsent
    · dsimp only
      omega
  | packetArrives index behind stray throws running delivered =>
    obtain ⟨rfl, rfl⟩ : index = 0 ∧ throws = false := calm
    obtain ⟨hchunk, hrest, hlength⟩ := h.packets.of_deliver delivered
    have hlt : arrived < chunkCount file := by
      have hle := h.sender.sent_le
      omega
    obtain ⟨hreceiver, answer, hanswer, isAnswer⟩ :=
      h.receiver.pass bound hlt hchunk behind stray false
    refine ⟨sent, arrived + 1, acked, ⟨h.sender, hreceiver, hrest, ?_, ?_, ?_⟩, by omega⟩
    · simp only [receiverPass, hanswer, Bool.false_eq_true, if_false, Option.toList_some]
      rw [numbered_concat, ← harrived]
      exact ⟨h.acks, isAnswer⟩
    · simp only [receiverPass]
      omega
    · simp only [receiverPass, hanswer, Bool.false_eq_true, if_false, Option.toList_some,
        List.length_append, List.length_singleton]
      omega
  | packetFault fault => exact calm.elim
  | ackFault fault => exact calm.elim

/-- The steps of a run are the stages that chunks have gone through. -/
theorem Flowing.run (h : t.Flowing file sent arrived acked) (noNul : NoNul file)
    (bound : file.length < 2 ^ 31 - 1) (calm : ∀ event ∈ events, Undisturbed event)
    (measured : AllSteps Transfer.step Measured t events)
    (hrun : Foundations.run Transfer.step t events = some next) :
    ∃ sent' arrived' acked', next.Flowing file sent' arrived' acked' ∧
      sent' + arrived' + acked' = sent + arrived + acked + events.length := by
  induction events generalizing t sent arrived acked with
  | nil =>
    obtain rfl : t = next := by simpa using hrun
    exact ⟨sent, arrived, acked, h, rfl⟩
  | cons event events ih =>
    obtain ⟨middle, hstep, hrest⟩ := run_cons_eq_some.mp hrun
    obtain ⟨hmeasured, hmeasuredRest⟩ := measured middle hstep
    obtain ⟨sent', arrived', acked', hmiddle, hsum⟩ :=
      h.step noNul bound (calm event List.mem_cons_self) hmeasured hstep
    obtain ⟨sent'', arrived'', acked'', hlast, hsum'⟩ := ih hmiddle
      (fun other hother => calm other (List.mem_cons_of_mem _ hother)) hmeasuredRest hrest
    exact ⟨sent'', arrived'', acked'', hlast, by rw [List.length_cons]; omega⟩

/-- Before the last stage of the last chunk something undisturbed can happen. -/
theorem Flowing.exists_step (h : t.Flowing file sent arrived acked)
    (unfinished : acked < chunkCount file) :
    ∃ event, Undisturbed event ∧ t.step event ≠ none := by
  have hsent := h.sent
  have harrived := h.arrived
  have hrunning : t.sender.returned = none := by
    rw [h.sender.returned, if_neg unfinished.ne]
  cases hcan : t.sender.machine.canSend with
  | true =>
    obtain ⟨sender, hturn⟩ : ∃ sender, t.sender.step (.send .usual) = some sender :=
      Transmission.exists_step hrunning hcan
    exact ⟨.send .usual, rfl, by simp [Transfer.step, senderTurn, hturn]⟩
  | false =>
    by_cases hacks : t.acks = []
    · by_cases hpackets : t.packets = []
      · rw [hacks, List.length_nil] at harrived
        rw [hpackets, List.length_nil] at hsent
        obtain ⟨hgood, -, -⟩ := h.sender.stream (by omega)
        have hout := h.sender.out unfinished
        have hwindow := h.sender.window
        have hlimit := h.sender.limit
        have hopen : t.sender.machine.canSend = true := by
          rw [SenderStateMachine.canSend, InputStream.good, hgood]
          simp only [Bool.not_false, Bool.true_and, Bool.and_eq_true, decide_eq_true_eq]
          omega
        exact absurd (hcan.symm.trans hopen) Bool.false_ne_true
      · obtain ⟨packet, rest, hdeliver⟩ := deliver_first_of_ne_nil hpackets
        have hlt : arrived < chunkCount file := by
          have hle := h.sender.sent_le
          have hpos := List.length_pos_of_ne_nil hpackets
          omega
        have hopen : t.receiver.fin = false := by rw [h.receiver.fin, decide_eq_false hlt.ne]
        exact ⟨.packetArrives 0 [] 0 false, ⟨rfl, rfl⟩, by simp [Transfer.step, hopen, hdeliver]⟩
    · obtain ⟨ack, rest, hdeliver⟩ := deliver_first_of_ne_nil hacks
      obtain ⟨sender, hturn⟩ : ∃ sender,
          t.sender.step (.receive (some ack) .usual) = some sender :=
        Transmission.exists_step hrunning (by simp [Transmission.enabled, hcan])
      exact ⟨.ackArrives 0 .usual, rfl, by simp [Transfer.step, hdeliver, senderTurn, hturn]⟩

/-- After it nothing undisturbed can. -/
theorem Flowing.done (h : t.Flowing file sent arrived acked) (finished : acked = chunkCount file) :
    sent = chunkCount file ∧ arrived = chunkCount file ∧ Done t ∧ t.receiver.recvData = file ∧
      ∀ event, Undisturbed event → t.step event = none := by
  have hsent := h.sent
  have harrived := h.arrived
  have hle := h.sender.sent_le
  have hlast : arrived = chunkCount file := by omega
  have hreturned : t.sender.returned = some true := by
    rw [h.sender.returned, if_pos finished]
  have hclosed : t.receiver.fin = true := by rw [h.receiver.fin, decide_eq_true hlast]
  have hturn : ∀ turn, t.sender.step turn = none := fun turn => by
    rw [Transmission.step, if_neg (by simp [hreturned])]
  refine ⟨by omega, hlast, ⟨hreturned, hclosed⟩, ?_, fun event calm => ?_⟩
  · rw [h.receiver.recvData, hlast]
    refine List.take_of_length_le ?_
    unfold chunkCount mmsBytes
    omega
  · cases event with
    | send f => simp only [Transfer.step, senderTurn, hturn, Option.map_none]
    | timeout f => exact calm.elim
    | ackArrives index f =>
      have hnone : t.acks = [] := List.length_eq_zero_iff.mp (by omega)
      simp [Transfer.step, hnone, deliver]
    | packetArrives index behind stray throws => simp [Transfer.step, hclosed]
    | packetFault fault => exact calm.elim
    | ackFault fault => exact calm.elim

/-- Over a network that loses nothing and keeps the order, with no timeout, every run has at most
three steps for each chunk of the file, in whatever order they come. The receiver holds a prefix of
the file at every moment, and what was handed to `sendTo` are the chunks in their order, each once.
A run after which nothing undisturbed can happen has three steps for each chunk, both parties have
returned, and the receiver holds the file. -/
theorem undisturbed_delivers (caAckCount : ℤ) (noNul : NoNul file)
    (bound : file.length < 2 ^ 31 - 1) (events : List Event)
    (calm : ∀ event ∈ events, Undisturbed event)
    (measured : AllSteps step Measured (start caAckCount true (some file) .none) events)
    (hrun : run step (start caAckCount true (some file) .none) events = some t) :
    events.length ≤ 3 * chunkCount file ∧ t.receiver.recvData <+: file ∧
      (t.sender.handed.length ≤ chunkCount file ∧
        Numbered (IsChunk file) 0 (t.sender.handed.map (·.packet)).reverse) ∧
      ((∀ event, Undisturbed event → t.step event = none) ↔
        events.length = 3 * chunkCount file) ∧
      (events.length = 3 * chunkCount file → Done t ∧ t.receiver.recvData = file) := by
  obtain ⟨sent, arrived, acked, h, hsum⟩ :=
    (flowing_start caAckCount file).run noNul bound calm measured hrun
  -- the steps are the sum of three stages, and none is beyond the number of chunks
  have hsent := h.sent
  have harrived := h.arrived
  have hle := h.sender.sent_le
  have hfinished : events.length = 3 * chunkCount file → acked = chunkCount file := fun _ => by
    omega
  have hhanded := h.sender.length_handed
  refine ⟨by omega, ?_, ⟨by omega, h.sender.handed⟩, ⟨fun hquiet => ?_, fun hall => ?_⟩,
    fun hall => ?_⟩
  · rw [h.receiver.recvData]
    exact List.take_prefix _ _
  · by_contra hnot
    obtain ⟨event, hcalm, hstep⟩ := h.exists_step (by omega)
    exact hstep (hquiet event hcalm)
  · exact (h.done (hfinished hall)).2.2.2.2
  · obtain ⟨-, -, hdone, hfile, -⟩ := h.done (hfinished hall)
    exact ⟨hdone, hfile⟩

/-- One chunk and its three steps. -/
def inStep : List Event := [.send .usual, .packetArrives 0 [] 0 false, .ackArrives 0 .usual]

theorem undisturbed_delivers_inStep :
    ((run step (start 0 true (some [97, 98, 99]) .none) inStep).get
      (by decide +kernel)).receiver.recvData = [97, 98, 99] :=
  ((undisturbed_delivers 0 (by decide) (by decide) inStep
    (by simp [inStep, Undisturbed, Frame.usual]) (by decide +kernel)
    (Option.some_get _).symm).2.2.2.2 (by decide)).2

end Transfer

end Comnet.MP2
