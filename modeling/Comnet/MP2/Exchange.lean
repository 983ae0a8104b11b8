/-
# One exchange

The sender waits, its timer expires, it sends the segment at the acknowledged position
again, the segment arrives and the answer arrives. Nothing else is needed to make progress:
whatever else is in flight, and wherever the stream is, the exchange ends the transfer
or leaves the sender at the position behind what the receiver holds. A segment that the loss
pattern drops is sent again, and the pattern does not go on for ever.
-/

import Comnet.Foundations.Reachability
import Comnet.MP2.Acknowledgement
import Comnet.MP2.Closing
import Comnet.MP2.Confluence
import Comnet.MP2.PeriodicLoss
import Comnet.MP2.Rewinding

set_option autoImplicit false

namespace Comnet.MP2

open Foundations

namespace Transmission

variable {t next : Transmission} {turn : Turn} {file : List UInt8}

/-- While `transmit` runs, the count of the segments out is a value of its variable. -/
def CountTyped (t : Transmission) : Prop := t.returned = none → FitsInt t.machine.notAcked

theorem countTyped_step (h : t.CountTyped) (hstep : t.step turn = some next) :
    next.CountTyped := by
  obtain ⟨running, hmove⟩ := step_cases hstep
  intro hrunning
  cases hmove with
  | send f admitted sending =>
    cases sending with
    | full whole sent measured => exact fitsInt_narrow _
    | refused whole error notAcked => exact nomatch hrunning
    | short rest =>
      change FitsInt (t.machine.counted f)
      unfold SenderStateMachine.counted
      split_ifs
      · exact h running
      · exact fitsInt_narrow _
  | receive recv f waiting reaction =>
    cases reaction with
    | timeout => exact fitsInt_zero
    | final recv ack fin => exact nomatch hrunning
    | resent recv third sent measured =>
      obtain ⟨hlower, hupper⟩ := t.machine.halved_mem
      change FitsInt (t.machine.halved + 1)
      constructor <;> omega
    | refused recv third error notAcked => exact nomatch hrunning
    | advance recv new growth => cases growth <;> exact fitsInt_narrow _
    | _ => exact h running

/-- `transmit` is sending a file that it can open again. -/
structure OnFile (file : List UInt8) (t : Transmission) : Prop where
  running : t.returned = none
  typed : FitsInt t.machine.notAcked
  reads : t.machine.ReadsFrom file
  limit : t.machine.maxNotAcked = 25
  acked_pos : 1 ≤ t.machine.ackedPosition.toNat

/-- A turn that is enabled is taken. -/
theorem exists_step (running : t.returned = none) (enabled : t.enabled turn = true) :
    ∃ next, t.step turn = some next := by
  rw [step, if_pos ⟨running, enabled⟩]
  exact ⟨_, rfl⟩

/-- A turn that does not end `transmit` leaves it on the file. -/
theorem OnFile.step (h : t.OnFile file) (hstep : t.step turn = some next)
    (running : next.returned = none) : next.OnFile file :=
  ⟨running, countTyped_step (fun _ => h.typed) hstep running, readsFrom_step h.reads hstep,
    maxNotAcked_step h.limit hstep, h.acked_pos.trans (ackedPosition_mono hstep)⟩

/-- A round of the inner loop puts the next chunk in flight. -/
theorem wire_send {f : Frame} (sent : f.throws = false) (admitted : t.machine.canSend = true) :
    t.wire (.send f) = [t.machine.nextPacket f] := by
  have hpacket := SenderStateMachine.sendRound_packet (f := f) (readable_of_canSend admitted)
  unfold wire
  rw [if_neg (by simp [Turn.frame, sent])]
  simp [output, Handed.of, hpacket]

/-- An acknowledgement that is no third duplicate puts nothing in flight. -/
theorem wire_of_not_third {f : Frame} {recv : Packet} (h : ¬ t.machine.ThirdDuplicate recv) :
    t.wire (.receive (some recv) f) = [] := by
  have hhanded : (t.machine.receive (some recv) f).handed = none := by
    rw [← Option.not_isSome_iff_eq_none, SenderStateMachine.isSome_handed_iff]
    exact h
  unfold wire
  simp [output, hhanded]

/-- A timeout puts nothing in flight. -/
theorem wire_timeout (f : Frame) : t.wire (.receive none f) = [] := by
  have hreaction := SenderStateMachine.receive_cases (s := t.machine) (f := f) none
  have hhanded : (t.machine.receive none f).handed = none := by
    generalize t.machine.receive none f = outcome at hreaction ⊢
    cases hreaction
    rfl
  unfold wire
  simp [output, hhanded]

/-- What lies behind a full chunk is two bytes and the end of the string. -/
theorem reported_usual {m : SenderStateMachine} (noNul : NoNul m.message.content)
    (whole : (m.message.chunk mmsBytes).length = mmsBytes) :
    SenderStateMachine.reported .usual (m.chunkMemory .usual) = mmsBytes := by
  have hchunk : NoNul (m.message.chunk mmsBytes) :=
    noNul.sublist ((List.take_sublist _ _).trans (List.drop_sublist _ _))
  rw [SenderStateMachine.reported_of_sent rfl, SenderStateMachine.chunkMemory,
    overwrite_replicate, whole, Nat.sub_self, List.replicate_zero, List.append_nil,
    strlen_append hchunk, whole]
  rfl

/-- A round of the inner loop that nothing disturbs puts the next chunk in flight, and either the
stream is exhausted or one segment more is out. -/
theorem OnFile.send (h : t.OnFile file) (noNul : NoNul file)
    (admitted : t.machine.canSend = true) :
    ∃ next, t.step (.send .usual) = some next ∧ next.OnFile file ∧
      next.machine.ackedPosition = t.machine.ackedPosition ∧
      next.machine.cwnd = t.machine.cwnd ∧
      (next.machine.message.good = false ∨
        next.machine.notAcked = t.machine.notAcked + 1) ∧
      t.wire (.send .usual) = [t.machine.nextPacket .usual] := by
  obtain ⟨next, hstep⟩ : ∃ next, t.step (.send .usual) = some next :=
    exists_step h.running admitted
  have hwire := wire_send (f := .usual) rfl admitted
  refine ⟨next, hstep, ?_⟩
  obtain ⟨-, hmove⟩ := step_cases hstep
  cases hmove with
  | send f admitted sending =>
    cases sending with
    | full whole sent measured =>
      have hlimit := h.limit
      have hlower := h.typed.lower
      obtain ⟨-, hroom⟩ := notAcked_lt_of_canSend admitted
      have hcount : narrow (t.machine.notAcked + 1) = t.machine.notAcked + 1 :=
        narrow_of_mem (by omega) (by omega)
      exact ⟨h.step hstep rfl, rfl, rfl, Or.inr hcount, hwire⟩
    | refused whole error notAcked =>
      have hreported := reported_usual (h.reads.content ▸ noNul) whole
      rw [hreported] at error
      exact absurd error (by decide)
    | short rest =>
      refine ⟨h.step hstep rfl, rfl, rfl, Or.inl ?_, hwire⟩
      simp [SenderStateMachine.afterChunk, rest]

/-- A new acknowledgement takes the sender to the position it names. -/
theorem advanced_of_new {recv : Packet} {f : Frame} (new : t.machine.NewAck recv)
    (hstep : t.step (.receive (some recv) f) = some next) :
    next.returned = none ∧ next.machine.ackedPosition = recv.ackNum := by
  obtain ⟨-, hmove⟩ := step_cases hstep
  cases hmove with
  | receive recv f waiting reaction =>
    cases reaction with
    | final recv ack fin => exact absurd new (SenderStateMachine.not_newAck_of_fin fin)
    | ignored recv ack => exact absurd new (SenderStateMachine.not_newAck_of_no_ack ack)
    | duplicate recv ack notFin old notThird =>
      exact absurd new (SenderStateMachine.not_newAck_of_old old)
    | resent recv third sent measured => exact absurd third new.not_thirdDuplicate
    | refused recv third error notAcked => exact absurd third new.not_thirdDuplicate
    | advance recv new growth => exact ⟨rfl, rfl⟩

/-- The timer expires. -/
theorem OnFile.timeout (h : t.OnFile file) (waiting : t.machine.canSend = false) :
    ∃ next, t.step (.receive none .usual) = some next ∧ next.OnFile file ∧
      next.machine = t.machine.processTimeout := by
  obtain ⟨next, hstep⟩ : ∃ next, t.step (.receive none .usual) = some next :=
    exists_step h.running (by simp [enabled, waiting])
  refine ⟨next, hstep, ?_⟩
  obtain ⟨-, hmove⟩ := step_cases hstep
  cases hmove with
  | receive recv f waiting reaction =>
    cases reaction
    exact ⟨h.step hstep rfl, rfl⟩

end Transmission

namespace SenderStateMachine

variable (file : List UInt8) (s : SenderStateMachine) (f : Frame)

/-- The bytes of the segment at the acknowledged position: a full chunk or the rest of the
file. -/
theorem length_firstChunk :
    ((file.drop (s.ackedPosition.toNat - 1)).take mmsBytes).length =
      min mmsBytes (file.length - (s.ackedPosition.toNat - 1)) := by
  rw [List.length_take, List.length_drop]

theorem dataLen_firstPacket : (s.firstPacket file f).dataLen.toNat =
    min mmsBytes (file.length - (s.ackedPosition.toNat - 1)) := by
  have hlength := s.length_firstChunk file
  change (UInt16.ofNat ((file.drop (s.ackedPosition.toNat - 1)).take mmsBytes).length).toNat = _
  rw [toNat_dataLen (hlength ▸ Nat.min_le_left _ _), hlength]

theorem fin_firstPacket : (s.firstPacket file f).fin =
    decide (min mmsBytes (file.length - (s.ackedPosition.toNat - 1)) < mmsBytes) := by
  rw [← s.length_firstChunk file]
  rfl

end SenderStateMachine

/-- The arrival of the segment that a sender sends after a timeout. -/
def Arrival.again (file : List UInt8) (m : SenderStateMachine) : Arrival :=
  ⟨m.firstPacket file .usual, 112, [], 0, false⟩

namespace ReceiverStateMachine

variable {s : ReceiverStateMachine} {m : SenderStateMachine} {file : List UInt8}

/-- Draining adds to what has been received and closes nothing that is open again. -/
theorem checkEarlyData_grows (s : ReceiverStateMachine) :
    s.recvData <+: s.checkEarlyData.recvData ∧ (s.fin = true → s.checkEarlyData.fin = true) := by
  refine (checkEarlyData_rule (P := fun t => s.recvData <+: t.recvData ∧
    (s.fin = true → t.fin = true)) ⟨List.prefix_rfl, id⟩ ?_).1
  rintro t early ⟨hbegins, hfin⟩ -
  rw [takeEarly_recvData, takeEarly_fin]
  exact ⟨hbegins.trans (List.prefix_append _ _), fun h => by rw [hfin h, Bool.true_or]⟩

/-- The segment at the position behind what the receiver holds closes the data, being the last
one, or is stored, being a full chunk. -/
theorem fin_or_grows (position : s.ackedPosition = s.recvData.length)
    (small : s.recvData.length < 2 ^ 31 - 1)
    (next : m.ackedPosition.toNat = s.recvData.length + 1)
    (pass : (s.toLossFilter.count (.again file m)).2 ≠ -1) :
    (s.receiveStep (.again file m)).1.fin = true ∨
      s.recvData.length < (s.receiveStep (.again file m)).1.recvData.length ∧
        s.recvData.length < file.length := by
  rw [receiveStep_of_pass pass]
  have hexpected : (m.firstPacket file .usual).seqNum =
      toWord ((s.receivePacket (.again file m)).1.ackedPosition + 1) := by
    apply UInt32.toNat_inj.mp
    rw [ackedPosition_receivePacket, position, toNat_toWord_of_lt (by omega) (by omega)]
    change m.ackedPosition.toNat = _
    omega
  rcases handle_cases (s.receivePacket (.again file m)).1 (m.firstPacket file .usual) [] with
    ⟨hearly, -⟩ | ⟨hold, -⟩ | ⟨-, heq⟩
  · exact absurd hearly (by rw [hexpected]; exact UInt32.lt_irrefl _)
  · exact absurd hold (by rw [hexpected]; exact UInt32.lt_irrefl _)
  · change ((s.receivePacket _).1.handle (m.firstPacket file .usual) []).1.fin = true ∨
      _ < ((s.receivePacket _).1.handle (m.firstPacket file .usual) []).1.recvData.length ∧ _
    rw [heq]
    obtain ⟨hgrows, hcloses⟩ := checkEarlyData_grows
      ((s.receivePacket (.again file m)).1.processPacket (m.firstPacket file .usual) [])
    have hcount := m.dataLen_firstPacket file .usual
    by_cases hwhole : s.recvData.length + mmsBytes ≤ file.length
    · right
      have hstored : ((s.receivePacket (.again file m)).1.processPacket
          (m.firstPacket file .usual) []).recvData.length = s.recvData.length + mmsBytes := by
        change (s.recvData ++ bytesAt _ (m.firstPacket file .usual).dataLen.toNat).length = _
        rw [List.length_append, length_bytesAt, hcount]
        omega
      have hle := hgrows.length_le
      unfold mmsBytes at *
      omega
    · left
      apply hcloses
      change (s.fin || (m.firstPacket file .usual).fin) = true
      rw [SenderStateMachine.fin_firstPacket, decide_eq_true (by unfold mmsBytes at *; omega),
        Bool.or_true]

end ReceiverStateMachine

namespace Transfer

variable {t u next : Transfer} {file : List UInt8}

/-- The sender waits, and the receiver, its answers and what is acknowledged are as in another
state. -/
structure Waits (file : List UInt8) (t u : Transfer) : Prop where
  sender : u.sender.OnFile file
  waiting : u.sender.machine.canSend = false
  acked : u.sender.machine.ackedPosition = t.sender.machine.ackedPosition
  receiver : u.receiver = t.receiver
  acks : u.acks = t.acks

theorem not_canSend_of_exhausted {m : SenderStateMachine} (h : m.message.good = false) :
    m.canSend = false := by
  simp [SenderStateMachine.canSend, h]

/-- The inner loop ends: there are no more than so many segments out. -/
theorem reaches_waits (h : t.sender.OnFile file) (noNul : NoNul file) :
    Reaches step (t.Waits file) t := by
  -- the measure is what the limit still admits
  refine Reaches.of_variant (I := fun u => u.sender.OnFile file ∧
    u.sender.machine.ackedPosition = t.sender.machine.ackedPosition ∧
      u.receiver = t.receiver ∧ u.acks = t.acks)
    (fun u => (25 - u.sender.machine.notAcked).toNat) ?_ ⟨h, rfl, rfl, rfl⟩
  rintro u ⟨hfile, hacked, hreceiver, hacks⟩
  cases hcan : u.sender.machine.canSend with
  | false => exact Reaches.refl (Or.inl ⟨hfile, hcan, hacked, hreceiver, hacks⟩)
  | true =>
    obtain ⟨sender, hturn, hnext, hsame, -, hround, -⟩ := hfile.send noNul hcan
    have hstep : u.step (.send .usual) = some { u with
        sender := sender
        packets := u.packets ++ u.sender.wire (.send .usual) } := by
      simp only [step, senderTurn, hturn, Option.map_some]
    refine Reaches.of_step hstep (Reaches.refl ?_)
    rcases hround with hexhausted | hout
    · exact Or.inl ⟨hnext, not_canSend_of_exhausted hexhausted, hsame.trans hacked, hreceiver,
        hacks⟩
    · refine Or.inr ⟨⟨hnext, hsame.trans hacked, hreceiver, hacks⟩, ?_⟩
      have hlimit := hfile.limit
      simp only [SenderStateMachine.canSend, Bool.and_eq_true, decide_eq_true_eq] at hcan
      dsimp only
      omega

/-- A waiting sender sends the segment at the acknowledged position when its timer expires, and
waits again. -/
theorem reaches_of_resend (h : t.sender.OnFile file) (noNul : NoNul file)
    (waiting : t.sender.machine.canSend = false) {P : Transfer → Prop}
    (hgoal : ∀ v, t.Waits file v →
      v.packets = t.packets ++ [t.sender.machine.firstPacket file .usual] → Reaches step P v) :
    Reaches step P t := by
  obtain ⟨expired, htimeout, hfile, hmachine⟩ := h.timeout waiting
  have hcan : expired.machine.canSend = true := by
    rw [hmachine]
    exact Transmission.canSend_processTimeout (h.reads.fileName ▸ rfl) h.limit
  obtain ⟨sender, hsend, hsent, hsame, hwindow, hround, hwire⟩ := hfile.send noNul hcan
  have hfull : sender.machine.canSend = false := by
    rcases hround with hexhausted | hout
    · exact not_canSend_of_exhausted hexhausted
    · rw [hmachine] at hwindow hout
      have hcwnd : sender.machine.cwnd = 1 := hwindow
      have hnotAcked : sender.machine.notAcked = 1 := hout
      simp [SenderStateMachine.canSend, hcwnd, hnotAcked]
  have hpacket : expired.machine.nextPacket .usual =
      t.sender.machine.firstPacket file .usual := by
    rw [hmachine, h.reads.nextPacket_processTimeout h.acked_pos]
  have hacked : sender.machine.ackedPosition = t.sender.machine.ackedPosition := by
    rw [hsame, hmachine]
    rfl
  have hfirst : t.step (.timeout .usual) = some { t with
      sender := expired
      packets := t.packets ++ t.sender.wire (.receive none .usual) } := by
    simp only [step, senderTurn, htimeout, Option.map_some]
  refine Reaches.of_step hfirst ?_
  rw [Transmission.wire_timeout, List.append_nil]
  have hsecond : step { t with sender := expired } (.send .usual) = some { t with
      sender := sender
      packets := t.packets ++ [t.sender.machine.firstPacket file .usual] } := by
    simp only [step, senderTurn, hsend, Option.map_some, hwire, hpacket]
  exact Reaches.of_step hsecond (hgoal _ ⟨hsent, hfull, hacked, rfl, rfl⟩ rfl)

/-- Any acknowledgement in flight can reach a waiting sender. -/
theorem reaches_of_ack (running : t.sender.returned = none)
    (waiting : t.sender.machine.canSend = false) {ack : Packet} (inFlight : ack ∈ t.acks)
    {P : Transfer → Prop}
    (hgoal : ∀ v, t.sender.step (.receive (some ack) .usual) = some v.sender →
      v.receiver = t.receiver → P v) : Reaches step P t := by
  obtain ⟨index, rest, hdeliver⟩ := exists_deliver inFlight
  obtain ⟨sender, hturn⟩ : ∃ sender, t.sender.step (.receive (some ack) .usual) = some sender :=
    Transmission.exists_step running (by simp [Transmission.enabled, waiting])
  have hstep : t.step (.ackArrives index .usual) = some { t with
      sender := sender
      packets := t.packets ++ t.sender.wire (.receive (some ack) .usual)
      acks := rest } := by
    simp only [step, hdeliver, senderTurn, hturn, Option.map_some]
  exact Reaches.of_step hstep (Reaches.refl (hgoal _ hturn rfl))

/-! ## Making progress -/

/-- What an exchange asks of the receiver: its position counts what it holds, fewer bytes than a
signed integer counts, and a segment of the file at a position it has reached keeps it so. -/
structure Receives (file : List UInt8) (R : ReceiverStateMachine → Prop) : Prop where
  position : ∀ s, R s → s.ackedPosition = s.recvData.length
  small : ∀ s, R s → s.recvData.length < 2 ^ 31 - 1
  keeps : ∀ (s : ReceiverStateMachine) (m : SenderStateMachine), R s →
    1 ≤ m.ackedPosition.toNat → m.ackedPosition.toNat ≤ s.recvData.length + 1 →
      R (s.receiveStep (.again file m)).1

/-- The transfer has not ended for either party. -/
structure Underway (file : List UInt8) (R : ReceiverStateMachine → Prop) (t : Transfer) :
    Prop where
  sender : t.sender.OnFile file
  open_ : t.receiver.fin = false
  receiver : R t.receiver
  acked : t.sender.machine.ackedPosition.toNat ≤ t.receiver.recvData.length + 1
  spares : t.receiver.SparesSome

/-- Both parties have ended the transfer well. -/
structure Done (t : Transfer) : Prop where
  returned : t.sender.returned = some true
  closed : t.receiver.fin = true

/-- The sender is behind what the receiver holds by nothing, and the receiver has not lost
anything; where there was nothing between them before, it has got more of the file. -/
structure Advanced (file : List UInt8) (held : ℕ) (acked : ℕ) (t : Transfer) : Prop where
  synced : t.sender.machine.ackedPosition.toNat = t.receiver.recvData.length + 1
  kept : held ≤ t.receiver.recvData.length
  grown : acked = held + 1 → held < t.receiver.recvData.length ∧ held < file.length

variable {R : ReceiverStateMachine → Prop}

/-- The answer to a pass acknowledges what the receiver then holds. -/
theorem answer_of_pass {s : ReceiverStateMachine} {a : Arrival}
    (position : (s.receiveStep a).1.ackedPosition = (s.receiveStep a).1.recvData.length)
    (small : (s.receiveStep a).1.recvData.length < 2 ^ 31 - 1)
    (pass : (s.toLossFilter.count a).2 ≠ -1) :
    ∃ answer, (s.receiveStep a).2 = some answer ∧ answer.ack = true ∧
      answer.fin = (s.receiveStep a).1.fin ∧
      answer.ackNum.toNat = (s.receiveStep a).1.recvData.length + 1 := by
  obtain ⟨answer, hanswer⟩ : ∃ answer, (s.receiveStep a).2 = some answer := by
    rw [ReceiverStateMachine.receiveStep_of_pass pass]
    exact ⟨_, rfl⟩
  obtain ⟨seqNum, heq⟩ := ReceiverStateMachine.answer_eq hanswer
  refine ⟨answer, hanswer, ?_, ?_, toNat_ackNum_answer position small hanswer⟩
  · rw [heq]
    rfl
  · rw [heq]
    rfl

/-- A pass leaves the loss pattern what it is, one arrival further on. -/
theorem filter_receiveStep (s : ReceiverStateMachine) (a : Arrival) :
    (s.receiveStep a).1.toLossFilter = (s.toLossFilter.count a).1 := by
  by_cases hdrop : (s.toLossFilter.count a).2 = -1
  · rw [ReceiverStateMachine.receiveStep_of_drop hdrop]
    rfl
  · rw [ReceiverStateMachine.receiveStep_of_pass hdrop,
      ReceiverStateMachine.toLossFilter_handle]
    rfl

/-- The packet sent last can arrive next. -/
theorem reaches_of_arrival (hopen : t.receiver.fin = false) {packet : Packet}
    {old : List Packet} (hpackets : t.packets = old ++ [packet]) {P : Transfer → Prop}
    (hgoal : Reaches step P { t with
      packets := old
      receiver := (t.receiver.receiveStep ⟨packet, 112, [], 0, false⟩).1
      acks := t.acks ++ (t.receiver.receiveStep ⟨packet, 112, [], 0, false⟩).2.toList }) :
    Reaches step P t := by
  refine Reaches.of_step (a := .packetArrives old.length [] 0 false) ?_ hgoal
  simp only [step, hopen, hpackets, deliver_last, Bool.false_eq_true, if_false, receiverPass]

/-- The segment is sent again until the loss pattern lets it through, and its answer ends the
transfer or takes the sender to the position reached. -/
theorem Underway.reaches_of_waiting (receives : Receives file R) (noNul : NoNul file) (n : ℕ)
    (h : t.Underway file R) (waiting : t.sender.machine.canSend = false)
    (passes : t.receiver.toLossFilter.undropped
      (List.replicate n (.again file t.sender.machine)) ≠ []) :
    Reaches step (fun v => (Done v ∧ R v.receiver) ∨ v.Underway file R ∧
      v.Advanced file t.receiver.recvData.length t.sender.machine.ackedPosition.toNat) t := by
  induction n generalizing t with
  | zero => exact absurd rfl passes
  | succ n ih =>
    refine reaches_of_resend h.sender noNul waiting fun v hv hpackets => ?_
    refine reaches_of_arrival (by rw [hv.receiver, h.open_]) hpackets ?_
    rw [hv.receiver, hv.acks]
    change Reaches step _ { v with
      packets := t.packets
      receiver := (t.receiver.receiveStep (.again file t.sender.machine)).1
      acks := t.acks ++ (t.receiver.receiveStep (.again file t.sender.machine)).2.toList }
    have hacked := h.acked
    have hnext : R (t.receiver.receiveStep (.again file t.sender.machine)).1 :=
      receives.keeps _ _ h.receiver h.sender.acked_pos hacked
    have hgrown := (ReceiverStateMachine.recvData_isPrefix t.receiver
      (.again file t.sender.machine)).length_le
    have hfilter := filter_receiveStep t.receiver (.again file t.sender.machine)
    have hspares : (t.receiver.receiveStep (.again file t.sender.machine)).1.SparesSome := by
      rw [hfilter, toLossPattern_count]
      exact h.spares
    by_cases hdrop : (t.receiver.toLossFilter.count (.again file t.sender.machine)).2 = -1
    · have hsame := ReceiverStateMachine.receiveStep_of_drop hdrop
      rw [hsame] at hnext hspares ⊢
      have hagain : Arrival.again file v.sender.machine = .again file t.sender.machine := by
        simp only [Arrival.again, SenderStateMachine.firstPacket, hv.acked]
      have hloop := ih (t := { v with
          packets := t.packets
          receiver := (t.receiver.receivePacket (.again file t.sender.machine)).1
          acks := t.acks ++ (none : Option Packet).toList })
        ⟨hv.sender, h.open_, hnext, hv.acked ▸ hacked, hspares⟩ hv.waiting (by
          rw [hagain]
          rw [List.replicate_succ, LossFilter.undropped_of_drop hdrop] at passes
          exact passes)
      simpa only [hv.acked, ReceiverStateMachine.recvData_receivePacket] using hloop
    · have hposition := receives.position _ hnext
      have hsmall := receives.small _ hnext
      by_cases hclosed : (t.receiver.receiveStep (.again file t.sender.machine)).1.fin = true
      · obtain ⟨answer, hanswer, hack, hclose⟩ := closing_answer h.open_ hclosed
        rw [hanswer]
        apply reaches_of_ack (by exact hv.sender.running) (by exact hv.waiting)
          (List.mem_append_right _ (List.mem_singleton_self answer))
        intro w hturn hreceiver
        exact Or.inl ⟨⟨returned_of_closing hack hclose hturn, hreceiver ▸ hclosed⟩,
          hreceiver ▸ hnext⟩
      · obtain ⟨answer, hanswer, hack, hfin, hnum⟩ := answer_of_pass hposition hsmall hdrop
        have hopen : answer.fin = false := hfin.trans ((Bool.not_eq_true _).mp hclosed)
        -- with nothing between them before, the segment was the next one and has been stored
        have hgrows : t.sender.machine.ackedPosition.toNat = t.receiver.recvData.length + 1 → _ :=
          fun hnext => (ReceiverStateMachine.fin_or_grows (receives.position _ h.receiver)
            (receives.small _ h.receiver) hnext hdrop).resolve_left hclosed
        have new : v.sender.machine.NewAck answer := by
          refine ⟨hack, hopen, UInt32.lt_iff_toNat_lt.mpr ?_⟩
          rw [hv.acked, hnum]
          by_cases hnext : t.sender.machine.ackedPosition.toNat = t.receiver.recvData.length + 1
          · have := (hgrows hnext).1
            omega
          · omega
        rw [hanswer]
        apply reaches_of_ack (by exact hv.sender.running) (by exact hv.waiting)
          (List.mem_append_right _ (List.mem_singleton_self answer))
        intro w hturn hreceiver
        obtain ⟨hrunning, hmoved⟩ := Transmission.advanced_of_new new hturn
        have hsynced : w.sender.machine.ackedPosition.toNat = w.receiver.recvData.length + 1 := by
          rw [hmoved, hnum, hreceiver]
        refine Or.inr ⟨⟨hv.sender.step hturn hrunning, ?_, ?_, hsynced.le, ?_⟩, hsynced, ?_, ?_⟩
        · rw [hreceiver]
          exact (Bool.not_eq_true _).mp hclosed
        · exact hreceiver ▸ hnext
        · exact hreceiver ▸ hspares
        · exact hreceiver ▸ hgrown
        · exact hreceiver ▸ hgrows

end Transfer

end Comnet.MP2
