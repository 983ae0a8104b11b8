/-
# The end of a transfer

The receiver returns as soon as the data is complete and answers nothing after the
acknowledgement that closes the transfer. The sender stops only when it receives
that acknowledgement, so everything hangs on the copies of it in flight: while one
is left the sender can still return, and when the last one is lost it sends for ever
to nobody.
-/

import Comnet.MP2.Transfer

set_option autoImplicit false

namespace Comnet.MP2

open Foundations

namespace Transfer

/-- An acknowledgement that closes the transfer is in flight. -/
def ClosingInFlight (acks : List Packet) : Prop := ∃ ack ∈ acks, ack.ack = true ∧ ack.fin = true

instance (acks : List Packet) : Decidable (ClosingInFlight acks) :=
  inferInstanceAs (Decidable (∃ ack ∈ acks, ack.ack = true ∧ ack.fin = true))

/-- When the receiver has returned, the sender has too or is going to be told. -/
def Answered (t : Transfer) : Prop :=
  t.receiver.fin = true → t.sender.returned = none → ClosingInFlight t.acks

/-- The steps that do not strand the sender: the network does not lose the last
acknowledgement that closes the transfer, and `sendTo` does not throw on the first. -/
def SparesClosing (t : Transfer) : Event → Prop
  | .ackFault (.lose index) => t.receiver.fin = true → t.sender.returned = none →
      ClosingInFlight (t.acks.eraseIdx index)
  | .packetArrives index behind stray throws => throws = true → t.sender.returned = none →
      ∀ packet rest, deliver index t.packets = some (packet, rest) →
        (t.receiver.receiveStep ⟨packet, 112, behind, stray, throws⟩).1.fin = false
  | _ => True

/-- Only a complete receiver closes. -/
def ClosesComplete (t : Transfer) : Prop :=
  ∀ ack ∈ t.acks, ack.fin = true → t.receiver.fin = true

variable {t next : Transfer} {event : Event}

/-- A pass that completes the data answers with a closing acknowledgement. -/
theorem closing_answer {s : ReceiverStateMachine} {a : Arrival} (hopen : s.fin = false)
    (hfin : (s.receiveStep a).1.fin = true) :
    ∃ answer, (s.receiveStep a).2 = some answer ∧ answer.ack = true ∧ answer.fin = true := by
  by_cases hdrop : (s.toLossFilter.count a).2 = -1
  · rw [ReceiverStateMachine.receiveStep_of_drop hdrop] at hfin
    exact absurd (hopen.symm.trans hfin) Bool.false_ne_true
  · have hsome : (s.receiveStep a).2.isSome := by
      rw [ReceiverStateMachine.receiveStep_of_pass hdrop]
      rfl
    obtain ⟨answer, hanswer⟩ := Option.isSome_iff_exists.mp hsome
    obtain ⟨seqNum, heq⟩ := ReceiverStateMachine.answer_eq hanswer
    refine ⟨answer, hanswer, ?_, ?_⟩
    · rw [heq]
      rfl
    · rw [heq]
      exact hfin

theorem closesComplete_step (h : t.ClosesComplete) (hstep : t.step event = some next) :
    next.ClosesComplete := by
  have hcases := step_cases hstep
  cases hcases with
  | ackArrives index f delivered turn =>
    exact fun ack hack => h ack (mem_rest_of_deliver delivered hack)
  | packetArrives index behind stray throws running delivered =>
    intro ack hack hfin
    rcases List.mem_append.mp hack with hold | hnew
    · exact absurd (running.symm.trans (h ack hold hfin)) Bool.false_ne_true
    · cases throws with
      | true => simp at hnew
      | false =>
        obtain ⟨seqNum, rfl⟩ := ReceiverStateMachine.answer_eq (Option.mem_toList.mp hnew)
        exact hfin
  | ackFault fault => exact fun ack hack => h ack (mem_of_mem_apply hack)
  | _ => exact h

/-- A closing acknowledgement that is delivered ends `transmit`. -/
theorem returned_of_closing {s next : Transmission} {ack : Packet} {f : Frame}
    (hack : ack.ack = true) (hfin : ack.fin = true)
    (hstep : s.step (.receive (some ack) f) = some next) : next.returned = some true := by
  obtain ⟨-, hmove⟩ := Transmission.step_cases hstep
  cases hmove with
  | receive recv f waiting reaction =>
    cases reaction with
    | final recv ack fin => rfl
    | ignored recv ack => exact absurd (ack.symm.trans hack) Bool.false_ne_true
    | duplicate recv ack notFin old notThird =>
      exact absurd (notFin.symm.trans hfin) Bool.false_ne_true
    | resent recv third sent measured =>
      exact absurd third (SenderStateMachine.not_thirdDuplicate_of_fin hfin)
    | refused recv third error notAcked =>
      exact absurd third (SenderStateMachine.not_thirdDuplicate_of_fin hfin)
    | advance recv new growth => exact absurd new (SenderStateMachine.not_newAck_of_fin hfin)

/-- From a state in which the sender is going to be told, a step leads to one in which it is not
exactly when it loses the last closing acknowledgement. -/
theorem answered_step (h : t.Answered) (hcloses : t.ClosesComplete)
    (hstep : t.step event = some next) : next.Answered ↔ t.SparesClosing event := by
  have hcases := step_cases hstep
  have hrunning : ∀ {turn sender}, t.sender.step turn = some sender → t.sender.returned = none :=
    fun hturn => (Transmission.step_cases hturn).1
  cases hcases with
  | send f turn => exact iff_of_true (fun hfin _ => h hfin (hrunning turn)) trivial
  | timeout f turn => exact iff_of_true (fun hfin _ => h hfin (hrunning turn)) trivial
  | ackArrives index f delivered turn =>
    refine iff_of_true (fun hfin hreturned => ?_) trivial
    obtain ⟨closing, hmem, hack, hclose⟩ := h hfin (hrunning turn)
    rcases eq_or_mem_of_deliver delivered hmem with rfl | hrest
    · have := returned_of_closing hack hclose turn
      exact absurd (hreturned.symm.trans this) (by decide)
    · exact ⟨closing, hrest, hack, hclose⟩
  | packetArrives index behind stray throws running delivered =>
    cases throws with
    | false =>
      refine iff_of_true (fun hfin _ => ?_) fun hthrows => nomatch hthrows
      obtain ⟨answer, hanswer, hack, hclose⟩ := closing_answer running hfin
      exact ⟨answer, List.mem_append_right _ (Option.mem_toList.mpr hanswer), hack, hclose⟩
    | true =>
      constructor
      · -- nothing new is in flight, so a closing answer would have closed the receiver before
        intro hnext _ hreturned packet rest hdelivered
        obtain ⟨rfl, rfl⟩ : _ = packet ∧ _ = rest := by
          simpa using delivered.symm.trans hdelivered
        by_contra hfin
        obtain ⟨closing, hmem, -, hclose⟩ := hnext ((Bool.not_eq_false _).mp hfin) hreturned
        have hold : closing ∈ t.acks := by simpa [receiverPass] using hmem
        exact absurd (running.symm.trans (hcloses closing hold hclose)) Bool.false_ne_true
      · intro hspares hfin hreturned
        have hopen := hspares rfl hreturned _ _ delivered
        exact absurd (hopen.symm.trans hfin) Bool.false_ne_true
  | packetFault fault => exact iff_of_true h trivial
  | ackFault fault =>
    cases fault with
    | lose index => exact Iff.rfl
    | duplicate index =>
      refine iff_of_true (fun hfin hreturned => ?_) trivial
      obtain ⟨closing, hmem, hclosing⟩ := h hfin hreturned
      exact ⟨closing, mem_apply_duplicate hmem, hclosing⟩

/-- In a run of the pair the sender is never stranded exactly when the network leaves it the last
closing acknowledgement in flight and `sendTo` does not throw on the first one. -/
theorem answered_iff_sparesClosing (caAckCount : ℤ) (opened : Bool)
    (fileName : Option (List UInt8)) (pattern : LossPattern) (events : List Event) :
    AllStates step Answered (start caAckCount opened fileName pattern) events ↔
      AllSteps step SparesClosing (start caAckCount opened fileName pattern) events := by
  have hopen : (start caAckCount opened fileName pattern).receiver.fin = false := rfl
  have hinit : (start caAckCount opened fileName pattern).Answered := fun hfin =>
    absurd (hopen.symm.trans hfin) Bool.false_ne_true
  have hcloses : (start caAckCount opened fileName pattern).ClosesComplete := fun ack hack =>
    absurd hack List.not_mem_nil
  exact allStates_iff_allSteps hinit hcloses (fun _ _ _ => closesComplete_step)
    (fun _ _ _ hcloses _ hanswered => answered_step hanswered hcloses)
    (AllSteps.of_forall (C := fun _ _ => True) fun _ _ => trivial)

/-- The one closing acknowledgement is lost. -/
def closingLost : List Event :=
  [.send .usual, .packetArrives 0 [] 0 false, .ackFault (.lose 0)]

theorem closingLost_stranded :
    ¬ AllStates step Answered (start 0 true (some [97, 98, 99]) .none) closingLost := by
  have hend : (run step (start 0 true (some [97, 98, 99]) .none) closingLost).map
      (fun t => (t.receiver.fin, t.sender.returned, decide (ClosingInFlight t.acks))) =
        some (true, none, false) := by
    decide +kernel
  refine not_allStates_of_run hend fun t hlast hanswered => ?_
  have hfin : t.receiver.fin = true := congrArg (·.1) hlast
  have hreturned : t.sender.returned = none := congrArg (·.2.1) hlast
  have hnone : decide (ClosingInFlight t.acks) = false := congrArg (·.2.2) hlast
  exact of_decide_eq_false hnone (hanswered hfin hreturned)

end Transfer

end Comnet.MP2
