/-
# Acknowledgements never run ahead

Whatever the network does, and whatever the packets carry, the sender believes no
more to be received than the receiver holds. An acknowledgement in flight names a
position the receiver has reached, which it never goes back from, and the sender
only moves to such a position. So the places the sender goes back to are never
beyond what is stored.
-/

import Comnet.MP2.Transfer

set_option autoImplicit false

namespace Comnet.MP2

open Foundations

namespace Transfer

/-- The receiver's position counts what it holds, and neither an acknowledgement in
flight nor the sender is beyond it. -/
structure Behind (t : Transfer) : Prop where
  position : t.receiver.ackedPosition = t.receiver.recvData.length
  inFlight : ∀ ack ∈ t.acks, ack.ackNum.toNat ≤ t.receiver.recvData.length + 1
  acked_pos : 1 ≤ t.sender.machine.ackedPosition.toNat
  acked : t.sender.machine.ackedPosition.toNat ≤ t.receiver.recvData.length + 1

variable {t next : Transfer} {event : Event}

theorem behind_start (caAckCount : ℤ) (opened : Bool) (fileName : Option (List UInt8))
    (pattern : LossPattern) : (start caAckCount opened fileName pattern).Behind := by
  cases opened <;> exact ⟨rfl, fun _ h => absurd h List.not_mem_nil, le_rfl, le_rfl⟩

/-- The receiver never forgets. -/
theorem recvData_mono (h : t.step event = some next) :
    t.receiver.recvData.length ≤ next.receiver.recvData.length := by
  have hcases := step_cases h
  cases hcases with
  | packetArrives index behind stray throws running delivered =>
    exact (ReceiverStateMachine.recvData_isPrefix _ _).length_le
  | _ => exact le_rfl

/-- The sender never goes back. -/
theorem acked_mono (h : t.step event = some next) :
    t.sender.machine.ackedPosition.toNat ≤ next.sender.machine.ackedPosition.toNat := by
  have hcases := step_cases h
  cases hcases with
  | send f turn => exact Transmission.ackedPosition_mono turn
  | timeout f turn => exact Transmission.ackedPosition_mono turn
  | ackArrives index f delivered turn => exact Transmission.ackedPosition_mono turn
  | _ => exact le_rfl

/-- The answer to a packet names the position after what the receiver then holds. -/
theorem toNat_ackNum_answer {s : ReceiverStateMachine} {a : Arrival} {answer : Packet}
    (hposition : (s.receiveStep a).1.ackedPosition = (s.receiveStep a).1.recvData.length)
    (bound : (s.receiveStep a).1.recvData.length < 2 ^ 31 - 1)
    (h : (s.receiveStep a).2 = some answer) :
    answer.ackNum.toNat = (s.receiveStep a).1.recvData.length + 1 := by
  obtain ⟨seqNum, rfl⟩ := ReceiverStateMachine.answer_eq h
  change (toWord _).toNat = _
  rw [hposition, toNat_toWord_of_lt (by omega) (by omega)]
  omega

/-- No step leaves the sender, or anything in flight to it, ahead. -/
theorem behind_step (h : t.Behind) (bound : next.receiver.recvData.length < 2 ^ 31 - 1)
    (hstep : t.step event = some next) : next.Behind := by
  have hcases := step_cases hstep
  have hpos := h.acked_pos.trans (acked_mono hstep)
  cases hcases with
  | send f turn =>
    refine ⟨h.position, h.inFlight, hpos, ?_⟩
    rcases Transmission.ackedPosition_step turn with heq | ⟨recv, f, hturn, -, -⟩
    · exact heq ▸ h.acked
    · exact nomatch hturn
  | timeout f turn =>
    refine ⟨h.position, h.inFlight, hpos, ?_⟩
    rcases Transmission.ackedPosition_step turn with heq | ⟨recv, f, hturn, -, -⟩
    · exact heq ▸ h.acked
    · exact nomatch hturn
  | ackArrives index f delivered turn =>
    refine ⟨h.position, fun ack hack => h.inFlight ack (mem_rest_of_deliver delivered hack),
      hpos, ?_⟩
    rcases Transmission.ackedPosition_step turn with heq | ⟨recv, f, hturn, -, heq⟩
    · exact heq ▸ h.acked
    · obtain ⟨rfl, -⟩ : _ = recv ∧ _ := by simpa using hturn
      rw [heq]
      exact h.inFlight _ (mem_of_deliver delivered)
  | packetArrives index behind stray throws running delivered =>
    have hposition := ReceiverStateMachine.ackedPosition_receiveStep h.position bound
    have hgrown := recvData_mono hstep
    refine ⟨hposition, fun ack hack => ?_, hpos, h.acked.trans (Nat.succ_le_succ hgrown)⟩
    rcases List.mem_append.mp hack with hold | hnew
    · exact (h.inFlight ack hold).trans (Nat.succ_le_succ hgrown)
    · cases throws with
      | true => simp at hnew
      | false => exact (toNat_ackNum_answer hposition bound (Option.mem_toList.mp hnew)).le
  | packetFault fault => exact ⟨h.position, h.inFlight, hpos, h.acked⟩
  | ackFault fault =>
    exact ⟨h.position, fun ack hack => h.inFlight ack (mem_of_mem_apply hack), hpos, h.acked⟩

variable {events : List Event}

/-- What a step never lowers, a run never lowers. -/
theorem run_mono {m : Transfer → ℕ}
    (hstep : ∀ s event next, step s event = some next → m s ≤ m next)
    (hrun : run step t events = some next) : m t ≤ m next :=
  invariant_run (P := fun s => m t ≤ m s) le_rfl
    (fun s event next h hs => h.trans (hstep s event next hs)) hrun

theorem behind_run (h : t.Behind) (bound : next.receiver.recvData.length < 2 ^ 31 - 1)
    (hrun : run step t events = some next) : next.Behind := by
  induction events generalizing t with
  | nil =>
    obtain rfl : t = next := by simpa using hrun
    exact h
  | cons event events ih =>
    obtain ⟨middle, hstep, hrest⟩ := run_cons_eq_some.mp hrun
    have hgrown : middle.receiver.recvData.length ≤ next.receiver.recvData.length :=
      run_mono (fun _ _ _ => recvData_mono) hrest
    exact ih (behind_step h (hgrown.trans_lt bound) hstep) hrest

/-- Where a timeout and a retransmission go back to. -/
theorem restart_le {m : SenderStateMachine} {held : ℕ} (hpos : 1 ≤ m.ackedPosition.toNat)
    (hacked : m.ackedPosition.toNat ≤ held + 1) :
    m.processTimeout.filePosition.toNat ≤ held ∧
      (m.processTimeout.message.good = true → m.processTimeout.message.tellg ≤ held) ∧
      (m.missingSegment.good = true → m.missingSegment.tellg ≤ held) := by
  have hsub : (m.ackedPosition - 1).toNat = m.ackedPosition.toNat - 1 := toNat_sub_one hpos
  have hplace : (m.ackedPosition - 1).toNat ≤ held := by omega
  refine ⟨hplace, fun hgood => ?_, fun hgood => ?_⟩
  · unfold SenderStateMachine.processTimeout at hgood ⊢
    dsimp only at hgood ⊢
    split_ifs at hgood ⊢ <;>
    · rw [InputStream.tellg_seekg hgood]
      exact_mod_cast hplace
  · unfold SenderStateMachine.missingSegment at hgood ⊢
    rw [InputStream.tellg_seekg hgood]
    exact_mod_cast hplace

/-- **Acknowledgement soundness.** In every run of the pair with fewer than
`2 ^ 31 - 1` bytes received, nothing in flight to the sender and not the sender itself
is ahead of what the receiver holds, the sender has never gone back, and a timeout or
a retransmission would restart at a byte that is stored or the next one to be. -/
theorem acknowledgements_behind (caAckCount : ℤ) (opened : Bool)
    (fileName : Option (List UInt8)) (pattern : LossPattern) (events : List Event) (t : Transfer)
    (hrun : run step (start caAckCount opened fileName pattern) events = some t)
    (bound : t.receiver.recvData.length < 2 ^ 31 - 1) :
    (∀ ack ∈ t.acks, ack.ackNum.toNat ≤ t.receiver.recvData.length + 1) ∧
      t.sender.machine.ackedPosition.toNat - 1 ≤ t.receiver.recvData.length ∧
      (∀ earlier later s, events = earlier ++ later →
        run step (start caAckCount opened fileName pattern) earlier = some s →
        s.sender.machine.ackedPosition ≤ t.sender.machine.ackedPosition) ∧
      t.sender.machine.processTimeout.filePosition.toNat ≤ t.receiver.recvData.length ∧
      (t.sender.machine.processTimeout.message.good = true →
        t.sender.machine.processTimeout.message.tellg ≤ t.receiver.recvData.length) ∧
      (t.sender.machine.missingSegment.good = true →
        t.sender.machine.missingSegment.tellg ≤ t.receiver.recvData.length) := by
  have hbehind : t.Behind :=
    behind_run (behind_start caAckCount opened fileName pattern) bound hrun
  have hacked := hbehind.acked
  refine ⟨hbehind.inFlight, by omega, fun earlier later s hsplit hearlier => ?_,
    restart_le hbehind.acked_pos hacked⟩
  rw [hsplit, run_append hearlier] at hrun
  exact UInt32.le_iff_toNat_le.mpr
    (run_mono (m := (·.sender.machine.ackedPosition.toNat)) (fun _ _ _ => acked_mono) hrun)

/-- The first chunk goes over, and its acknowledgement comes back. -/
def delivered : List Event := [.send .usual, .packetArrives 0 [] 0 false, .ackArrives 0 .usual]

theorem acknowledgements_behind_delivered :
    let t := (run step (start 0 true (some (List.replicate 150 97)) .none) delivered).get
      (by decide +kernel)
    t.sender.machine.ackedPosition = 101 ∧
      t.sender.machine.ackedPosition.toNat - 1 ≤ t.receiver.recvData.length :=
  ⟨by decide +kernel,
    (acknowledgements_behind 0 true (some (List.replicate 150 97)) .none delivered _
      (Option.some_get _).symm (by decide +kernel)).2.1⟩

end Transfer

end Comnet.MP2
