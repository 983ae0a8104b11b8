/-
# The times of round trips

The sender notes the time at which a packet is handed to `sendTo` under its sequence number,
and takes a sample of the round trip when a new acknowledgement comes, by the sequence number
that the receiver has copied into it. The times are unsigned, and so is their difference. An
acknowledgement always finds a time, however packets and acknowledgements are lost, doubled
or delayed, and unless the clock goes back that time is not later than the moment at which it
comes. The samples go into two averages, and these into the timeout that is printed.
-/

import Comnet.Foundations.Average
import Comnet.MP2.Transfer

set_option autoImplicit false

namespace Comnet.MP2

open Foundations

/-- `sendTimes_`, a map from `int`: when a packet of a sequence number was last handed to
`sendTo`. -/
abbrev SendTimes := ℤ → Option UInt64

namespace SendTimes

/-- What `sendData` notes before it calls `sendTo`. -/
def note (times : SendTimes) (packet : Packet) (now : UInt64) : SendTimes :=
  Function.update times (asInt packet.seqNum) (some now)

variable {times : SendTimes} {packet : Packet} {now : UInt64} {key : ℤ}

theorem note_self : times.note packet now (asInt packet.seqNum) = some now :=
  Function.update_self _ _ _

/-- A note takes the place of an older one and of nothing else. -/
theorem note_eq_some {sent : UInt64} (h : times.note packet now key = some sent) :
    sent = now ∨ times key = some sent := by
  rw [note, Function.update_apply] at h
  split_ifs at h
  · exact .inl (Option.some.inj h).symm
  · exact .inr h

theorem isSome_note (h : (times key).isSome = true) :
    (times.note packet now key).isSome = true := by
  rw [note, Function.update_apply]
  split_ifs
  · rfl
  · exact h

end SendTimes

/-- The estimates of the round trip, in microseconds. -/
structure Estimate where
  estimatedRTT : ℕ
  devRTT : ℕ
  timeoutInterval : ℕ
  deriving DecidableEq

namespace Estimate

/-- What the constructor begins with. -/
def construct : Estimate := ⟨100000, 20000, 100000⟩

/-- `updateRTT` with the two times that it looks at. The averages are computed in doubles, and
`alpha_` and `beta_` are an eighth and a quarter: below `2 ^ 53` nothing is rounded before the
result is cut off. There is no result beyond that. -/
def updateRTT (e : Estimate) (receiveTime sendTime : UInt64) : Option Estimate :=
  let sample := (receiveTime - sendTime).toNat
  let deviation :=
    if receiveTime < sendTime then (sendTime - receiveTime).toNat
    else (receiveTime - sendTime).toNat
  if 7 * e.estimatedRTT + sample < 2 ^ 53 ∧ 3 * e.devRTT + deviation < 2 ^ 53 then
    let estimatedRTT := (7 * e.estimatedRTT + sample) / 8
    let devRTT := (3 * e.devRTT + deviation) / 4
    some ⟨estimatedRTT, devRTT, estimatedRTT + 4 * devRTT⟩
  else none

/-- Two times in their order give two averages of one sample. -/
theorem updateRTT_eq {e : Estimate} {receiveTime sendTime : UInt64} (h : sendTime ≤ receiveTime)
    {bound : ℕ} (small : 8 * bound < 2 ^ 53) (hestimated : e.estimatedRTT ≤ bound)
    (hdev : e.devRTT ≤ bound) (hsample : receiveTime.toNat - sendTime.toNat ≤ bound) :
    e.updateRTT receiveTime sendTime = some
      ⟨average 8 e.estimatedRTT (receiveTime.toNat - sendTime.toNat),
        average 4 e.devRTT (receiveTime.toNat - sendTime.toNat),
        average 8 e.estimatedRTT (receiveTime.toNat - sendTime.toNat) +
          4 * average 4 e.devRTT (receiveTime.toNat - sendTime.toNat)⟩ := by
  rw [updateRTT, if_neg (UInt64.not_lt.mpr h)]
  dsimp only
  rw [UInt64.toNat_sub_of_le _ _ h, if_pos ⟨by omega, by omega⟩]
  rfl

/-- Calls that all measure the same round trip average it in as often as there are calls. -/
theorem foldlM_updateRTT {rounds : List (UInt64 × UInt64)} {sample bound : ℕ}
    (same : ∀ round ∈ rounds, round.2 ≤ round.1 ∧ round.1.toNat - round.2.toNat = sample)
    (small : 8 * bound < 2 ^ 53) (hsample : sample ≤ bound) {e : Estimate}
    (hestimated : e.estimatedRTT ≤ bound) (hdev : e.devRTT ≤ bound) (hne : rounds ≠ []) :
    rounds.foldlM (fun e round => e.updateRTT round.1 round.2) e = some
      ⟨(average 8 · sample)^[rounds.length] e.estimatedRTT,
        (average 4 · sample)^[rounds.length] e.devRTT,
        (average 8 · sample)^[rounds.length] e.estimatedRTT +
          4 * (average 4 · sample)^[rounds.length] e.devRTT⟩ := by
  induction rounds generalizing e with
  | nil => exact absurd rfl hne
  | cons round rounds ih =>
    obtain ⟨hle, hround⟩ := same round List.mem_cons_self
    rw [List.foldlM_cons, updateRTT_eq hle small hestimated hdev (hround.trans_le hsample), hround,
      List.length_cons, Function.iterate_succ_apply, Function.iterate_succ_apply]
    by_cases hlast : rounds = []
    · rw [hlast]
      rfl
    · exact ih (fun other hmem => same other (List.mem_cons_of_mem _ hmem))
        (average_le (by decide) hestimated hsample) (average_le (by decide) hdev hsample) hlast

/-- Over calls that all measure the same round trip, at least as many as the estimates are
microseconds away from it, nothing is rounded, and the estimates end less than eight and four below
it and the timeout less than twenty below five times it. -/
theorem settles {rounds : List (UInt64 × UInt64)} {sample bound : ℕ}
    (same : ∀ round ∈ rounds, round.2 ≤ round.1 ∧ round.1.toNat - round.2.toNat = sample)
    (small : 8 * bound < 2 ^ 53) (hsample : sample ≤ bound) {e : Estimate}
    (hestimated : e.estimatedRTT ≤ bound) (hdev : e.devRTT ≤ bound)
    (above : max e.estimatedRTT e.devRTT ≤ sample + rounds.length)
    (below : sample ≤ min e.estimatedRTT e.devRTT + rounds.length) (hne : rounds ≠ []) :
    ∃ last, rounds.foldlM (fun e round => e.updateRTT round.1 round.2) e = some last ∧
      (last.estimatedRTT ≤ sample ∧ sample < last.estimatedRTT + 8) ∧
      (last.devRTT ≤ sample ∧ sample < last.devRTT + 4) ∧
      last.timeoutInterval ≤ 5 * sample ∧ 5 * sample < last.timeoutInterval + 20 := by
  have hrest : AtRest 8 ((average 8 · sample)^[rounds.length] e.estimatedRTT) sample :=
    atRest_iterate (by decide) (by omega) (by omega)
  have hrest' : AtRest 4 ((average 4 · sample)^[rounds.length] e.devRTT) sample :=
    atRest_iterate (by decide) (by omega) (by omega)
  have hle := hrest.le
  have hlt := hrest.lt
  have hle' := hrest'.le
  have hlt' := hrest'.lt
  refine ⟨_, foldlM_updateRTT same small hsample hestimated hdev hne, ⟨hle, hlt⟩, ⟨hle', hlt'⟩,
    ?_, ?_⟩
  · dsimp only
    omega
  · dsimp only
    omega

/-- Five round trips of twenty microseconds after longer ones. -/
theorem settles_five :
    ∃ last, (List.replicate 5 (30, 10)).foldlM
        (fun (e : Estimate) (round : UInt64 × UInt64) => e.updateRTT round.1 round.2)
        ⟨25, 20, 105⟩ = some last ∧
      (last.estimatedRTT ≤ 20 ∧ 20 < last.estimatedRTT + 8) ∧
      (last.devRTT ≤ 20 ∧ 20 < last.devRTT + 4) ∧
      last.timeoutInterval ≤ 5 * 20 ∧ 5 * 20 < last.timeoutInterval + 20 :=
  @settles (List.replicate 5 (30, 10)) 20 25
    (fun round hmem => by rw [List.eq_of_mem_replicate hmem]; decide) (by decide) (by decide)
    ⟨25, 20, 105⟩ (by decide) (by decide) (by decide) (by decide) (List.cons_ne_nil _ _)

end Estimate

namespace ReceiverStateMachine

/-- An acknowledgement carries the sequence number of the packet that it answers. -/
theorem seqNum_of_receiveStep {s : ReceiverStateMachine} {a : Arrival} {answer : Packet}
    (h : (s.receiveStep a).2 = some answer) : answer.seqNum = a.packet.seqNum := by
  by_cases hdrop : (s.toLossFilter.count a).2 = -1
  · simp [receiveStep_of_drop hdrop] at h
  · rw [receiveStep_of_pass hdrop] at h
    obtain rfl := Option.some.inj h
    rw [handle_answer]
    exact toWord_asInt _

end ReceiverStateMachine

namespace Transfer

/-- What an event makes the sender hand to `sendTo`, which may throw. -/
def hands (t : Transfer) : Event → Option Packet
  | .send f => (t.sender.output (.send f)).2.1.map (·.packet)
  | .timeout f => (t.sender.output (.receive none f)).2.1.map (·.packet)
  | .ackArrives index f => (deliver index t.acks).bind fun (ack, _) =>
      (t.sender.output (.receive (some ack) f)).2.1.map (·.packet)
  | _ => none

variable {t next : Transfer} {event : Event} {packet ack : Packet}

theorem mem_wire_iff {s : Transmission} {turn : Turn} (h : packet ∈ s.wire turn) :
    (s.output turn).2.1.map (·.packet) = some packet := by
  unfold Transmission.wire at h
  split_ifs at h
  · exact absurd h List.not_mem_nil
  · simpa [Option.map_eq_some_iff] using h

/-- What is in flight to the receiver was there before or has been handed over now. -/
theorem mem_packets_of_step (h : t.step event = some next) (hmem : packet ∈ next.packets) :
    packet ∈ t.packets ∨ t.hands event = some packet := by
  cases step_cases h with
  | send f turn =>
    exact (List.mem_append.mp hmem).imp id mem_wire_iff
  | timeout f turn =>
    exact (List.mem_append.mp hmem).imp id mem_wire_iff
  | ackArrives index f delivered turn =>
    refine (List.mem_append.mp hmem).imp id fun hwire => ?_
    simpa only [hands, delivered, Option.bind_some] using mem_wire_iff hwire
  | packetArrives index behind stray throws running delivered =>
    exact .inl (mem_rest_of_deliver delivered hmem)
  | packetFault fault => exact .inl (mem_of_mem_apply hmem)
  | ackFault fault => exact .inl hmem

/-- What is in flight to the sender was there before or answers a packet in flight. -/
theorem mem_acks_of_step (h : t.step event = some next) (hmem : ack ∈ next.acks) :
    ack ∈ t.acks ∨ ∃ packet ∈ t.packets, ack.seqNum = packet.seqNum := by
  cases step_cases h with
  | send f turn => exact .inl hmem
  | timeout f turn => exact .inl hmem
  | ackArrives index f delivered turn => exact .inl (mem_rest_of_deliver delivered hmem)
  | @packetArrives index behind stray throws running packet rest delivered =>
    refine (List.mem_append.mp hmem).imp id fun hanswer => ?_
    cases throws with
    | true => exact absurd hanswer List.not_mem_nil
    | false => exact ⟨packet, mem_of_deliver delivered,
        ReceiverStateMachine.seqNum_of_receiveStep (Option.mem_toList.mp hanswer)⟩
  | packetFault fault => exact .inl hmem
  | ackFault fault => exact .inl (mem_of_mem_apply hmem)

end Transfer

/-- The pair with the times that the sender has noted. -/
structure Timed where
  pair : Transfer
  sendTimes : SendTimes
  /-- `none` once an average has been rounded. -/
  estimate : Option Estimate
  /-- What the clock showed at the last event. -/
  clock : UInt64

namespace Timed

/-- The pair before anything is sent. -/
def start (pair : Transfer) (clock : UInt64) : Timed :=
  ⟨pair, fun _ => none, some .construct, clock⟩

/-- The estimate after an event: only a new acknowledgement changes it, if a time is found for
it. -/
def measured (t : Timed) : Event × UInt64 → Option Estimate
  | (.ackArrives index _, now) =>
    match deliver index t.pair.acks with
    | some (ack, _) =>
      if t.pair.sender.machine.NewAck ack then
        match t.sendTimes (asInt ack.seqNum) with
        | some sent => t.estimate.bind (·.updateRTT now sent)
        | none => t.estimate
      else t.estimate
    | none => t.estimate
  | _ => t.estimate

/-- A step of the pair with what the clock shows at it. No event makes the sender look at the
clock twice for what is noted here. -/
def step (t : Timed) : Event × UInt64 → Option Timed
  | (event, now) => (t.pair.step event).map fun pair =>
    { pair := pair
      sendTimes := (t.pair.hands event).elim t.sendTimes (t.sendTimes.note · now)
      estimate := t.measured (event, now)
      clock := now }

/-- The clock has not gone back since the last event. -/
def Onward (t : Timed) : Event × UInt64 → Prop
  | (_, now) => t.clock ≤ now

instance (t : Timed) (label : Event × UInt64) : Decidable (t.Onward label) :=
  inferInstanceAs (Decidable (t.clock ≤ label.2))

/-- An acknowledgement that arrives finds the time at which a packet of its sequence number was
last handed over, and the difference does not wrap. -/
def Sampled (t : Timed) : Event × UInt64 → Prop
  | (.ackArrives index _, now) => ∀ ack rest, deliver index t.pair.acks = some (ack, rest) →
      ∃ sent, t.sendTimes (asInt ack.seqNum) = some sent ∧ sent ≤ now ∧
        (now - sent).toNat = now.toNat - sent.toNat
  | _ => True

/-- Everything in flight has a time noted for its sequence number, and none is later than the
last event. -/
structure InTime (t : Timed) : Prop where
  packets : ∀ packet ∈ t.pair.packets, (t.sendTimes (asInt packet.seqNum)).isSome = true
  acks : ∀ ack ∈ t.pair.acks, (t.sendTimes (asInt ack.seqNum)).isSome = true
  past : ∀ key sent, t.sendTimes key = some sent → sent ≤ t.clock

variable {t next : Timed} {label : Event × UInt64}

/-- A time that is noted stays noted. -/
theorem isSome_of_step (h : t.step label = some next) {key : ℤ}
    (hnoted : (t.sendTimes key).isSome = true) : (next.sendTimes key).isSome = true := by
  obtain ⟨pair, -, rfl⟩ := Option.map_eq_some_iff.mp h
  dsimp only
  cases t.pair.hands label.1 with
  | none => exact hnoted
  | some packet => exact SendTimes.isSome_note hnoted

/-- What an event hands over has a time from then on. -/
theorem isSome_of_hands (h : t.step label = some next) {packet : Packet}
    (hhands : t.pair.hands label.1 = some packet) :
    (next.sendTimes (asInt packet.seqNum)).isSome = true := by
  obtain ⟨pair, -, rfl⟩ := Option.map_eq_some_iff.mp h
  dsimp only
  rw [hhands, Option.elim_some, SendTimes.note_self]
  rfl

/-- Everything in flight keeps its time, and the times stay in the past unless the clock goes
back. -/
theorem InTime.step (inTime : t.InTime) (onward : t.Onward label)
    (h : t.step label = some next) : next.InTime := by
  obtain ⟨pair, hpair, rfl⟩ := Option.map_eq_some_iff.mp h
  -- a time is overwritten only by a later one of the same number, so none is lost
  refine ⟨fun packet hmem => ?_, fun ack hmem => ?_, fun key sent hsent => ?_⟩
  · rcases Transfer.mem_packets_of_step hpair hmem with hold | hhands
    · exact isSome_of_step h (inTime.packets packet hold)
    · exact isSome_of_hands h hhands
  · rcases Transfer.mem_acks_of_step hpair hmem with hold | ⟨packet, hpacket, hnumber⟩
    · exact isSome_of_step h (inTime.acks ack hold)
    · exact hnumber ▸ isSome_of_step h (inTime.packets packet hpacket)
  · dsimp only at hsent ⊢
    cases hhands : t.pair.hands label.1 with
    | none =>
      rw [hhands] at hsent
      exact UInt64.le_trans (inTime.past key sent hsent) onward
    | some packet =>
      rw [hhands] at hsent
      rcases SendTimes.note_eq_some hsent with rfl | hold
      · exact UInt64.le_refl _
      · exact UInt64.le_trans (inTime.past key sent hold) onward

/-- A sample is a difference that does not wrap. -/
theorem InTime.sampled (inTime : t.InTime) (onward : t.Onward label) : t.Sampled label := by
  obtain ⟨event, now⟩ := label
  cases event with
  | ackArrives index f =>
    intro ack rest hdeliver
    obtain ⟨sent, hsent⟩ :=
      Option.isSome_iff_exists.mp (inTime.acks ack (mem_of_deliver hdeliver))
    have hle : sent ≤ now := UInt64.le_trans (inTime.past _ sent hsent) onward
    exact ⟨sent, hsent, hle, UInt64.toNat_sub_of_le _ _ hle⟩
  | _ => trivial

theorem inTime_start (caAckCount : ℤ) (opened : Bool) (fileName : Option (List UInt8))
    (pattern : LossPattern) (clock : UInt64) :
    (start (Transfer.start caAckCount opened fileName pattern) clock).InTime :=
  ⟨List.forall_mem_nil _, List.forall_mem_nil _,
    fun _ _ h => absurd h.symm (Option.some_ne_none _)⟩

/-- In every run of the pair during which the clock does not go back, every acknowledgement that
arrives finds the time at which a packet of its number was last handed over, and the sample is the
time since then. -/
theorem samples_in_time (caAckCount : ℤ) (opened : Bool) (fileName : Option (List UInt8))
    (pattern : LossPattern) (clock : UInt64) (events : List (Event × UInt64))
    (onward : AllSteps step Onward
      (start (Transfer.start caAckCount opened fileName pattern) clock) events) :
    AllSteps step Sampled (start (Transfer.start caAckCount opened fileName pattern) clock)
      events :=
  (allSteps_iff_allSteps (A := Onward) (C := fun _ _ => True) (inTime_start _ _ _ _ _)
    (fun _ _ _ inTime onward _ => iff_of_true trivial (inTime.sampled onward))
    (fun _ _ _ inTime onward _ hstep => inTime.step onward hstep) onward).mp
    (AllSteps.of_forall fun _ _ => trivial)

/-- The first packet goes out twice, and an acknowledgement of it comes two ticks later. -/
theorem samples_in_time_again :
    AllSteps step Sampled
      (start (Transfer.start 0 true (some [65, 66]) .none) 5)
      [(.send .usual, 5), (.timeout .usual, 7), (.send .usual, 7),
        (.packetArrives 0 [] 0 false, 8), (.ackArrives 0 .usual, 9)] :=
  samples_in_time 0 true _ .none 5 _ (by decide +kernel)

/-! ## The estimates -/

/-- What no estimate exceeds: a tenth of a second, or the time since the start. -/
def longest (t : Timed) (clock : UInt64) : ℕ := max 100000 (t.clock.toNat - clock.toNat)

/-- The times noted lie behind the start, and the estimates are no longer than a round trip may
have been. -/
structure Estimated (clock : UInt64) (t : Timed) : Prop where
  inTime : t.InTime
  started : clock ≤ t.clock
  noted : ∀ key sent, t.sendTimes key = some sent → clock ≤ sent
  estimate : 8 * t.longest clock < 2 ^ 53 → ∃ e, t.estimate = some e ∧
    e.estimatedRTT ≤ t.longest clock ∧ e.devRTT ≤ t.longest clock ∧
    e.timeoutInterval ≤ 5 * t.longest clock

variable {clock : UInt64}

/-- An event leaves the estimate as it is or takes one round trip into it. -/
theorem measured_cases (t : Timed) (label : Event × UInt64) : t.measured label = t.estimate ∨
    ∃ key sent, t.sendTimes key = some sent ∧
      t.measured label = t.estimate.bind (·.updateRTT label.2 sent) := by
  obtain ⟨event, now⟩ := label
  cases event with
  | ackArrives index f =>
    cases hdeliver : deliver index t.pair.acks with
    | none => exact .inl (by simp only [measured, hdeliver])
    | some delivered =>
      by_cases hnew : t.pair.sender.machine.NewAck delivered.1
      · cases hsent : t.sendTimes (asInt delivered.1.seqNum) with
        | none => exact .inl (by simp only [measured, hdeliver, hnew, if_true, hsent])
        | some sent =>
          exact .inr ⟨_, sent, hsent, by simp only [measured, hdeliver, hnew, if_true, hsent]⟩
      · exact .inl (by simp only [measured, hdeliver, hnew, if_false])
  | _ => exact .inl rfl

theorem Estimated.step (estimated : t.Estimated clock) (onward : t.Onward label)
    (h : t.step label = some next) : next.Estimated clock := by
  have hinTime := estimated.inTime.step onward h
  obtain ⟨pair, hpair, rfl⟩ := Option.map_eq_some_iff.mp h
  have hstarted : clock ≤ label.2 := UInt64.le_trans estimated.started onward
  have hclock : t.clock.toNat ≤ label.2.toNat := UInt64.le_iff_toNat_le.mp onward
  refine ⟨hinTime, hstarted, fun key sent hsent => ?_, fun hsmall => ?_⟩
  · dsimp only at hsent
    cases hhands : t.pair.hands label.1 with
    | none =>
      rw [hhands] at hsent
      exact estimated.noted key sent hsent
    | some packet =>
      rw [hhands] at hsent
      rcases SendTimes.note_eq_some hsent with rfl | hold
      · exact hstarted
      · exact estimated.noted key sent hold
  · obtain ⟨bound, hbound⟩ : ∃ bound, bound = max 100000 (label.2.toNat - clock.toNat) := ⟨_, rfl⟩
    have hlonger : t.longest clock ≤ bound := by
      rw [longest, hbound]
      omega
    change 8 * max 100000 (label.2.toNat - clock.toNat) < 2 ^ 53 at hsmall
    change ∃ e, t.measured label = some e ∧
      e.estimatedRTT ≤ max 100000 (label.2.toNat - clock.toNat) ∧
      e.devRTT ≤ max 100000 (label.2.toNat - clock.toNat) ∧
      e.timeoutInterval ≤ 5 * max 100000 (label.2.toNat - clock.toNat)
    rw [← hbound] at hsmall ⊢
    obtain ⟨e, he, hestimated, hdev, htimeout⟩ := estimated.estimate (by omega)
    rcases measured_cases t label with hsame | ⟨key, sent, hsent, hmeasured⟩
    · exact ⟨e, hsame.trans he, by omega, by omega, by omega⟩
    · have hafter : clock.toNat ≤ sent.toNat :=
        UInt64.le_iff_toNat_le.mp (estimated.noted key sent hsent)
      have hbefore : sent ≤ label.2 :=
        UInt64.le_trans (estimated.inTime.past key sent hsent) onward
      have hsample : label.2.toNat - sent.toNat ≤ bound := by omega
      rw [hmeasured, he, Option.bind_some, Estimate.updateRTT_eq hbefore hsmall
        (hestimated.trans hlonger) (hdev.trans hlonger) hsample]
      have hle : average 8 e.estimatedRTT (label.2.toNat - sent.toNat) ≤ bound :=
        average_le (by decide) (hestimated.trans hlonger) hsample
      have hle' : average 4 e.devRTT (label.2.toNat - sent.toNat) ≤ bound :=
        average_le (by decide) (hdev.trans hlonger) hsample
      exact ⟨_, rfl, hle, hle', by dsimp only; omega⟩

/-- In every run of the pair during which the clock does not go back, nothing is rounded in the
averages for the first `2 ^ 50` microseconds, neither estimate exceeds the longer of a tenth of a
second and the time since the start, and the timeout does not exceed five times that. -/
theorem estimates_bounded (caAckCount : ℤ) (opened : Bool) (fileName : Option (List UInt8))
    (pattern : LossPattern) {events : List (Event × UInt64)}
    (onward : AllSteps step Onward
      (start (Transfer.start caAckCount opened fileName pattern) clock) events)
    (hrun : run step (start (Transfer.start caAckCount opened fileName pattern) clock) events =
      some t) (small : t.clock.toNat - clock.toNat < 2 ^ 50) :
    ∃ e, t.estimate = some e ∧ e.estimatedRTT ≤ max 100000 (t.clock.toNat - clock.toNat) ∧
      e.devRTT ≤ max 100000 (t.clock.toNat - clock.toNat) ∧
      e.timeoutInterval ≤ 5 * max 100000 (t.clock.toNat - clock.toNat) := by
  have init :
      (start (Transfer.start caAckCount opened fileName pattern) clock).Estimated clock := by
    refine ⟨inTime_start _ _ _ _ _, UInt64.le_refl _,
      fun _ _ h => absurd h.symm (Option.some_ne_none _), fun _ => ⟨.construct, rfl, ?_⟩⟩
    simp [longest, start, Estimate.construct]
  have hall := allStates_of_allSteps init
    (fun _ _ _ estimated onward hstep => estimated.step onward hstep) onward
  have hlast := (hall.last hrun).estimate
  unfold longest at hlast
  exact hlast (by omega)

/-- The first packet goes out twice, and the round trip is two ticks long. -/
theorem estimates_bounded_again :
    let t := (run step (start (Transfer.start 0 true (some [65, 66]) .none) 5)
      [(.send .usual, 5), (.timeout .usual, 7), (.send .usual, 7),
        (.packetArrives 0 [] 0 false, 8), (.ackArrives 0 .usual, 9)]).get (by decide +kernel)
    ∃ e, t.estimate = some e ∧ e.estimatedRTT ≤ max 100000 (t.clock.toNat - 5) ∧
      e.devRTT ≤ max 100000 (t.clock.toNat - 5) ∧
      e.timeoutInterval ≤ 5 * max 100000 (t.clock.toNat - 5) :=
  @estimates_bounded _ 5 0 true (some [65, 66]) .none
    [(.send .usual, 5), (.timeout .usual, 7), (.send .usual, 7),
      (.packetArrives 0 [] 0 false, 8), (.ackArrives 0 .usual, 9)]
    (by decide +kernel) (Option.some_get _).symm (by decide +kernel)

end Timed

end Comnet.MP2
