/-
# One retransmission for a loss

The duplicates are counted since the last new acknowledgement or timeout. The third one
enters fast recovery and retransmits, and while in fast recovery no duplicate is the third
any more: the state tells whether the retransmission of the episode has happened. The counter
of the sender tells it too, as long as the duplicates are within its range.
-/

import Comnet.MP2.Transmit

set_option autoImplicit false

namespace Comnet.MP2

open Foundations

namespace Transmission

/-- The turn ends an episode: it handles a new acknowledgement or a timeout. -/
def resets (t : Transmission) : Turn → Bool
  | .send _ => false
  | .receive none _ => true
  | .receive (some recv) _ => t.machine.NewAck recv

/-- The turn counts a duplicate. -/
def duplicates (t : Transmission) : Turn → Bool
  | .receive (some recv) _ => recv.ack && !recv.fin && recv.ackNum ≤ t.machine.ackedPosition
  | _ => false

/-- The turn calls `retransmitMissingSegment`; nothing else that a receiving function calls
hands anything to `sendTo`. -/
def retransmits (t : Transmission) : Turn → Bool
  | .send _ => false
  | .receive recv f => (t.machine.receive recv f).handed.isSome

/-- The sender when some duplicates have been counted since the last reset: its counter has gone
with them, as far as it goes, and it is in fast recovery from the third one on. -/
structure Episode (count : ℕ) (t : Transmission) : Prop where
  counter : t.machine.dupAckCount = narrow count
  recovery : t.machine.state = .fastRecovery ↔ 3 ≤ count

/-- The retransmissions since the last reset: one, in fast recovery. -/
def Recoveries (count : ℕ) (t : Transmission) : Prop :=
  count = if t.machine.state = .fastRecovery then 1 else 0

/-- The counter of the sender tells the state. -/
def Told (t : Transmission) : Prop :=
  t.machine.state = .fastRecovery ↔ 3 ≤ t.machine.dupAckCount

/-- The turns that the counter has room for. -/
def KeepsTold (t : Transmission) (turn : Turn) : Prop :=
  t.duplicates turn = true → t.machine.dupAckCount + 1 < 2 ^ 31

variable {t next : Transmission} {turn : Turn} {turns : List Turn} {recv : Packet} {f : Frame}

theorem retransmits_iff : t.retransmits turn = true ↔
    ∃ recv f, turn = .receive (some recv) f ∧ t.machine.ThirdDuplicate recv := by
  cases turn with
  | send f => exact iff_of_false Bool.false_ne_true (by simp)
  | receive recv f =>
    cases recv with
    | none =>
      refine iff_of_false ?_ (by simp)
      cases hstate : t.machine.state <;>
        simp [retransmits, SenderStateMachine.receive, hstate, SenderStateMachine.ssReceive,
          SenderStateMachine.caReceive, SenderStateMachine.frReceive]
    | some recv =>
      rw [retransmits, SenderStateMachine.isSome_handed_iff]
      simp

theorem duplicates_iff : t.duplicates (.receive (some recv) f) = true ↔
    recv.ack = true ∧ recv.fin = false ∧ recv.ackNum ≤ t.machine.ackedPosition := by
  simp [duplicates, and_assoc]

/-- What a turn counts as, and what it makes of the count and the state. -/
inductive Counting (t : Transmission) (turn : Turn) (next : Transmission) : Prop
  | reset (resets : t.resets turn = true) (duplicates : t.duplicates turn = false)
      (retransmits : t.retransmits turn = false)
      (count : next.machine.dupAckCount = 0) (state : next.machine.state ≠ .fastRecovery)
  | third (resets : t.resets turn = false) (duplicates : t.duplicates turn = true)
      (retransmits : t.retransmits turn = true) (before : t.machine.state ≠ .fastRecovery)
      (count : next.machine.dupAckCount = narrow (t.machine.dupAckCount + 1))
      (third : narrow (t.machine.dupAckCount + 1) = 3) (state : next.machine.state = .fastRecovery)
  | duplicate (resets : t.resets turn = false) (duplicates : t.duplicates turn = true)
      (retransmits : t.retransmits turn = false)
      (count : next.machine.dupAckCount = narrow (t.machine.dupAckCount + 1))
      (notThird : t.machine.state ≠ .fastRecovery → narrow (t.machine.dupAckCount + 1) ≠ 3)
      (state : next.machine.state = t.machine.state)
  | other (resets : t.resets turn = false) (duplicates : t.duplicates turn = false)
      (retransmits : t.retransmits turn = false)
      (count : next.machine.dupAckCount = t.machine.dupAckCount)
      (state : next.machine.state = t.machine.state)

theorem not_retransmits (h : ¬ t.machine.ThirdDuplicate recv) :
    t.retransmits (.receive (some recv) f) = false := by
  rw [← Bool.not_eq_true, retransmits_iff]
  rintro ⟨other, frame, hturn, hthird⟩
  obtain ⟨rfl, -⟩ : recv = other ∧ f = frame := by simpa using hturn
  exact h hthird

/-- Every turn counts in one way. -/
theorem counting_step (h : t.step turn = some next) : t.Counting turn next := by
  obtain ⟨-, hmove⟩ := step_cases h
  cases hmove with
  | send f admitted sending => cases sending <;> exact .other rfl rfl rfl rfl rfl
  | receive recv f waiting reaction =>
    cases reaction with
    | timeout =>
      have hquiet : t.retransmits (.receive none f) = false := by
        rw [← Bool.not_eq_true, retransmits_iff]
        simp
      exact .reset rfl rfl hquiet rfl (by simp [SenderStateMachine.processTimeout])
    | final recv ack fin =>
      refine .other ?_ ?_ (not_retransmits (SenderStateMachine.not_thirdDuplicate_of_fin fin))
        rfl rfl
      · exact decide_eq_false (SenderStateMachine.not_newAck_of_fin fin)
      · simp [duplicates, fin]
    | ignored recv ack =>
      refine .other ?_ ?_ (not_retransmits (SenderStateMachine.not_thirdDuplicate_of_no_ack ack))
        rfl rfl
      · exact decide_eq_false (SenderStateMachine.not_newAck_of_no_ack ack)
      · simp [duplicates, ack]
    | duplicate recv ack notFin old notThird =>
      refine .duplicate (decide_eq_false (SenderStateMachine.not_newAck_of_old old))
        (duplicates_iff.mpr ⟨ack, notFin, old⟩) (not_retransmits notThird) rfl
        (fun hstate hthree => ?_) rfl
      exact notThird ⟨ack, notFin, old, hstate, hthree⟩
    | resent recv third sent measured =>
      exact .third (decide_eq_false (SenderStateMachine.not_newAck_of_old third.old))
        (duplicates_iff.mpr ⟨third.ack, third.notFin, third.old⟩)
        (retransmits_iff.mpr ⟨recv, f, rfl, third⟩) third.state rfl third.third rfl
    | refused recv third error notAcked =>
      exact .third (decide_eq_false (SenderStateMachine.not_newAck_of_old third.old))
        (duplicates_iff.mpr ⟨third.ack, third.notFin, third.old⟩)
        (retransmits_iff.mpr ⟨recv, f, rfl, third⟩) third.state rfl third.third rfl
    | advance recv new growth =>
      have hnot : t.duplicates (.receive (some recv) f) = false := by
        rw [← Bool.not_eq_true, duplicates_iff]
        exact fun hold => SenderStateMachine.not_newAck_of_old hold.2.2 new
      refine .reset (decide_eq_true new) hnot (not_retransmits new.not_thirdDuplicate) rfl ?_
      -- a new acknowledgement leaves fast recovery and never enters it
      cases growth <;> exact State.noConfusion

variable {count : ℕ}

/-- Duplicates below the third are counted as they are. -/
theorem narrow_of_le_three (h : count ≤ 3) : narrow count = count :=
  narrow_of_mem (by omega) (by omega)

/-- Another duplicate takes the counter on. -/
theorem Episode.counter_succ (h : t.Episode count) :
    narrow (t.machine.dupAckCount + 1) = narrow (count + 1 : ℕ) := by
  rw [h.counter, narrow_narrow_add, Nat.cast_succ]

/-- Outside of fast recovery the counter reaches three with the third duplicate. -/
theorem Episode.third_iff (h : t.Episode count) (state : t.machine.state ≠ .fastRecovery) :
    narrow (t.machine.dupAckCount + 1) = 3 ↔ count = 2 := by
  have hfew : ¬ 3 ≤ count := fun hthree => state (h.recovery.mpr hthree)
  rw [h.counter_succ, narrow_of_le_three (by omega)]
  omega

/-- The state and the count go together from turn to turn. -/
theorem episode_step (h : t.Episode count) (hstep : t.step turn = some next) :
    next.Episode (counted duplicates resets t turn count) := by
  have hrecovery := h.recovery
  unfold counted
  cases counting_step hstep with
  | reset resets duplicates retransmits hzero state =>
    rw [if_pos resets]
    exact ⟨hzero, iff_of_false state (by omega)⟩
  | third resets duplicates retransmits before hcount third state =>
    have htwo : count = 2 := (h.third_iff before).mp third
    rw [if_neg (by simp [resets]), if_pos duplicates]
    exact ⟨hcount.trans h.counter_succ, iff_of_true state (by omega)⟩
  | duplicate resets duplicates retransmits hcount notThird state =>
    rw [if_neg (by simp [resets]), if_pos duplicates]
    refine ⟨hcount.trans h.counter_succ, ?_⟩
    rw [state]
    -- outside of fast recovery there are fewer than two before a duplicate that is not the third
    by_cases hstate : t.machine.state = .fastRecovery
    · have hthree := hrecovery.mp hstate
      exact iff_of_true hstate (by omega)
    · have hfew : ¬ 3 ≤ count := fun hthree => hstate (hrecovery.mpr hthree)
      have htwo : count ≠ 2 := fun htwo => notThird hstate ((h.third_iff hstate).mpr htwo)
      exact iff_of_false hstate (by omega)
  | other resets duplicates retransmits hcount state =>
    rw [if_neg (by simp [resets]), if_neg (by simp [duplicates])]
    exact ⟨hcount.trans h.counter, by rw [state, hrecovery]⟩

/-- So do the state and the number of retransmissions. -/
theorem recoveries_step (h : t.Recoveries count) (hstep : t.step turn = some next) :
    next.Recoveries (counted retransmits resets t turn count) := by
  unfold Recoveries at h ⊢
  unfold counted
  cases counting_step hstep with
  | reset resets duplicates retransmits hzero state => simp [resets, state]
  | third resets duplicates retransmits before hcount third state =>
    simp [resets, retransmits, before, state, h]
  | duplicate resets duplicates retransmits hcount notThird state =>
    simp [resets, retransmits, state, h]
  | other resets duplicates retransmits hcount state => simp [resets, retransmits, state, h]

/-- A turn retransmits exactly when it counts the third duplicate, and then none of the
retransmissions of its episode has happened. -/
theorem retransmits_iff_third {recoveries : ℕ} (h : t.Episode count)
    (hrecoveries : t.Recoveries recoveries) (hstep : t.step turn = some next) :
    (t.retransmits turn = true ↔ t.duplicates turn = true ∧ count = 2) ∧
      (t.retransmits turn = true → recoveries = 0) := by
  unfold Recoveries at hrecoveries
  cases counting_step hstep with
  | reset resets duplicates retransmits hzero state => simp [retransmits, duplicates]
  | third resets duplicates retransmits before hcount third state =>
    rw [if_neg before] at hrecoveries
    exact ⟨iff_of_true retransmits ⟨duplicates, (h.third_iff before).mp third⟩,
      fun _ => hrecoveries⟩
  | duplicate resets duplicates retransmits hcount notThird state =>
    refine ⟨iff_of_false (by simp [retransmits]) fun htwo => ?_, by simp [retransmits]⟩
    have hstate : t.machine.state ≠ .fastRecovery := fun hstate => by
      have := h.recovery.mp hstate
      omega
    exact notThird hstate ((h.third_iff hstate).mpr htwo.2)
  | other resets duplicates retransmits hcount state => simp [retransmits, duplicates]

/-- A counter that tells the state goes on to tell it exactly when it has room for what the
turn counts. -/
theorem told_step (h : t.Episode count) (htold : t.Told) (hstep : t.step turn = some next) :
    next.Told ↔ t.KeepsTold turn := by
  unfold Told at htold ⊢
  have hfits : FitsInt t.machine.dupAckCount := h.counter ▸ fitsInt_narrow _
  have hupper := hfits.upper
  cases counting_step hstep with
  | reset resets duplicates retransmits hzero state =>
    apply iff_of_true _ fun h => absurd h (by simp [duplicates])
    exact iff_of_false state (by omega)
  | third resets duplicates retransmits before hcount third state =>
    have htwo : count = 2 := (h.third_iff before).mp third
    have hcounter := h.counter
    rw [htwo, narrow_of_le_three (by omega)] at hcounter
    apply iff_of_true _ fun _ => by omega
    exact iff_of_true state (by omega)
  | duplicate resets duplicates retransmits hcount notThird state =>
    rw [state, hcount]
    by_cases hstate : t.machine.state = .fastRecovery
    · have hthree := htold.mp hstate
      constructor
      · intro hnext _
        have hless := hnext.mp hstate
        rw [narrow_eq] at hless
        omega
      · intro hroom
        rw [narrow_of_mem (by omega) (hroom duplicates)]
        exact iff_of_true hstate (by omega)
    · have hfew : ¬ 3 ≤ count := fun hthree => hstate (h.recovery.mpr hthree)
      have htwo : count ≠ 2 := fun htwo => notThird hstate ((h.third_iff hstate).mpr htwo)
      have hcounter := h.counter
      rw [narrow_of_le_three (by omega)] at hcounter
      apply iff_of_true _ fun _ => by omega
      rw [narrow_of_mem (by omega) (by omega)]
      exact iff_of_false hstate (by omega)
  | other resets duplicates retransmits hcount state =>
    apply iff_of_true _ fun h => absurd h (by simp [duplicates])
    rw [state, hcount]
    exact htold

variable {caAckCount : ℤ} {opened : Bool} {fileName : Option (List UInt8)}

theorem episode_start : (start caAckCount opened fileName).Episode 0 := by
  cases opened <;> exact ⟨rfl, iff_of_false State.noConfusion (by omega)⟩

/-- In every run, `retransmitMissingSegment` is called exactly in the turns that count a
duplicate when two were counted since the last new acknowledgement, timeout or start, and none
of its calls follows another one since then. The sender is in fast recovery exactly while its
counter is at three or more, wherever the run leads, if and only if every duplicate finds room
in the counter. -/
theorem fastRetransmit_once (caAckCount : ℤ) (opened : Bool) (fileName : Option (List UInt8))
    (turns : List Turn) :
    (∀ t, run step (start caAckCount opened fileName) turns = some t →
      ∀ turn next, t.step turn = some next →
        (t.retransmits turn = true ↔ t.duplicates turn = true ∧
          countSince step duplicates resets 0 (start caAckCount opened fileName) turns = 2) ∧
        (t.retransmits turn = true →
          countSince step retransmits resets 0 (start caAckCount opened fileName) turns = 0)) ∧
    (AllStates step Told (start caAckCount opened fileName) turns ↔
      AllSteps step KeepsTold (start caAckCount opened fileName) turns) := by
  constructor
  · intro t hrun turn next hstep
    have hepisode := countSince_rel episode_start (fun _ _ _ _ => episode_step) hrun
    have hzero : (start caAckCount opened fileName).Recoveries 0 := by cases opened <;> rfl
    have hrecoveries := countSince_rel hzero (fun _ _ _ _ => recoveries_step) hrun
    exact retransmits_iff_third hepisode hrecoveries hstep
  · have htold : (start caAckCount opened fileName).Told := by
      have hless : ¬ (3 : ℤ) ≤ 0 := by decide
      cases opened <;> exact iff_of_false State.noConfusion hless
    refine allStates_iff_allSteps (Q := fun t => ∃ count, Episode count t) htold
      ⟨0, episode_start⟩ ?_ ?_ (AllSteps.of_forall (C := fun _ _ => True) fun _ _ => trivial)
    · rintro t turn next ⟨count, h⟩ hstep
      exact ⟨_, episode_step h hstep⟩
    · rintro t turn next ⟨count, h⟩ - htold hstep
      exact told_step h htold hstep

/-! ## More duplicates than the counter counts -/

/-- A segment and three acknowledgements of the position before it. -/
def threeDuplicates : List Turn :=
  [.send .usual, .receive (some (.acknowledgement 1)) .usual,
    .receive (some (.acknowledgement 1)) .usual, .receive (some (.acknowledgement 1)) .usual]

/-- A further acknowledgement in fast recovery, when the file is exhausted. -/
theorem step_further {recv : Packet} (running : t.returned = none)
    (exhausted : t.machine.message.failed = true) (state : t.machine.state = .fastRecovery)
    (dup : t.machine.Duplicate recv) :
    t.step (.receive (some recv) f) = some { t with
      machine := { t.machine with
        dupAckCount := narrow (t.machine.dupAckCount + 1)
        cwnd := narrow (t.machine.cwnd + 1) } } := by
  have hwaiting : t.machine.canSend = false := by
    simp [SenderStateMachine.canSend, InputStream.good, exhausted]
  have hdup := SenderStateMachine.dupAck_of_old dup.ack dup.old
  have hreceive : t.machine.receive (some recv) f = ⟨{ t.machine with
      dupAckCount := narrow (t.machine.dupAckCount + 1)
      cwnd := narrow (t.machine.cwnd + 1) }, none, 0⟩ := by
    simp [SenderStateMachine.receive, state, SenderStateMachine.frReceive,
      SenderStateMachine.finalAck, dup.notFin, hdup]
  simp [step, running, enabled, hwaiting, output, hreceive, kept]

/-- As many of them as come are counted, as far as the counter goes. -/
theorem run_further {recv : Packet} (running : t.returned = none)
    (exhausted : t.machine.message.failed = true) (state : t.machine.state = .fastRecovery)
    (dup : t.machine.Duplicate recv) (typed : FitsInt t.machine.dupAckCount) (more : ℕ) :
    ∃ u, run step t (List.replicate more (.receive (some recv) f)) = some u ∧
      u.machine.state = .fastRecovery ∧
      u.machine.dupAckCount = narrow (t.machine.dupAckCount + more) := by
  induction more generalizing t with
  | zero => exact ⟨t, rfl, state, by simpa using typed.narrow.symm⟩
  | succ more ih =>
    have hstep := step_further (f := f) running exhausted state dup
    obtain ⟨u, hrun, hstate, hcount⟩ := ih (t := { t with
      machine := { t.machine with
        dupAckCount := narrow (t.machine.dupAckCount + 1)
        cwnd := narrow (t.machine.cwnd + 1) } }) running exhausted state
      ⟨dup.ack, dup.notFin, dup.old⟩ (fitsInt_narrow _)
    refine ⟨u, ?_, hstate, ?_⟩
    · rw [List.replicate_succ, run_cons_of_step hstep, hrun]
    · rw [hcount]
      dsimp only
      rw [narrow_narrow_add, Nat.cast_succ, add_assoc, add_comm 1]

/-- A file of two bytes, three duplicates and as many more as take the counter past its range. -/
def manyDuplicates : List Turn :=
  threeDuplicates ++ List.replicate (2 ^ 31 - 3) (.receive (some (.acknowledgement 1)) .usual)

/-- The counter is negative, and the sender is still in fast recovery. -/
theorem manyDuplicates_untold :
    ¬ AllStates step Told (start 0 true (some [65, 66])) manyDuplicates := by
  obtain ⟨t, hthree⟩ : ∃ t, run step (start 0 true (some [65, 66])) threeDuplicates = some t :=
    Option.isSome_iff_exists.mp (by decide +kernel)
  have hend : (run step (start 0 true (some [65, 66])) threeDuplicates).map (fun t =>
      (t.returned, t.machine.message.failed, t.machine.state, t.machine.dupAckCount,
        t.machine.ackedPosition)) = some (none, true, .fastRecovery, 3, 1) := by
    decide +kernel
  rw [hthree] at hend
  obtain ⟨hrunning, hfailed, hstate, hcount, hacked⟩ :
      t.returned = none ∧ t.machine.message.failed = true ∧ t.machine.state = .fastRecovery ∧
        t.machine.dupAckCount = 3 ∧ t.machine.ackedPosition = 1 := by simpa using hend
  have hdup : t.machine.Duplicate (.acknowledgement 1) :=
    ⟨rfl, rfl, hacked ▸ UInt32.le_refl 1⟩
  have htyped : FitsInt t.machine.dupAckCount := hcount ▸ ⟨by decide, by decide⟩
  obtain ⟨u, hrun, hlast, hcounter⟩ :=
    run_further (f := .usual) hrunning hfailed hstate hdup htyped (2 ^ 31 - 3)
  have hwrapped : u.machine.dupAckCount = -2 ^ 31 := by
    rw [hcounter, hcount, narrow_eq]
    norm_num
  intro h
  have htold : u.Told := h.last ((run_append hthree).trans hrun)
  have hthree := htold.mp hlast
  omega

end Transmission

end Comnet.MP2
