/-
# The congestion window

The window starts at one segment, grows with new acknowledgements and falls back to
one on a timeout. Fast recovery divides it: it is entered with half the window in
`ssthresh` and left with that half as the window. Half of a window of one is none,
and a window of none never grows again, since the counter of congestion avoidance
has passed it. The window and the threshold are signed variables besides, and a window
that is raised past their range is lost too.
-/

import Comnet.MP2.Transmit

set_option autoImplicit false

namespace Comnet.MP2

open Foundations

namespace Transmission

/-- The window holds a segment, and in congestion avoidance its counter is below it. -/
structure WindowSound (t : Transmission) : Prop where
  cwnd_pos : 1 ≤ t.machine.cwnd
  counting : t.machine.state = .congestionAvoidance →
    0 ≤ t.machine.caAckCount ∧ t.machine.caAckCount < t.machine.cwnd

/-- The window and the threshold are values of their variables. -/
structure WindowTyped (t : Transmission) : Prop where
  cwnd : FitsInt t.machine.cwnd
  ssthresh : FitsInt t.machine.ssthresh

/-- A packet raises the window by one: a duplicate in fast recovery, a new acknowledgement
in slow start, and the one that fills the window in congestion avoidance. -/
inductive Raises (m : SenderStateMachine) (recv : Packet) : Prop
  | slowStart (state : m.state = .slowStart) (new : m.NewAck recv)
  | congestionAvoidance (state : m.state = .congestionAvoidance) (new : m.NewAck recv)
      (full : m.cwnd = m.caAckCount + 1)
  | fastRecovery (state : m.state = .fastRecovery) (dup : m.Duplicate recv)

/-- The turns that keep the window sound: it is raised only within its range, fast
recovery is entered only with a window whose half can be counted in bytes, and left only
with a threshold of at least one segment. -/
def KeepsWindow (t : Transmission) : Turn → Prop
  | .receive (some recv) _ =>
      (Raises t.machine recv → t.machine.cwnd + 1 < 2 ^ 31) ∧
      (t.machine.ThirdDuplicate recv → -3 < t.machine.halved) ∧
      (t.machine.NewAck recv → t.machine.state = .fastRecovery →
        mmsBytes ≤ t.machine.ssthresh)
  | _ => True

/-- A turn handles a new acknowledgement. -/
def Advances (t : Transmission) : Turn → Prop
  | .receive (some recv) _ => t.machine.NewAck recv
  | _ => False

instance (t : Transmission) : ∀ turn, Decidable (t.Advances turn)
  | .receive (some recv) _ => inferInstanceAs (Decidable (t.machine.NewAck recv))
  | .receive none _ => instDecidableFalse
  | .send _ => instDecidableFalse

/-- The number of new acknowledgements handled along a run. -/
def newAcks : Transmission → List Turn → ℕ
  | _, [] => 0
  | t, turn :: turns =>
    match t.step turn with
    | some next => (if t.Advances turn then 1 else 0) + newAcks next turns
    | none => 0

variable {s t next : Transmission} {turn : Turn} {turns : List Turn}

/-- A division that rounds towards zero reaches one when a whole is there. -/
theorem one_le_tdiv {value : ℤ} : 1 ≤ value.tdiv mmsBytes ↔ (mmsBytes : ℤ) ≤ value := by
  have hmms : (mmsBytes : ℤ) = 100 := rfl
  rw [hmms]
  by_cases hnonneg : 0 ≤ value
  · rw [Int.tdiv_eq_ediv_of_nonneg hnonneg]
    omega
  · have hneg : value.tdiv 100 ≤ 0 := by
      obtain ⟨size, rfl⟩ : ∃ size, value = -size := ⟨-value, by omega⟩
      rw [Int.neg_tdiv, Int.tdiv_eq_ediv_of_nonneg (by omega)]
      omega
    omega

theorem windowSound_start (caAckCount : ℤ) (opened : Bool) (fileName : Option (List UInt8)) :
    (start caAckCount opened fileName).WindowSound := by
  cases opened <;> exact ⟨le_rfl, fun hstate => nomatch hstate⟩

theorem windowTyped_start (caAckCount : ℤ) (opened : Bool) (fileName : Option (List UInt8)) :
    (start caAckCount opened fileName).WindowTyped := by
  have hssthresh : FitsInt 1000 := ⟨by decide, by decide⟩
  cases opened <;> exact ⟨fitsInt_one, hssthresh⟩

/-- What a round of the inner loop leaves alone. -/
theorem sending_window {m : SenderStateMachine} {f : Frame} {packet : Packet}
    {machine : SenderStateMachine} {returned : Option Bool}
    (sending : m.Sending f (machine, packet, returned)) :
    machine.cwnd = m.cwnd ∧ machine.caAckCount = m.caAckCount ∧ machine.state = m.state ∧
      machine.ssthresh = m.ssthresh := by
  cases sending <;> exact ⟨rfl, rfl, rfl, rfl⟩

theorem fitsInt_entered_cwnd (m : SenderStateMachine) : FitsInt m.entered.cwnd := by
  obtain ⟨hlower, hupper⟩ := m.halved_mem
  change FitsInt (m.halved + 3)
  constructor <;> omega

/-- Every assignment to the window and to the threshold leaves a value of its variable. -/
theorem windowTyped_step (h : t.WindowTyped) (hstep : t.step turn = some next) :
    next.WindowTyped := by
  obtain ⟨hcwnd, hssthresh⟩ := h
  obtain ⟨-, hmove⟩ := step_cases hstep
  cases hmove with
  | send f admitted sending =>
    obtain ⟨hwindow, -, -, hthreshold⟩ := sending_window sending
    exact ⟨hwindow ▸ hcwnd, hthreshold ▸ hssthresh⟩
  | receive recv f waiting reaction =>
    cases reaction with
    | timeout => exact ⟨fitsInt_one, (fitsInt_narrow _).tdiv (by decide)⟩
    | final recv ack fin => exact ⟨hcwnd, hssthresh⟩
    | ignored recv ack => exact ⟨hcwnd, hssthresh⟩
    | duplicate recv ack notFin old notThird =>
      refine ⟨?_, hssthresh⟩
      dsimp only
      split
      · exact fitsInt_narrow _
      · exact hcwnd
    | resent recv third sent measured => exact ⟨fitsInt_entered_cwnd _, fitsInt_narrow _⟩
    | refused recv third error notAcked => exact ⟨fitsInt_entered_cwnd _, fitsInt_narrow _⟩
    | advance recv new growth =>
      refine ⟨?_, hssthresh⟩
      cases growth with
      | slowStart state below => exact fitsInt_narrow _
      | leave state reached => exact fitsInt_narrow _
      | avoid state counting => exact hcwnd
      | raise state full => exact fitsInt_narrow _
      | recover state => exact hssthresh.tdiv (by decide)

/-- A window that is raised by one stays a window exactly within its range. -/
theorem one_le_narrow_add_one {cwnd : ℤ} (typed : FitsInt cwnd) (pos : 1 ≤ cwnd) :
    1 ≤ narrow (cwnd + 1) ↔ cwnd + 1 < 2 ^ 31 := by
  have hupper := typed.upper
  rw [narrow_eq]
  omega

/-- In congestion avoidance the counter of a sound window stays in its range. -/
theorem narrow_count_add_one {cwnd count : ℤ} (typed : FitsInt cwnd) (lower : 0 ≤ count)
    (upper : count < cwnd) : narrow (count + 1) = count + 1 := by
  have hbound := typed.upper
  exact narrow_of_mem (by omega) (by omega)

/-- The window when fast recovery is entered. -/
theorem one_le_entered_cwnd {m : SenderStateMachine} : 1 ≤ m.entered.cwnd ↔ -3 < m.halved := by
  change 1 ≤ m.halved + 3 ↔ _
  omega

/-- A new acknowledgement leaves a sound window sound, except that it may raise it past its
range, and that leaving fast recovery takes the window from the threshold. -/
theorem growth_window {m : SenderStateMachine} {recv : Packet}
    {cwnd notAcked caAckCount : ℤ} {state : State}
    (growth : m.Growth recv cwnd notAcked caAckCount state) (new : m.NewAck recv)
    (typed : FitsInt m.cwnd) (hpos : 1 ≤ m.cwnd)
    (hcount : m.state = .congestionAvoidance → 0 ≤ m.caAckCount ∧ m.caAckCount < m.cwnd) :
    (1 ≤ cwnd ∧ (state = .congestionAvoidance → 0 ≤ caAckCount ∧ caAckCount < cwnd)) ↔
      (Raises m recv → m.cwnd + 1 < 2 ^ 31) ∧
        (m.state = .fastRecovery → (mmsBytes : ℤ) ≤ m.ssthresh) := by
  have hraised := one_le_narrow_add_one typed hpos
  have hother : m.state ≠ .fastRecovery →
      (m.state = .fastRecovery → (mmsBytes : ℤ) ≤ m.ssthresh) := fun hnot hstate =>
    absurd hstate hnot
  cases growth with
  | slowStart hstate below =>
    constructor
    · rintro ⟨hcwnd, -⟩
      exact ⟨fun _ => hraised.mp hcwnd, hother (by simp [hstate])⟩
    · rintro ⟨hkeeps, -⟩
      exact ⟨hraised.mpr (hkeeps (.slowStart hstate new)), fun h => nomatch h⟩
  | leave hstate reached =>
    constructor
    · rintro ⟨hcwnd, -⟩
      exact ⟨fun _ => hraised.mp hcwnd, hother (by simp [hstate])⟩
    · rintro ⟨hkeeps, -⟩
      have hcwnd := hraised.mpr (hkeeps (.slowStart hstate new))
      exact ⟨hcwnd, fun _ => ⟨le_rfl, by omega⟩⟩
  | avoid hstate counting =>
    obtain ⟨hlower, hupper⟩ := hcount hstate
    rw [narrow_count_add_one typed hlower hupper] at counting ⊢
    refine iff_of_true ⟨hpos, fun _ => ⟨by omega, by omega⟩⟩ ⟨fun hraises => ?_, ?_⟩
    · cases hraises with
      | slowStart state new => exact nomatch state.symm.trans hstate
      | congestionAvoidance state new full => exact absurd full counting
      | fastRecovery state dup => exact nomatch state.symm.trans hstate
    · exact hother (by simp [hstate])
  | raise hstate full =>
    obtain ⟨hlower, hupper⟩ := hcount hstate
    rw [narrow_count_add_one typed hlower hupper] at full
    constructor
    · rintro ⟨hcwnd, -⟩
      exact ⟨fun _ => hraised.mp hcwnd, hother (by simp [hstate])⟩
    · rintro ⟨hkeeps, -⟩
      have hcwnd := hraised.mpr (hkeeps (.congestionAvoidance hstate new full))
      exact ⟨hcwnd, fun _ => ⟨le_rfl, by omega⟩⟩
  | recover hstate =>
    constructor
    · rintro ⟨hcwnd, -⟩
      refine ⟨fun hraises => ?_, fun _ => one_le_tdiv.mp hcwnd⟩
      cases hraises with
      | slowStart state new => exact nomatch state.symm.trans hstate
      | congestionAvoidance state new full => exact nomatch state.symm.trans hstate
      | fastRecovery state dup => exact absurd dup new.not_duplicate
    · rintro ⟨-, hthreshold⟩
      have hsegment : 1 ≤ m.ssthresh.tdiv mmsBytes := one_le_tdiv.mpr (hthreshold hstate)
      exact ⟨hsegment, fun _ => ⟨le_rfl, hsegment⟩⟩

/-- Only a new acknowledgement raises the window outside of fast recovery. -/
theorem not_raises {m : SenderStateMachine} {recv : Packet} (new : ¬ m.NewAck recv)
    (dup : m.state = .fastRecovery → ¬ m.Duplicate recv) : ¬ Raises m recv := by
  intro hraises
  cases hraises with
  | slowStart state hnew => exact new hnew
  | congestionAvoidance state hnew full => exact new hnew
  | fastRecovery state hdup => exact dup state hdup

/-- Only duplicates and new acknowledgements have to meet a condition. -/
theorem keepsWindow_of_neither {recv : Packet} {f : Frame} (dup : ¬ t.machine.Duplicate recv)
    (new : ¬ t.machine.NewAck recv) : t.KeepsWindow (.receive (some recv) f) :=
  ⟨fun hraises => absurd hraises (not_raises new fun _ => dup),
    fun third => absurd third.duplicate dup, fun h => absurd h new⟩

/-- The third duplicate sets the window. -/
theorem keepsWindow_of_third {recv : Packet} {f : Frame} (third : t.machine.ThirdDuplicate recv) :
    t.KeepsWindow (.receive (some recv) f) ↔ -3 < t.machine.halved :=
  ⟨fun h => h.2.1 third, fun h => ⟨fun hraises => absurd hraises
      (not_raises (SenderStateMachine.not_newAck_of_old third.old)
        fun state => absurd state third.state),
    fun _ => h, fun new => absurd third new.not_thirdDuplicate⟩⟩

/-- From a sound window a turn leads to a sound one exactly when it does not raise it past its
range, enter fast recovery without a window or leave it with a threshold below one segment. -/
theorem windowSound_step (typed : t.WindowTyped) (hsound : t.WindowSound)
    (hstep : t.step turn = some next) : next.WindowSound ↔ t.KeepsWindow turn := by
  obtain ⟨-, hmove⟩ := step_cases hstep
  have hpos := hsound.cwnd_pos
  have hcount := hsound.counting
  cases hmove with
  | send f admitted sending =>
    obtain ⟨hcwnd, hca, hstate, -⟩ := sending_window sending
    refine iff_of_true ⟨hcwnd ▸ hpos, fun h => ?_⟩ trivial
    rw [hca, hcwnd]
    exact hcount (hstate ▸ h)
  | receive recv f waiting reaction =>
    cases reaction with
    | timeout => exact iff_of_true ⟨le_rfl, fun h => nomatch h⟩ trivial
    | final recv ack fin =>
      apply iff_of_true ⟨hpos, hcount⟩
      exact keepsWindow_of_neither (SenderStateMachine.not_duplicate_of_fin fin)
        (SenderStateMachine.not_newAck_of_fin fin)
    | ignored recv ack =>
      apply iff_of_true ⟨hpos, hcount⟩
      exact keepsWindow_of_neither (SenderStateMachine.not_duplicate_of_no_ack ack)
        (SenderStateMachine.not_newAck_of_no_ack ack)
    | duplicate recv ack notFin old notThird =>
      have hnew : ¬ t.machine.NewAck recv := SenderStateMachine.not_newAck_of_old old
      by_cases hstate : t.machine.state = .fastRecovery
      · have hraises : Raises t.machine recv := .fastRecovery hstate ⟨ack, notFin, old⟩
        have hraised := one_le_narrow_add_one typed.cwnd hpos
        constructor
        · intro h
          have hcwnd := h.cwnd_pos
          dsimp only at hcwnd
          rw [if_pos hstate] at hcwnd
          exact ⟨fun _ => hraised.mp hcwnd, fun third => absurd third notThird,
            fun new => absurd new hnew⟩
        · rintro ⟨hkeeps, -⟩
          refine ⟨?_, fun hca => nomatch hstate.symm.trans hca⟩
          dsimp only
          rw [if_pos hstate]
          exact hraised.mpr (hkeeps hraises)
      · have hraises : ¬ Raises t.machine recv := not_raises hnew fun h => absurd h hstate
        apply iff_of_true
        · refine ⟨?_, fun hca => ?_⟩
          · dsimp only
            rwa [if_neg hstate]
          · dsimp only
            rw [if_neg hstate]
            exact hcount hca
        · exact ⟨fun h => absurd h hraises, fun h => absurd h notThird, fun h => absurd h hnew⟩
    | resent recv third sent measured =>
      have hkeeps := keepsWindow_of_third (f := f) third
      exact ⟨fun h => hkeeps.mpr (one_le_entered_cwnd.mp h.cwnd_pos),
        fun h => ⟨one_le_entered_cwnd.mpr (hkeeps.mp h), fun hstate => nomatch hstate⟩⟩
    | refused recv third error notAcked =>
      have hkeeps := keepsWindow_of_third (f := f) third
      exact ⟨fun h => hkeeps.mpr (one_le_entered_cwnd.mp h.cwnd_pos),
        fun h => ⟨one_le_entered_cwnd.mpr (hkeeps.mp h), fun hstate => nomatch hstate⟩⟩
    | advance recv new growth =>
      have hgrown := growth_window growth new typed.cwnd hpos hcount
      constructor
      · intro h
        obtain ⟨hraises, hthreshold⟩ := hgrown.mp ⟨h.cwnd_pos, h.counting⟩
        exact ⟨hraises, fun third => absurd third new.not_thirdDuplicate, fun _ => hthreshold⟩
      · rintro ⟨hraises, -, hthreshold⟩
        obtain ⟨hcwnd, hcounting⟩ := hgrown.mpr ⟨hraises, hthreshold new⟩
        exact ⟨hcwnd, hcounting⟩

/-! ## Growth in congestion avoidance -/

/-- Where the window and its counter are after some new acknowledgements, counted
from a window of `cwnd` with its counter at `count`. -/
structure Counted (cwnd count : ℤ) (acks : ℕ) (t : Transmission) : Prop where
  below : count + acks < cwnd → t.machine.cwnd = cwnd ∧ t.machine.caAckCount = count + acks
  above : cwnd ≤ count + acks →
    t.machine.cwnd = cwnd + 1 ∧ t.machine.caAckCount = count + acks - cwnd

/-- Within congestion avoidance only a new acknowledgement touches the window. -/
theorem window_of_not_advances (hbefore : t.machine.state = .congestionAvoidance)
    (hafter : next.machine.state = .congestionAvoidance) (hstep : t.step turn = some next)
    (hnot : ¬ t.Advances turn) :
    next.machine.cwnd = t.machine.cwnd ∧ next.machine.caAckCount = t.machine.caAckCount := by
  obtain ⟨-, hmove⟩ := step_cases hstep
  cases hmove with
  | send f admitted sending =>
    obtain ⟨hcwnd, hca, -, -⟩ := sending_window sending
    exact ⟨hcwnd, hca⟩
  | receive recv f waiting reaction =>
    cases reaction with
    | timeout => exact nomatch hafter
    | final recv ack fin => exact ⟨rfl, rfl⟩
    | ignored recv ack => exact ⟨rfl, rfl⟩
    | duplicate recv ack notFin old notThird =>
      exact ⟨if_neg (by simp [hbefore]), rfl⟩
    | resent recv third sent measured => exact nomatch hafter
    | refused recv third error notAcked => exact nomatch hafter
    | advance recv new growth => exact absurd new hnot

/-- A new acknowledgement in congestion avoidance counts, or raises the window and
starts counting again. -/
theorem window_of_advances (typed : t.WindowTyped) (hsound : t.WindowSound)
    (hbefore : t.machine.state = .congestionAvoidance) (hkeeps : t.KeepsWindow turn)
    (hstep : t.step turn = some next) (hadvances : t.Advances turn) :
    (t.machine.cwnd ≠ t.machine.caAckCount + 1 ∧ next.machine.cwnd = t.machine.cwnd ∧
        next.machine.caAckCount = t.machine.caAckCount + 1) ∨
      (t.machine.cwnd = t.machine.caAckCount + 1 ∧ next.machine.cwnd = t.machine.cwnd + 1 ∧
        next.machine.caAckCount = 0) := by
  obtain ⟨hlower, hupper⟩ := hsound.counting hbefore
  have hcount := narrow_count_add_one typed.cwnd hlower hupper
  obtain ⟨-, hmove⟩ := step_cases hstep
  cases hmove with
  | send f admitted sending => exact hadvances.elim
  | receive recv f waiting reaction =>
    cases reaction with
    | timeout => exact hadvances.elim
    | final recv ack fin => exact absurd hadvances (SenderStateMachine.not_newAck_of_fin fin)
    | ignored recv ack => exact absurd hadvances (SenderStateMachine.not_newAck_of_no_ack ack)
    | duplicate recv ack notFin old notThird =>
      exact absurd hadvances (SenderStateMachine.not_newAck_of_old old)
    | resent recv third sent measured =>
      exact absurd hadvances (SenderStateMachine.not_newAck_of_old third.old)
    | refused recv third error notAcked =>
      exact absurd hadvances (SenderStateMachine.not_newAck_of_old third.old)
    | advance recv new growth =>
      cases growth with
      | slowStart state below => exact nomatch state.symm.trans hbefore
      | leave state reached => exact nomatch state.symm.trans hbefore
      | avoid state counting =>
        rw [hcount] at counting
        exact Or.inl ⟨counting, rfl, hcount⟩
      | raise state full =>
        rw [hcount] at full
        have hroom := hkeeps.1 (.congestionAvoidance state new full)
        exact Or.inr ⟨full, narrow_of_mem (by omega) hroom, rfl⟩
      | recover state => exact nomatch state.symm.trans hbefore

/-- A turn within congestion avoidance counts a new acknowledgement and nothing else. -/
theorem counted_step {cwnd count : ℤ} {acks : ℕ} (hcounted : Counted cwnd count acks t)
    (typed : t.WindowTyped) (hsound : t.WindowSound) (hkeeps : t.KeepsWindow turn)
    (hlower : 0 ≤ count) (hupper : count < cwnd)
    (hbefore : t.machine.state = .congestionAvoidance)
    (hafter : next.machine.state = .congestionAvoidance) (hstep : t.step turn = some next)
    (hroom : ((acks + if t.Advances turn then 1 else 0 : ℕ) : ℤ) ≤ cwnd) :
    Counted cwnd count (acks + if t.Advances turn then 1 else 0) next := by
  have hbelow := hcounted.below
  have habove := hcounted.above
  by_cases hadvances : t.Advances turn
  · have hcases := window_of_advances typed hsound hbefore hkeeps hstep hadvances
    simp only [hadvances, if_true, Nat.cast_add, Nat.cast_one] at hroom ⊢
    -- the counter reaches the window once, at the acknowledgement that fills it
    constructor <;> push_cast <;> intro hcase <;> omega
  · obtain ⟨hcwnd, hca⟩ := window_of_not_advances hbefore hafter hstep hadvances
    simp only [hadvances, if_false, Nat.add_zero]
    exact ⟨fun h => hcwnd ▸ hca ▸ hbelow h, fun h => hcwnd ▸ hca ▸ habove h⟩

/-- A run within congestion avoidance counts its new acknowledgements. -/
theorem counted_run {cwnd count : ℤ} {acks : ℕ} (hcounted : Counted cwnd count acks s)
    (typed : s.WindowTyped) (hsound : s.WindowSound) (hkeeps : AllSteps step KeepsWindow s turns)
    (hlower : 0 ≤ count) (hupper : count < cwnd) (hrun : run step s turns = some t)
    (hstates : AllStates step (·.machine.state = .congestionAvoidance) s turns)
    (hroom : ((acks + newAcks s turns : ℕ) : ℤ) ≤ cwnd) :
    Counted cwnd count (acks + newAcks s turns) t := by
  induction turns generalizing s acks with
  | nil =>
    obtain rfl : s = t := by simpa using hrun
    exact hcounted
  | cons turn turns ih =>
    obtain ⟨next, hstep, hrest⟩ := run_cons_eq_some.mp hrun
    have hcount : newAcks s (turn :: turns) =
        (if s.Advances turn then 1 else 0) + newAcks next turns := by
      simp only [newAcks, hstep]
    rw [hcount, ← Nat.add_assoc] at hroom ⊢
    have hnext := hstates.2 next hstep
    obtain ⟨hkeep, hkeepRest⟩ := hkeeps next hstep
    have hcountedNext := counted_step hcounted typed hsound hkeep hlower hupper hstates.head
      hnext.head hstep (by omega)
    exact ih hcountedNext (windowTyped_step typed hstep)
      ((windowSound_step typed hsound hstep).mpr hkeep) hkeepRest hrest hnext hroom

/-- In a run of `transmit` the window is sound at every loop head exactly when every turn
keeps it. Then, within congestion avoidance and while the turns go on to keep it, as many new
acknowledgements as the window is wide raise it by one. -/
theorem windowSound_iff_keepsWindow (caAckCount : ℤ) (opened : Bool)
    (fileName : Option (List UInt8)) (turns : List Turn) :
    (AllStates step WindowSound (start caAckCount opened fileName) turns ↔
      AllSteps step KeepsWindow (start caAckCount opened fileName) turns) ∧
    (AllSteps step KeepsWindow (start caAckCount opened fileName) turns →
      ∀ s t during, run step (start caAckCount opened fileName) turns = some s →
        run step s during = some t → AllSteps step KeepsWindow s during →
        AllStates step (·.machine.state = .congestionAvoidance) s during →
        newAcks s during = s.machine.cwnd → t.machine.cwnd = s.machine.cwnd + 1) := by
  have hiff : AllStates step WindowSound (start caAckCount opened fileName) turns ↔
      AllSteps step KeepsWindow (start caAckCount opened fileName) turns :=
    allStates_iff_allSteps (windowSound_start caAckCount opened fileName)
      (windowTyped_start caAckCount opened fileName)
      (fun _ _ _ typed hstep => windowTyped_step typed hstep)
      (fun _ _ _ typed _ hsound => windowSound_step typed hsound)
      (AllSteps.of_forall fun _ _ => trivial)
  refine ⟨hiff, fun hkeeps s t during hbefore hrun hduring hstates hacks => ?_⟩
  have hsound : s.WindowSound := (hiff.mpr hkeeps).last hbefore
  have htyped : s.WindowTyped := invariant_run (windowTyped_start caAckCount opened fileName)
    (fun _ _ _ typed hstep => windowTyped_step typed hstep) hbefore
  obtain ⟨hlower, hupper⟩ := hsound.counting hstates.head
  have hstart : Counted s.machine.cwnd s.machine.caAckCount 0 s :=
    ⟨fun _ => ⟨rfl, by simp⟩, fun h => by simp at h; omega⟩
  have hend := counted_run hstart htyped hsound hduring hlower hupper hrun hstates
    (by simp [hacks])
  refine (hend.above ?_).1
  rw [Nat.zero_add, hacks]
  omega

/-- A window of one segment, halved by the third copy of an acknowledgement and
then taken over when the retransmitted segment is acknowledged. -/
def recoveryFromOne : List Turn :=
  [.send .usual, .receive (some (.acknowledgement 101)) .usual, .send .usual, .send .usual,
    .receive none .usual, .send .usual,
    .receive (some (.acknowledgement 101)) .usual, .receive (some (.acknowledgement 101)) .usual,
    .receive (some (.acknowledgement 101)) .usual,
    .send .usual, .send .usual, .receive (some (.acknowledgement 301)) .usual]

/-- The window is gone. -/
theorem recoveryFromOne_unsound :
    ¬ AllStates step WindowSound (start 0 true (some (List.replicate 600 65))) recoveryFromOne := by
  have hend : (run step (start 0 true (some (List.replicate 600 65))) recoveryFromOne).map
      (·.machine.cwnd) = some 0 := by
    decide +kernel
  refine not_allStates_of_run hend fun t hcwnd hsound => ?_
  have hpos : 1 ≤ t.machine.cwnd := hsound.cwnd_pos
  omega

end Transmission

end Comnet.MP2
