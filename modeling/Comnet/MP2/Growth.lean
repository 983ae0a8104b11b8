/-
# What the window comes to

`cwnd`, `ssthresh`, `caAckCount` and the state of the sender are one window under control: each
packet that a receiving function is given is a signal to it, or none. So what a run makes of the
window is told by its signals alone, by how many acknowledgements there were since the last loss.

The window is counted in bytes too, where it is compared with the threshold and halved. All this
is said of windows whose bytes are in the range of a signed variable; those that are not wrap.
-/

import Comnet.Foundations.Window
import Comnet.MP2.Episode

set_option autoImplicit false

namespace Comnet.MP2

open Foundations

namespace SenderStateMachine

/-- The machine has this window. The threshold is in bytes, and slow start ends with the first
size that reaches it. -/
def HasWindow (s : SenderStateMachine) : Window → Prop
  | .slowStart size limit => s.state = .slowStart ∧ s.cwnd = size ∧
      (limit : ℤ) = (s.ssthresh + (mmsBytes - 1)) / mmsBytes
  | .avoidance size count => s.state = .congestionAvoidance ∧ s.cwnd = size ∧
      s.caAckCount = count
  | .recovery half lent => s.state = .fastRecovery ∧ s.cwnd = half + 3 + lent ∧
      s.ssthresh = half * mmsBytes

/-- The window, one segment more, can be counted in bytes, and an acknowledgement more can be
counted in congestion avoidance. -/
structure WindowFits (s : SenderStateMachine) : Prop where
  cwnd : s.cwnd < 21474836
  counting : s.state = .congestionAvoidance → s.caAckCount < 2 ^ 31 - 1

instance (s : SenderStateMachine) : Decidable s.WindowFits :=
  decidable_of_iff (s.cwnd < 21474836 ∧
      (s.state = .congestionAvoidance → s.caAckCount < 2 ^ 31 - 1))
    ⟨fun ⟨h₁, h₂⟩ => ⟨h₁, h₂⟩, fun ⟨h₁, h₂⟩ => ⟨h₁, h₂⟩⟩

variable {s : SenderStateMachine} {w : Window}

theorem HasWindow.cwnd_eq (h : s.HasWindow w) : s.cwnd = w.size := by
  cases w with
  | slowStart size limit => exact h.2.1
  | avoidance size count => exact h.2.1
  | recovery half lent =>
    rw [h.2.1]
    simp [Window.size]

theorem WindowFits.narrow_cwnd (fits : s.WindowFits) (h : s.HasWindow w) :
    narrow (s.cwnd + 1) = s.cwnd + 1 := by
  have hcwnd := h.cwnd_eq
  have hless := fits.cwnd
  exact narrow_of_mem (by omega) (by omega)

/-- A window that fits, or a part of it, is counted in bytes as it is. -/
theorem WindowFits.narrow_bytes (fits : s.WindowFits) {segments : ℤ} (nonneg : 0 ≤ segments)
    (le : segments ≤ s.cwnd + 1) : narrow (segments * mmsBytes) = segments * mmsBytes := by
  have hless := fits.cwnd
  unfold mmsBytes
  exact narrow_of_mem (by omega) (by omega)

/-- A timeout starts again with half of the window as the threshold. -/
theorem HasWindow.timeout (h : s.HasWindow w) (fits : s.WindowFits) :
    s.processTimeout.HasWindow (w.next .timeout) := by
  have hcwnd := h.cwnd_eq
  have hwindow : w.next .timeout = .slowStart 1 ((w.size + 1) / 2) := by cases w <;> rfl
  rw [hwindow]
  refine ⟨rfl, rfl, ?_⟩
  change (((w.size + 1) / 2 : ℕ) : ℤ) =
    ((narrow (s.cwnd * mmsBytes)).tdiv 2 + (mmsBytes - 1)) / mmsBytes
  rw [fits.narrow_bytes (by omega) (by omega), hcwnd,
    Int.tdiv_eq_ediv_of_nonneg (by positivity)]
  unfold mmsBytes
  omega

/-- What the window does not depend on may change. -/
theorem HasWindow.congr (h : s.HasWindow w) {next : SenderStateMachine}
    (hstate : next.state = s.state) (hcwnd : next.cwnd = s.cwnd)
    (hssthresh : next.ssthresh = s.ssthresh) (hcount : next.caAckCount = s.caAckCount) :
    next.HasWindow w := by
  cases w <;> simpa only [HasWindow, hstate, hcwnd, hssthresh, hcount] using h

/-- A new acknowledgement takes the window on. -/
theorem HasWindow.acked (h : s.HasWindow w) (fits : s.WindowFits) {recv : Packet}
    {cwnd notAcked caAckCount : ℤ} {state : State}
    (growth : s.Growth recv cwnd notAcked caAckCount state)
    {next : SenderStateMachine} (hcwnd : next.cwnd = cwnd) (hcount : next.caAckCount = caAckCount)
    (hstate : next.state = state) (hssthresh : next.ssthresh = s.ssthresh) :
    next.HasWindow (w.next .acked) := by
  have hraised := fits.narrow_cwnd h
  cases w with
  | slowStart size limit =>
    obtain ⟨hphase, hsize, hlimit⟩ := h
    have hbytes := fits.narrow_bytes (show 0 ≤ s.cwnd + 1 by omega) le_rfl
    -- the threshold is in bytes: the next size reaches it when it reaches the limit in segments
    unfold mmsBytes at hlimit
    cases growth with
    | slowStart _ below =>
      rw [hraised] at below hcwnd
      rw [hbytes] at below
      have hroom : ¬ limit ≤ size + 1 := by
        unfold mmsBytes at below
        omega
      rw [Window.next, if_neg hroom]
      exact ⟨hstate, by rw [hcwnd, hsize, Nat.cast_succ], by rw [hssthresh]; exact hlimit⟩
    | leave _ reached =>
      rw [hraised] at reached hcwnd
      rw [hbytes] at reached
      have hdone : limit ≤ size + 1 := by
        unfold mmsBytes at reached
        omega
      rw [Window.next, if_pos hdone]
      exact ⟨hstate, by rw [hcwnd, hsize, Nat.cast_succ], hcount⟩
    | avoid other => exact State.noConfusion (other.symm.trans hphase)
    | raise other => exact State.noConfusion (other.symm.trans hphase)
    | recover other => exact State.noConfusion (other.symm.trans hphase)
  | avoidance size count =>
    obtain ⟨hphase, hsize, hcounted⟩ := h
    have hless := fits.counting hphase
    have hcounting : narrow (s.caAckCount + 1) = s.caAckCount + 1 :=
      narrow_of_mem (by omega) (by omega)
    cases growth with
    | avoid _ counting =>
      rw [hcounting] at counting hcount
      have hroom : ¬ size = count + 1 := by omega
      rw [Window.next, if_neg hroom]
      exact ⟨hstate, by rw [hcwnd, hsize], by rw [hcount, hcounted, Nat.cast_succ]⟩
    | raise _ full =>
      rw [hcounting] at full
      rw [hraised] at hcwnd
      have hfull : size = count + 1 := by omega
      rw [Window.next, if_pos hfull]
      exact ⟨hstate, by rw [hcwnd, hsize, Nat.cast_succ], hcount⟩
    | slowStart other => exact State.noConfusion (other.symm.trans hphase)
    | leave other => exact State.noConfusion (other.symm.trans hphase)
    | recover other => exact State.noConfusion (other.symm.trans hphase)
  | recovery half lent =>
    obtain ⟨hphase, -, hthreshold⟩ := h
    cases growth with
    | recover =>
      -- the threshold set at the third duplicate is half the window, whatever has been lent since
      have hhalf : s.ssthresh.tdiv mmsBytes = half := by
        rw [hthreshold]
        exact Int.mul_tdiv_cancel _ (by decide)
      exact ⟨hstate, hcwnd.trans hhalf, hcount⟩
    | slowStart other => exact State.noConfusion (other.symm.trans hphase)
    | leave other => exact State.noConfusion (other.symm.trans hphase)
    | avoid other => exact State.noConfusion (other.symm.trans hphase)
    | raise other => exact State.noConfusion (other.symm.trans hphase)

/-- A duplicate lends a segment in fast recovery and nothing elsewhere. -/
theorem HasWindow.duplicate (h : s.HasWindow w) (fits : s.WindowFits) {next : SenderStateMachine}
    (hcwnd : next.cwnd = if s.state = .fastRecovery then narrow (s.cwnd + 1) else s.cwnd)
    (hcount : next.caAckCount = s.caAckCount) (hstate : next.state = s.state)
    (hssthresh : next.ssthresh = s.ssthresh) : next.HasWindow (w.next .duplicate) := by
  rw [fits.narrow_cwnd h] at hcwnd
  cases w with
  | recovery half lent =>
    obtain ⟨hphase, hsize, hthreshold⟩ := h
    refine ⟨hstate.trans hphase, ?_, hssthresh.trans hthreshold⟩
    rw [hcwnd, if_pos hphase, hsize]
    omega
  | slowStart size limit =>
    have hother : ¬ s.state = .fastRecovery := by simp [h.1]
    exact h.congr hstate (by rw [hcwnd, if_neg hother]) hssthresh hcount
  | avoidance size count =>
    have hother : ¬ s.state = .fastRecovery := by simp [h.1]
    exact h.congr hstate (by rw [hcwnd, if_neg hother]) hssthresh hcount

/-- The third duplicate halves the window. -/
theorem HasWindow.third (h : s.HasWindow w) (fits : s.WindowFits) {next : SenderStateMachine}
    (hcwnd : next.cwnd = s.halved + 3) (hstate : next.state = .fastRecovery)
    (hssthresh : next.ssthresh = narrow (s.cwnd.tdiv 2 * mmsBytes)) :
    next.HasWindow (w.next .third) := by
  have hwindow : w.next .third = .recovery (w.size / 2) 0 := by cases w <;> rfl
  have hhalf : s.cwnd.tdiv 2 = (w.size / 2 : ℕ) := by
    rw [h.cwnd_eq, Int.tdiv_eq_ediv_of_nonneg (by positivity)]
    norm_cast
  have hcwndEq := h.cwnd_eq
  have hbytes : narrow (s.cwnd.tdiv 2 * mmsBytes) = s.cwnd.tdiv 2 * mmsBytes :=
    fits.narrow_bytes (by omega) (by omega)
  rw [halved_of_fits (narrow_eq_self_iff.mp hbytes)] at hcwnd
  rw [hbytes] at hssthresh
  rw [hhalf] at hcwnd hssthresh
  rw [hwindow]
  exact ⟨hstate, by rw [hcwnd]; simp, hssthresh⟩

end SenderStateMachine

namespace Transmission

/-- What a turn tells the window. -/
def signal (t : Transmission) : Turn → Option Signal
  | .send _ => none
  | .receive none _ => some .timeout
  | .receive (some recv) f =>
    if t.machine.NewAck recv then some .acked
    else if t.machine.ThirdDuplicate recv then some .third
    else if t.duplicates (.receive (some recv) f) then some .duplicate
    else none

/-- What a run tells the window. -/
def signals : Transmission → List Turn → List Signal := emitted step signal

variable {s t u next : Transmission} {turn : Turn} {turns history : List Turn} {w : Window}

/-- A turn makes of the window what its signal does. -/
theorem hasWindow_step (h : t.machine.HasWindow w) (fits : t.machine.WindowFits)
    (hstep : t.step turn = some next) :
    next.machine.HasWindow ((t.signal turn).toList.foldl Window.next w) := by
  obtain ⟨-, hmove⟩ := step_cases hstep
  cases hmove with
  | send f admitted sending => cases sending <;> exact h.congr rfl rfl rfl rfl
  | receive recv f waiting reaction =>
    cases reaction with
    | timeout => exact h.timeout fits
    | final recv ack fin =>
      have hquiet : t.signal (.receive (some recv) f) = none := by
        simp [signal, SenderStateMachine.not_newAck_of_fin fin,
          SenderStateMachine.not_thirdDuplicate_of_fin fin, duplicates, fin]
      rw [hquiet]
      exact h
    | ignored recv ack =>
      have hquiet : t.signal (.receive (some recv) f) = none := by
        simp [signal, SenderStateMachine.not_newAck_of_no_ack ack,
          SenderStateMachine.not_thirdDuplicate_of_no_ack ack, duplicates, ack]
      rw [hquiet]
      exact h
    | duplicate recv ack notFin old notThird =>
      have hsignal : t.signal (.receive (some recv) f) = some .duplicate := by
        simp [signal, SenderStateMachine.not_newAck_of_old old, notThird, duplicates, ack,
          notFin, old]
      rw [hsignal]
      exact h.duplicate fits rfl rfl rfl rfl
    | resent recv third sent measured =>
      have hsignal : t.signal (.receive (some recv) f) = some .third := by
        simp [signal, SenderStateMachine.not_newAck_of_old third.old, third]
      rw [hsignal]
      exact h.third fits rfl rfl rfl
    | refused recv third error notAcked =>
      -- the window is halved before `sendTo` is called, so a throw does not change it
      have hsignal : t.signal (.receive (some recv) f) = some .third := by
        simp [signal, SenderStateMachine.not_newAck_of_old third.old, third]
      rw [hsignal]
      exact h.third fits rfl rfl rfl
    | advance recv new growth =>
      have hsignal : t.signal (.receive (some recv) f) = some .acked := by
        simp [signal, new]
      rw [hsignal]
      exact h.acked fits growth rfl rfl rfl rfl

/-- Every window along the turns fits. -/
def WindowsFit : Transmission → List Turn → Prop := AllStates step (·.machine.WindowFits)

theorem windowFits_of_extent (h : s.machine.HasWindow w) (less : w.extent < 21474836) :
    s.machine.WindowFits := by
  cases w with
  | slowStart size limit =>
    obtain ⟨hstate, hcwnd, -⟩ := h
    simp only [Window.extent] at less
    exact ⟨by omega, fun hca => State.noConfusion (hstate.symm.trans hca)⟩
  | avoidance size count =>
    obtain ⟨-, hcwnd, hcount⟩ := h
    simp only [Window.extent] at less
    exact ⟨by omega, fun _ => by omega⟩
  | recovery half lent =>
    obtain ⟨hstate, hcwnd, -⟩ := h
    simp only [Window.extent] at less
    exact ⟨by omega, fun hca => State.noConfusion (hstate.symm.trans hca)⟩

/-- A turn takes the window no further than three segments, so it fits along millions of them. -/
theorem windowsFit_of_length (h : s.machine.HasWindow w)
    (less : w.extent + 3 * turns.length < 21474836) : WindowsFit s turns := by
  induction turns generalizing s w with
  | nil => exact windowFits_of_extent h (by simpa using less)
  | cons turn turns ih =>
    rw [List.length_cons] at less
    have hfits := windowFits_of_extent h (by omega)
    refine ⟨hfits, fun next hstep => ?_⟩
    have hnext := hasWindow_step h hfits hstep
    cases hsignal : s.signal turn with
    | none =>
      rw [hsignal] at hnext
      exact ih hnext (show w.extent + 3 * turns.length < 21474836 by omega)
    | some signal =>
      rw [hsignal] at hnext
      have hextent := w.extent_next_le signal
      exact ih hnext (show (w.next signal).extent + 3 * turns.length < 21474836 by omega)

theorem hasWindow_run (h : s.machine.HasWindow w) (fits : WindowsFit s turns)
    (hrun : run step s turns = some t) :
    t.machine.HasWindow (w.after (signals s turns)) :=
  refines_run (R := fun (t : Transmission) w => t.machine.HasWindow w) h fits
    (fun _ _ _ _ fits h hstep => hasWindow_step h fits hstep) hrun

theorem hasWindow_start (caAckCount : ℤ) (opened : Bool) (fileName : Option (List UInt8)) :
    (start caAckCount opened fileName).machine.HasWindow (.slowStart 1 10) := by
  cases opened <;> exact ⟨rfl, rfl, rfl⟩

theorem windowsFit_start {caAckCount : ℤ} {opened : Bool} {fileName : Option (List UInt8)}
    (short : turns.length < 7158278) : WindowsFit (start caAckCount opened fileName) turns := by
  have hless : (Window.slowStart 1 10).extent + 3 * turns.length < 21474836 := by
    simp only [Window.extent]
    omega
  exact windowsFit_of_length (hasWindow_start caAckCount opened fileName) hless

/-- In every run of `transmit` along which it fits, the window is what the signals of the run
make of a new one, which leaves slow start with ten segments. -/
theorem hasWindow_signals (caAckCount : ℤ) (opened : Bool) (fileName : Option (List UInt8))
    (turns : List Turn) (t : Transmission)
    (fits : WindowsFit (start caAckCount opened fileName) turns)
    (hrun : run step (start caAckCount opened fileName) turns = some t) :
    t.machine.HasWindow
      ((Window.slowStart 1 10).after (signals (start caAckCount opened fileName) turns)) :=
  hasWindow_run (hasWindow_start caAckCount opened fileName) fits hrun

/-- The third duplicate of the first acknowledgement. -/
theorem hasWindow_signals_threeDuplicates :
    let t := (run step (start 0 true (some [65, 66])) threeDuplicates).get
      (by decide +kernel)
    t.machine.HasWindow ((Window.slowStart 1 10).after
      (signals (start 0 true (some [65, 66])) threeDuplicates)) :=
  hasWindow_signals 0 true _ threeDuplicates _ (windowsFit_start (by decide))
    (Option.some_get _).symm

/-- The sender is in congestion avoidance with its counter at a place of the triangle. -/
structure AtPlace (t : Transmission) (position : ℕ) : Prop where
  state : t.machine.state = .congestionAvoidance
  counting : 0 ≤ t.machine.caAckCount ∧ t.machine.caAckCount < t.machine.cwnd
  place : Window.place t.machine.cwnd.toNat t.machine.caAckCount.toNat = position

/-- The window of a sender in congestion avoidance tells its place. -/
theorem atPlace_of_isAt {position : ℕ} (h : t.machine.HasWindow w) (hat : w.IsAt position) :
    t.AtPlace position := by
  obtain ⟨size, count, rfl, hless, hplace⟩ := hat
  obtain ⟨hstate, hcwnd, hcount⟩ := h
  refine ⟨hstate, by omega, ?_⟩
  rw [hcwnd, hcount, Int.toNat_natCast, Int.toNat_natCast, hplace]

/-- Every sender reached with windows that fit has one. -/
theorem exists_window {caAckCount : ℤ} {opened : Bool} {fileName : Option (List UInt8)}
    (fits : WindowsFit (start caAckCount opened fileName) history)
    (hbefore : run step (start caAckCount opened fileName) history = some s) :
    ∃ w, s.machine.HasWindow w :=
  ⟨_, hasWindow_run (hasWindow_start caAckCount opened fileName) fits hbefore⟩

/-- From any state reached, as long as the window fits, no timer expires and no third duplicate
is counted: slow start adds a segment for each new acknowledgement up to the first size that reaches
the threshold, and from there on, as in congestion avoidance, the counter moves by a place of the
triangle for each, so that the window grows by one in as many acknowledgements as it is wide. -/
theorem window_growth (caAckCount : ℤ) (opened : Bool) (fileName : Option (List UInt8))
    (history turns : List Turn)
    (fits : WindowsFit (start caAckCount opened fileName) (history ++ turns))
    (hbefore : run step (start caAckCount opened fileName) history = some s)
    (hrun : run step s turns = some t) (smooth : Window.Smooth (signals s turns)) :
    let acks := (signals s turns).count .acked
    let size := s.machine.cwnd.toNat
    let ramp := Window.ramp size ((s.machine.ssthresh + (mmsBytes - 1)) / mmsBytes).toNat
    (s.machine.state = .slowStart →
      (acks < ramp → t.machine.state = .slowStart ∧ t.machine.cwnd = size + acks) ∧
      (ramp ≤ acks → t.AtPlace ((size + ramp).choose 2 + (acks - ramp)))) ∧
    (s.machine.state = .congestionAvoidance → s.machine.caAckCount < s.machine.cwnd →
      t.AtPlace (Window.place size s.machine.caAckCount.toNat + acks)) := by
  intro acks size ramp
  obtain ⟨hfitsBefore, hfitsRun⟩ := fits.append hbefore
  obtain ⟨w, hwindow⟩ := exists_window hfitsBefore hbefore
  have hafter := hasWindow_run hwindow hfitsRun hrun
  -- the phase of the machine says which window it is, and the window's own law says the rest
  refine ⟨fun hstate => ?_, fun hstate hcounting => ?_⟩
  · cases w with
    | slowStart cwnd limit =>
      obtain ⟨-, hcwnd, hlimit⟩ := hwindow
      obtain rfl : size = cwnd := by rw [show size = s.machine.cwnd.toNat from rfl, hcwnd]; rfl
      have hramp : ramp = Window.ramp size limit := by
        rw [show ramp = Window.ramp size _ from rfl, ← hlimit, Int.toNat_natCast]
      obtain ⟨hbelow, habove⟩ := Window.after_slowStart size limit smooth
      rw [hramp]
      refine ⟨fun h => ?_, fun h => atPlace_of_isAt hafter (habove h)⟩
      rw [hbelow h] at hafter
      exact ⟨hafter.1, by rw [hafter.2.1, Nat.cast_add]⟩
    | avoidance cwnd count => exact State.noConfusion (hstate.symm.trans hwindow.1)
    | recovery half lent => exact State.noConfusion (hstate.symm.trans hwindow.1)
  · cases w with
    | avoidance cwnd count =>
      obtain ⟨-, hcwnd, hcount⟩ := hwindow
      have hat : (Window.avoidance cwnd count).IsAt
          (Window.place size s.machine.caAckCount.toNat) := by
        refine ⟨cwnd, count, rfl, by omega, ?_⟩
        rw [show size = s.machine.cwnd.toNat from rfl, hcwnd, hcount]
        rfl
      exact atPlace_of_isAt hafter (hat.after smooth)
    | slowStart cwnd limit => exact State.noConfusion (hstate.symm.trans hwindow.1)
    | recovery half lent => exact State.noConfusion (hstate.symm.trans hwindow.1)

/-- A segment of two bytes and its acknowledgement. -/
def firstAcknowledged : List Turn := [.send .usual, .receive (some (.acknowledgement 3)) .usual]

theorem window_growth_firstAcknowledged :
    let t := (run step (start 0 true (some [65, 66])) firstAcknowledged).get
      (by decide +kernel)
    t.machine.state = .slowStart ∧ t.machine.cwnd = 1 + 1 :=
  ((window_growth 0 true (some [65, 66]) [] firstAcknowledged (windowsFit_start (by decide)) rfl
    (Option.some_get _).symm (by decide +kernel)).1 (by decide +kernel)).1 (by decide +kernel)

/-- From the third duplicate on, as long as the window fits and no timer expires: until the next new
acknowledgement the window is half of what it was, three segments more and one for each further
duplicate. That acknowledgement leaves the half, whatever the duplicates, and each one after it
moves the counter by a place of the triangle; but a window of one segment leaves none, and a
window of none stays. -/
theorem window_recovery (caAckCount : ℤ) (opened : Bool) (fileName : Option (List UInt8))
    (history : List Turn) (turn : Turn) (turns : List Turn)
    (fits : WindowsFit (start caAckCount opened fileName) (history ++ turn :: turns))
    (hbefore : run step (start caAckCount opened fileName) history = some s)
    (third : s.signal turn = some .third) (hstep : s.step turn = some u)
    (hrun : run step u turns = some t) (smooth : Window.Smooth (signals u turns)) :
    let acks := (signals u turns).count .acked
    let half := s.machine.cwnd.toNat / 2
    (acks = 0 → t.machine.state = .fastRecovery ∧
      t.machine.cwnd = half + 3 + (signals u turns).count .duplicate) ∧
    (0 < acks → 2 ≤ s.machine.cwnd → t.AtPlace (half.choose 2 + (acks - 1))) ∧
    (0 < acks → s.machine.cwnd < 2 →
      t.machine.state = .congestionAvoidance ∧ t.machine.cwnd = 0) := by
  intro acks half
  obtain ⟨hfitsBefore, hfitsThird⟩ := fits.append hbefore
  obtain ⟨w, hwindow⟩ := exists_window hfitsBefore hbefore
  have hentered : u.machine.HasWindow (w.next .third) := by
    have hnext := hasWindow_step hwindow hfitsThird.head hstep
    rwa [third] at hnext
  -- in every phase the third duplicate halves what is open, so the phase does not matter
  have hthird : w.next .third = .recovery half 0 := by
    have hsize : half = w.size / 2 := by
      rw [show half = s.machine.cwnd.toNat / 2 from rfl, hwindow.cwnd_eq, Int.toNat_natCast]
    rw [hsize]
    cases w <;> rfl
  rw [hthird] at hentered
  have hafter := hasWindow_run hentered (hfitsThird.2 u hstep) hrun
  obtain ⟨hnone, hsome, hzero⟩ := Window.after_recovery half 0 smooth
  refine ⟨fun h => ?_, fun h hwide => ?_, fun h hnarrow => ?_⟩
  · rw [hnone h] at hafter
    exact ⟨hafter.1, by rw [hafter.2.1, Nat.zero_add]⟩
  · exact atPlace_of_isAt hafter (hsome h (by omega))
  · rw [hzero h (by omega)] at hafter
    exact ⟨hafter.1, hafter.2.1⟩

/-- A segment, three acknowledgements of the position before it and a fourth one. -/
theorem window_recovery_fourth :
    let file := some [65, 66]
    let old := Turn.receive (some (.acknowledgement 1)) .usual
    let s := (run step (start 0 true file) [.send .usual, old, old]).get (by decide +kernel)
    let u := (s.step old).get (by decide +kernel)
    let t := (run step u [old]).get (by decide +kernel)
    t.machine.state = .fastRecovery ∧ t.machine.cwnd = 0 + 3 + 1 :=
  (window_recovery 0 true (some [65, 66])
    [.send .usual, .receive (some (.acknowledgement 1)) .usual,
      .receive (some (.acknowledgement 1)) .usual]
    (.receive (some (.acknowledgement 1)) .usual)
    [.receive (some (.acknowledgement 1)) .usual] (windowsFit_start (by decide))
    (Option.some_get _).symm (by decide +kernel) (Option.some_get _).symm
    (Option.some_get _).symm (by decide +kernel)).1 (by decide +kernel)

end Transmission

end Comnet.MP2
