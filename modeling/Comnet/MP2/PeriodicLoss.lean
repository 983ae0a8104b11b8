/-
# Losses that leave something over

A period loses the first arrival and then every one whose number is a multiple of the period
and one. The periods that are accepted begin at two, so of three arrivals in a row at most two
fall to the period, two only where the numbers have come round to zero. A list of numbers is used
up by what it loses. Whatever a file of losses says, the receiver sees some of the packets that go
on arriving.
-/

import Comnet.MP2.SpecificLoss

set_option autoImplicit false

namespace Comnet.MP2

open Foundations

/-- The period is one that a signed variable holds, and leaves some of the arrivals over. -/
def LossPattern.SparesSome (pattern : LossPattern) : Prop :=
  pattern.periodic = true → 2 ≤ pattern.lossPeriod ∧ pattern.lossPeriod < 2 ^ 31

/-- An arrival of a packet that reads as no error, with a zero behind the list of losses. -/
structure Arrival.Plain (a : Arrival) : Prop where
  read : a.bytesRead ≠ -1
  stray : a.stray = 0

theorem Arrival.plain_iff {a : Arrival} : a.Plain ↔ a.bytesRead ≠ -1 ∧ a.stray = 0 :=
  ⟨fun h => ⟨h.read, h.stray⟩, fun h => ⟨h.1, h.2⟩⟩

namespace LossFilter

/-- The filter after some arrivals. -/
def after (f : LossFilter) (arrivals : List Arrival) : LossFilter :=
  arrivals.foldl (fun f a => (f.count a).1) f

/-- The number of the next arrival. -/
def nextNumber (f : LossFilter) : ℤ := narrow (f.rsn + 1)

/-- The next arrival falls to the period. -/
def DueNow (f : LossFilter) : Prop :=
  f.periodic = true ∧ (f.nextNumber = 1 ∨ f.nextNumber.tmod (narrow (f.lossPeriod + 1)) = 0)

/-- The next arrival falls to the period, or its number is what lies behind the list. -/
def Idle (f : LossFilter) : Prop := f.DueNow ∨ f.nextNumber = 0

/-- How many of so many arrivals a period loses. -/
def lost (period arrivals : ℕ) : ℕ := min 1 arrivals + arrivals / (period + 1)

variable {f : LossFilter} {a : Arrival} {as : List Arrival} {period k : ℕ}

@[simp] theorem rsn_count (f : LossFilter) (a : Arrival) : (f.count a).1.rsn = f.nextNumber := by
  unfold count
  dsimp only
  split_ifs <;> rfl

theorem position_count (f : LossFilter) (a : Arrival) :
    f.specificPosition ≤ (f.count a).1.specificPosition := by
  unfold count
  dsimp only
  split_ifs
  · exact le_rfl
  · exact Nat.le_succ _
  · exact le_rfl

@[simp] theorem after_nil (f : LossFilter) : f.after [] = f := rfl

theorem after_cons (f : LossFilter) (a : Arrival) (as : List Arrival) :
    f.after (a :: as) = (f.count a).1.after as := rfl

theorem toLossPattern_after (f : LossFilter) (as : List Arrival) :
    (f.after as).toLossPattern = f.toLossPattern := by
  induction as generalizing f with
  | nil => rfl
  | cons a as ih => rw [after_cons, ih, toLossPattern_count]

/-- Fewer arrivals than a signed variable counts are numbered as they come. -/
theorem rsn_after (f : LossFilter) (as : List Arrival) (lower : 0 ≤ f.rsn)
    (upper : f.rsn + as.length < 2 ^ 31) : (f.after as).rsn = f.rsn + as.length := by
  induction as generalizing f with
  | nil => simp
  | cons a as ih =>
    rw [List.length_cons] at upper
    have hnumber : (f.count a).1.rsn = f.rsn + 1 :=
      (rsn_count f a).trans (narrow_of_mem (by omega) (by omega))
    rw [after_cons, ih _ (by omega) (by omega), hnumber, List.length_cons]
    omega

/-! ## What is dropped -/

theorem count_of_due (h : f.DueNow) (a : Arrival) :
    f.count a = ({ f with rsn := f.nextNumber }, -1) := by
  obtain ⟨hperiodic, hdue⟩ := h
  unfold count
  dsimp only
  unfold nextNumber at hdue ⊢
  rw [if_pos (by simpa [hperiodic] using hdue)]

/-- What does not fall to the period passes, unless it is the next number of the list. -/
theorem count_of_not_due (h : ¬ f.DueNow) (a : Arrival) :
    f.count a = if f.specific = true ∧
        f.nextNumber = f.specificPackets.getD f.specificPosition a.stray then
      ({ f with rsn := f.nextNumber, specificPosition := f.specificPosition + 1 }, -1)
    else ({ f with rsn := f.nextNumber }, a.bytesRead) := by
  unfold DueNow at h
  unfold nextNumber at h ⊢
  unfold count
  dsimp only
  rw [if_neg (by simpa using h)]
  simp

/-- An arrival that is dropped uses a number of the list up, unless nothing of it is looked at. -/
theorem drop_cases (plain : a.Plain) (drop : (f.count a).2 = -1) :
    f.specificPosition < f.specificPackets.length ∧
      f.specificPosition < (f.count a).1.specificPosition ∨ f.Idle := by
  by_cases hdue : f.DueNow
  · exact .inr (.inl hdue)
  · rw [count_of_not_due hdue] at drop ⊢
    split_ifs at drop ⊢ with hspecific
    · by_cases hinside : f.specificPosition < f.specificPackets.length
      · exact .inl ⟨hinside, Nat.lt_succ_self _⟩
      · right
        right
        rw [hspecific.2, List.getD_eq_getElem?_getD, List.getElem?_eq_none (not_lt.mp hinside),
          Option.getD_none, plain.stray]
    · exact absurd drop plain.read

/-- What wraps does so from the end of the range to its beginning. -/
theorem nextNumber_succ {g : LossFilter} (h : g.rsn = f.nextNumber) :
    g.nextNumber = f.nextNumber + 1 ∨
      f.nextNumber = 2 ^ 31 - 1 ∧ g.nextNumber = -2 ^ 31 := by
  unfold nextNumber at h ⊢
  rw [h]
  have hfits := fitsInt_narrow (f.rsn + 1)
  have hlower := hfits.lower
  have hupper := hfits.upper
  generalize narrow (f.rsn + 1) = number at hlower hupper
  rw [narrow_eq]
  omega

/-- Two arrivals in a row of which none looks at the list are numbered zero and one. -/
theorem nextNumber_of_idle (spares : f.SparesSome) {g : LossFilter}
    (pattern : g.toLossPattern = f.toLossPattern) (next : g.rsn = f.nextNumber)
    (hf : f.Idle) (hg : g.Idle) : f.nextNumber = 0 ∧ g.nextNumber = 1 := by
  have hnext := nextNumber_succ next
  unfold Idle DueNow at hf hg
  rw [pattern] at hg
  by_cases hperiodic : f.periodic = true
  · obtain ⟨hlower, hupper⟩ := spares hperiodic
    -- the period and one is a divisor that neither one nor two has
    obtain ⟨divisor, hdivisor⟩ : ∃ divisor, divisor = narrow (f.lossPeriod + 1) := ⟨_, rfl⟩
    have hlarge : 2 < divisor.natAbs := by
      rw [hdivisor, narrow_eq]
      omega
    have hsmall : ∀ value : ℤ, value ≠ 0 → value.natAbs ≤ 2 → ¬ divisor ∣ value := by
      intro value hne hle hdvd
      have := Nat.le_of_dvd (Int.natAbs_pos.mpr hne) (Int.natAbs_dvd_natAbs.mpr hdvd)
      omega
    have hdvd : ∀ number : ℤ, (f.periodic = true ∧ (number = 1 ∨
        number.tmod (narrow (f.lossPeriod + 1)) = 0)) ∨ number = 0 →
          number = 1 ∨ divisor ∣ number := by
      rintro number ((⟨-, hone | hmod⟩) | hzero)
      · exact .inl hone
      · exact .inr (hdivisor ▸ Int.dvd_of_tmod_eq_zero hmod)
      · exact .inr (hzero ▸ dvd_zero divisor)
    rcases hnext with hsucc | ⟨hlast, hwrap⟩
    · rcases hdvd _ hf with hone | hfirst
      · rw [hsucc, hone] at hg
        rcases hdvd _ hg with htwo | hsecond
        · omega
        · exact absurd hsecond (hsmall _ (by omega) (by omega))
      · rcases hdvd _ hg with hone | hsecond
        · exact ⟨by omega, hone⟩
        · rw [hsucc] at hsecond
          have hdiff := (Int.dvd_add_right hfirst).mp hsecond
          exact absurd hdiff (hsmall 1 (by omega) (by omega))
    · have hfirst := (hdvd _ hf).resolve_left (by omega)
      have hsecond := (hdvd _ hg).resolve_left (by omega)
      rw [hlast] at hfirst
      rw [hwrap] at hsecond
      have hsum := Int.dvd_add hfirst hsecond
      exact absurd hsum (hsmall _ (by omega) (by omega))
  · have hfirst := hf.resolve_left fun h => hperiodic h.1
    have hsecond := hg.resolve_left fun h => hperiodic h.1
    omega

/-- Of three arrivals in a row one passes, or a number of the list is used up. -/
theorem undropped_three (spares : f.SparesSome) {b c : Arrival} (ha : a.Plain) (hb : b.Plain)
    (hc : c.Plain) :
    f.undropped (a :: b :: c :: as) ≠ [] ∨ f.specificPosition < f.specificPackets.length ∧
      ∃ g : LossFilter, f.undropped (a :: b :: c :: as) = g.undropped as ∧
        g.toLossPattern = f.toLossPattern ∧ f.specificPosition < g.specificPosition := by
  obtain ⟨g, hg⟩ : ∃ g, g = (f.count a).1 := ⟨_, rfl⟩
  obtain ⟨h, hh⟩ : ∃ h, h = (g.count b).1 := ⟨_, rfl⟩
  by_cases hfirst : (f.count a).2 = -1
  · rw [undropped_of_drop hfirst, ← hg]
    by_cases hsecond : (g.count b).2 = -1
    · rw [undropped_of_drop hsecond, ← hh]
      by_cases hthird : (h.count c).2 = -1
      · right
        rw [undropped_of_drop hthird]
        have hgPattern : g.toLossPattern = f.toLossPattern := hg ▸ toLossPattern_count f a
        have hhPattern : h.toLossPattern = g.toLossPattern := hh ▸ toLossPattern_count g b
        have hgList := congrArg (·.specificPackets.length) hgPattern
        have hhList := congrArg (·.specificPackets.length) hhPattern
        have hgPosition : f.specificPosition ≤ g.specificPosition := hg ▸ position_count f a
        have hhPosition : g.specificPosition ≤ h.specificPosition := hh ▸ position_count g b
        have hlast := position_count h c
        have hpattern : (h.count c).1.toLossPattern = f.toLossPattern :=
          (toLossPattern_count h c).trans (hhPattern.trans hgPattern)
        rcases drop_cases ha hfirst with ⟨hinside, hused⟩ | hfIdle
        · rw [← hg] at hused
          exact ⟨hinside, _, rfl, hpattern, by omega⟩
        rcases drop_cases hb hsecond with ⟨hinside, hused⟩ | hgIdle
        · rw [← hh] at hused
          exact ⟨by omega, _, rfl, hpattern, by omega⟩
        rcases drop_cases hc hthird with ⟨hinside, hused⟩ | hhIdle
        · exact ⟨by omega, _, rfl, hpattern, by omega⟩
        -- none of the three looked at the list, but only two numbers in a row do not
        obtain ⟨hzero, hone⟩ := nextNumber_of_idle spares hgPattern (hg ▸ rsn_count f a)
          hfIdle hgIdle
        obtain ⟨hagain, -⟩ := nextNumber_of_idle (hgPattern ▸ spares) hhPattern
          (hh ▸ rsn_count g b) hgIdle hhIdle
        omega
      · left
        rw [undropped_of_pass hthird]
        exact List.cons_ne_nil _ _
    · left
      rw [undropped_of_pass hsecond]
      exact List.cons_ne_nil _ _
  · left
    rw [undropped_of_pass hfirst]
    exact List.cons_ne_nil _ _

/-- Of three times as many arrivals as the list has numbers left, and three more, at least one
passes. -/
theorem undropped_ne_nil (spares : f.SparesSome) (plain : ∀ a ∈ as, a.Plain)
    (many : 3 * (f.specificPackets.length - f.specificPosition) + 3 ≤ as.length) :
    f.undropped as ≠ [] := by
  induction hleft : f.specificPackets.length - f.specificPosition using Nat.strongRecOn
    generalizing f as with
  | ind left ih =>
    -- the numbers left are the measure: three arrivals let one pass or use one of them up
    obtain ⟨a, b, c, rest, rfl⟩ : ∃ a b c rest, as = a :: b :: c :: rest := by
      match as, many with
      | a :: b :: c :: rest, _ => exact ⟨a, b, c, rest, rfl⟩
    have hrest : ∀ d ∈ rest, d.Plain := fun d hd => plain d (by simp [hd])
    simp only [List.length_cons] at many
    have hthree : f.undropped (a :: b :: c :: rest) ≠ [] ∨ _ :=
      undropped_three spares (plain a (by simp)) (plain b (by simp)) (plain c (by simp))
    rcases hthree with hpass | ⟨hinside, g, hsame, hpattern, hposition⟩
    · exact hpass
    · have hlist : g.specificPackets = f.specificPackets := congrArg (·.specificPackets) hpattern
      rw [hsame]
      have hlength := congrArg List.length hlist
      exact ih _ (by omega) (hpattern ▸ spares) hrest (by omega) rfl

/-! ## The numbers that a period loses -/

theorem lost_succ (positive : 0 < period) (k : ℕ) : lost period (k + 1) =
    lost period k + if k = 0 ∨ period + 1 ∣ k + 1 then 1 else 0 := by
  unfold lost
  rw [Nat.succ_div]
  cases k with
  | zero =>
    have hnot : ¬ period + 1 ∣ 0 + 1 := fun hdvd => by
      have hle := Nat.le_of_dvd one_pos hdvd
      omega
    simp [positive.ne']
  | succ k => simp [Nat.add_assoc]

theorem due_iff (periodic : f.periodic = true) (hperiod : f.lossPeriod = period)
    (upper : period < 2 ^ 31) (hrsn : f.rsn = k) (few : k + 1 < 2 ^ 31) :
    f.DueNow ↔ k = 0 ∨ period + 1 ∣ k + 1 := by
  have hnumber : f.nextNumber = (k + 1 : ℕ) := by
    rw [nextNumber, hrsn, Nat.cast_succ]
    exact narrow_of_mem (by omega) (by omega)
  have hdvd : f.nextNumber.tmod (narrow (f.lossPeriod + 1)) = 0 ↔ period + 1 ∣ k + 1 := by
    rw [hnumber, ← Int.dvd_iff_tmod_eq_zero]
    by_cases hlast : period + 1 < 2 ^ 31
    · have hdivisor : narrow (f.lossPeriod + 1) = (period + 1 : ℕ) := by
        rw [hperiod, Nat.cast_succ]
        exact narrow_of_mem (by omega) (by omega)
      rw [hdivisor]
      exact Int.natCast_dvd_natCast
    -- the largest period wraps, and as before its wrap no number reaches it
    · have hdivisor : narrow (f.lossPeriod + 1) = -((period + 1 : ℕ) : ℤ) := by
        rw [hperiod, narrow_eq]
        omega
      rw [hdivisor, Int.neg_dvd]
      exact Int.natCast_dvd_natCast
  rw [DueNow, hdvd, hnumber]
  simp [periodic]

/-- Without a list exactly what falls to the period is dropped. -/
theorem drop_iff (unlisted : f.specific = false) (read : a.bytesRead ≠ -1) :
    (f.count a).2 = -1 ↔ f.DueNow := by
  by_cases hdue : f.DueNow
  · simp [count_of_due hdue, hdue]
  · simp [count_of_not_due hdue, unlisted, read, hdue]

/-- What passes and what is lost make up what arrives. -/
theorem length_undropped (periodic : f.periodic = true) (unlisted : f.specific = false)
    (hperiod : f.lossPeriod = period) (positive : 0 < period) (upper : period < 2 ^ 31)
    (hrsn : f.rsn = k) (few : k + as.length < 2 ^ 31)
    (read : ∀ a ∈ as, a.bytesRead ≠ -1) :
    (f.undropped as).length + lost period (k + as.length) = as.length + lost period k := by
  induction as generalizing f k with
  | nil => simp [undropped]
  | cons a as ih =>
    rw [List.length_cons] at few
    have hpattern := toLossPattern_count f a
    have hnumber : (f.count a).1.rsn = (k + 1 : ℕ) := by
      rw [rsn_count, nextNumber, hrsn, Nat.cast_succ]
      exact narrow_of_mem (by omega) (by omega)
    have hrest := ih (f := (f.count a).1) (k := k + 1)
      ((congrArg (·.periodic) hpattern).trans periodic)
      ((congrArg (·.specific) hpattern).trans unlisted)
      ((congrArg (·.lossPeriod) hpattern).trans hperiod) hnumber (by omega)
      fun b hb => read b (List.mem_cons_of_mem a hb)
    have hsucc := lost_succ positive k
    have hdrop := (drop_iff unlisted (read a List.mem_cons_self)).trans
      (due_iff periodic hperiod upper hrsn (by omega))
    rw [show k + 1 + as.length = k + (as.length + 1) by omega] at hrest
    rw [List.length_cons]
    by_cases hlost : k = 0 ∨ period + 1 ∣ k + 1
    · rw [undropped_of_drop (hdrop.mpr hlost)]
      rw [if_pos hlost] at hsucc
      omega
    · rw [undropped_of_pass fun h => hlost (hdrop.mp h), List.length_cons]
      rw [if_neg hlost] at hsucc
      omega

end LossFilter

/-! ## The patterns of a file -/

variable {fuel : ℕ} {file : Option (List UInt8)} {pattern : LossPattern} {result : ℤ}

/-- What is opened can be used. -/
theorem usable_of_open (h : openLossPatern fuel file = some (.returns pattern result)) :
    Usable pattern result := by
  rw [openLossPatern_eq] at h
  obtain ⟨data, -, hparse⟩ := Option.map_eq_some_iff.mp h
  exact usable_of_returns hparse

theorem sparesSome_of_open (h : openLossPatern fuel file = some (.returns pattern result)) :
    pattern.SparesSome := by
  intro hperiodic
  rcases usable_of_open h with ⟨-, hnone, -⟩ | ⟨-, hperiod, -⟩
  · exact absurd (hnone.symm.trans hperiodic) Bool.false_ne_true
  · rw [openLossPatern_eq] at h
    obtain ⟨data, -, hparse⟩ := Option.map_eq_some_iff.mp h
    exact ⟨hperiod hperiodic, lossPeriod_lt_of_returns hparse⟩

/-- Whatever pattern is read from a file and however many packets have arrived, of the next ones
at least one passes when they are three more than three times the numbers in the file's list. -/
theorem losses_end (h : openLossPatern fuel file = some (.returns pattern result))
    (before more : List Arrival) (plain : ∀ a ∈ more, a.Plain)
    (many : 3 * pattern.specificPackets.length + 3 ≤ more.length) :
    ((ReceiverStateMachine.construct pattern).toLossFilter.after before).undropped more ≠ [] := by
  have hpattern := LossFilter.toLossPattern_after
    (ReceiverStateMachine.construct pattern).toLossFilter before
  have hlist := congrArg (·.specificPackets.length) hpattern
  have hsame : (ReceiverStateMachine.construct pattern).specificPackets.length =
      pattern.specificPackets.length := rfl
  exact LossFilter.undropped_ne_nil (hpattern ▸ sparesSome_of_open h) plain (by omega)

/-- A file that loses the first packet and then every third. -/
def everyThird : List UInt8 := [49, 32, 50, 10]

def losingThird : LossPattern := { LossPattern.none with lossPeriod := 2, periodic := true }

theorem opened_everyThird :
    openLossPatern 1 (some everyThird) = some (.returns losingThird 0) := rfl

theorem losses_end_everyThird :
    (ReceiverStateMachine.construct losingThird).toLossFilter.undropped
      (List.replicate 3 (.ofPacket .zero)) ≠ [] :=
  losses_end opened_everyThird [] _ (by simp [Arrival.ofPacket, Arrival.plain_iff]) (by decide)

/-- A file that gives a period gives one of at least two. Of as many arrivals as can be numbered
the first packet and those whose number is a multiple of the period and one are dropped, so all
but one and the quotient of so many arrivals pass. -/
theorem periodic_losses (h : openLossPatern fuel file = some (.returns pattern result))
    (periodic : pattern.periodic = true) (arrivals : List Arrival)
    (few : arrivals.length < 2 ^ 31) (read : ∀ a ∈ arrivals, a.bytesRead ≠ -1) :
    ∃ period : ℕ, pattern.lossPeriod = period ∧ 2 ≤ period ∧
      (∀ (i : ℕ) (hi : i < arrivals.length),
        (((ReceiverStateMachine.construct pattern).toLossFilter.after (arrivals.take i)).count
          arrivals[i]).2 = -1 ↔ i = 0 ∨ period + 1 ∣ i + 1) ∧
      ((ReceiverStateMachine.construct pattern).toLossFilter.undropped arrivals).length +
        LossFilter.lost period arrivals.length = arrivals.length := by
  obtain ⟨hlower, hupper⟩ := sparesSome_of_open h periodic
  have hunlisted : pattern.specific = false := by
    rcases usable_of_open h with ⟨-, -, hnone⟩ | ⟨-, -, -, hnot⟩
    · exact hnone
    · exact (Bool.not_eq_true _).mp fun hspecific => hnot ⟨periodic, hspecific⟩
  obtain ⟨period, hcast⟩ := Int.eq_ofNat_of_zero_le (by omega : 0 ≤ pattern.lossPeriod)
  have hbound : period < 2 ^ 31 := by omega
  refine ⟨period, hcast, by omega, fun i hi => ?_, ?_⟩
  · have hpattern := LossFilter.toLossPattern_after
      (ReceiverStateMachine.construct pattern).toLossFilter (arrivals.take i)
    have hlength : (arrivals.take i).length = i := by
      rw [List.length_take, Nat.min_eq_left hi.le]
    have hrsn : ((ReceiverStateMachine.construct pattern).toLossFilter.after
        (arrivals.take i)).rsn = 0 + (arrivals.take i).length :=
      LossFilter.rsn_after _ _ le_rfl (by
        change 0 + ((arrivals.take i).length : ℤ) < 2 ^ 31
        omega)
    rw [LossFilter.drop_iff ((congrArg (·.specific) hpattern).trans hunlisted)
      (read _ (List.getElem_mem hi))]
    refine LossFilter.due_iff ((congrArg (·.periodic) hpattern).trans periodic)
      ((congrArg (·.lossPeriod) hpattern).trans hcast) hbound ?_ (by omega)
    rw [hrsn, hlength, zero_add]
  · have hlength := LossFilter.length_undropped
      (f := (ReceiverStateMachine.construct pattern).toLossFilter) (k := 0) periodic hunlisted
      hcast (by omega) hbound rfl (by omega) read
    simpa [LossFilter.lost] using hlength

theorem periodic_losses_everyThird :
    ∃ period : ℕ, (2 : ℤ) = period ∧
      ((ReceiverStateMachine.construct losingThird).toLossFilter.undropped
        (List.replicate 7 (.ofPacket .zero))).length + LossFilter.lost period 7 = 7 := by
  obtain ⟨period, hperiod, -, -, hlength⟩ := periodic_losses opened_everyThird rfl
    (List.replicate 7 (.ofPacket .zero)) (by decide) (by simp [Arrival.ofPacket])
  exact ⟨period, hperiod, hlength⟩

end Comnet.MP2
