/-
# Runs of a labelled transition function

A transition function takes a state and a label to the next state, or to `none`
where the label is not enabled. A run is a list of labels taken in order.

Invariants are proved once for a step and carried along runs here. When an
invariant can be broken, the step condition that keeps it is a predicate on a
state and a label, and a run keeps the invariant in every state it visits
exactly when each of its steps meets that condition.
-/

import Mathlib.Data.List.Basic

set_option autoImplicit false

namespace Comnet.Foundations

variable {σ α : Type*} {step : σ → α → Option σ} {P Q : σ → Prop} {C M : σ → α → Prop}
  {s t : σ} {a : α} {as bs : List α}

/-- The state after a list of labels, or `none` if one of them is not enabled. -/
def run (step : σ → α → Option σ) : σ → List α → Option σ
  | s, [] => some s
  | s, a :: as =>
    match step s a with
    | some next => run step next as
    | none => none

/-- Every state visited along the labels satisfies `P`, the first one included. -/
def AllStates (step : σ → α → Option σ) (P : σ → Prop) : σ → List α → Prop
  | s, [] => P s
  | s, a :: as => P s ∧ ∀ next, step s a = some next → AllStates step P next as

/-- Every step taken along the labels satisfies `C` in the state it starts from. -/
def AllSteps (step : σ → α → Option σ) (C : σ → α → Prop) : σ → List α → Prop
  | _, [] => True
  | s, a :: as => ∀ next, step s a = some next → C s a ∧ AllSteps step C next as

@[simp] theorem run_nil : run step s [] = some s := rfl

theorem run_cons_of_step {next : σ} (h : step s a = some next) :
    run step s (a :: as) = run step next as := by
  simp only [run, h]

theorem run_cons_eq_some :
    run step s (a :: as) = some t ↔ ∃ next, step s a = some next ∧ run step next as = some t := by
  constructor
  · intro h
    cases hstep : step s a with
    | none => simp [run, hstep] at h
    | some next => exact ⟨next, rfl, by rwa [run_cons_of_step hstep] at h⟩
  · rintro ⟨next, hstep, hrun⟩
    rw [run_cons_of_step hstep, hrun]

theorem run_append (h : run step s as = some t) : run step s (as ++ bs) = run step t bs := by
  induction as generalizing s with
  | nil =>
    obtain rfl : s = t := by simpa using h
    rfl
  | cons a as ih =>
    obtain ⟨next, hstep, hrun⟩ := run_cons_eq_some.mp h
    rw [List.cons_append, run_cons_of_step hstep, ih hrun]

/-- **Simulation.** A map of the states under which both take the same steps is one under which
they have the same runs. -/
theorem run_map {τ : Type*} {step' : τ → α → Option τ} (f : σ → τ)
    (h : ∀ s a, step' (f s) a = (step s a).map f) (s : σ) (as : List α) :
    run step' (f s) as = (run step s as).map f := by
  induction as generalizing s with
  | nil => rfl
  | cons a as ih =>
    rw [run, run, h]
    cases step s a with
    | none => rfl
    | some next => exact ih next

/-- A condition that holds of every step holds of every run. -/
theorem AllSteps.of_forall (h : ∀ s a, C s a) : AllSteps step C s as := by
  induction as generalizing s with
  | nil => trivial
  | cons a as ih => exact fun next _ => ⟨h s a, ih⟩

/-- A condition that holds of every label holds of every step of the run. -/
theorem AllSteps.of_labels {L : α → Prop} (h : ∀ a ∈ as, L a) :
    AllSteps step (fun _ a => L a) s as := by
  induction as generalizing s with
  | nil => trivial
  | cons a as ih =>
    intro next _
    exact ⟨h a List.mem_cons_self, ih fun b hb => h b (List.mem_cons_of_mem _ hb)⟩

theorem AllSteps.mono {D : σ → α → Prop} (h : AllSteps step C s as)
    (himp : ∀ s a, C s a → D s a) : AllSteps step D s as := by
  induction as generalizing s with
  | nil => trivial
  | cons a as ih =>
    intro next hstep
    exact ⟨himp _ _ (h next hstep).1, ih (h next hstep).2⟩

theorem AllSteps.and {D : σ → α → Prop} (h : AllSteps step C s as) (h' : AllSteps step D s as) :
    AllSteps step (fun s a => C s a ∧ D s a) s as := by
  induction as generalizing s with
  | nil => trivial
  | cons a as ih =>
    intro next hstep
    exact ⟨⟨(h next hstep).1, (h' next hstep).1⟩, ih (h next hstep).2 (h' next hstep).2⟩

theorem AllStates.head (h : AllStates step P s as) : P s := by
  cases as with
  | nil => exact h
  | cons a as => exact h.1

theorem AllStates.mono (h : AllStates step P s as) (himp : ∀ s, P s → Q s) :
    AllStates step Q s as := by
  induction as generalizing s with
  | nil => exact himp s h
  | cons a as ih => exact ⟨himp s h.1, fun next hstep => ih (h.2 next hstep)⟩

theorem AllStates.append (h : AllStates step P s (as ++ bs)) (hrun : run step s as = some t) :
    AllStates step P s as ∧ AllStates step P t bs := by
  induction as generalizing s with
  | nil =>
    obtain rfl : s = t := by simpa using hrun
    have hhead : P s := h.head
    exact ⟨hhead, h⟩
  | cons a as ih =>
    obtain ⟨next, hstep, hrest⟩ := run_cons_eq_some.mp hrun
    refine ⟨⟨h.1, fun other hother => ?_⟩, (ih (h.2 next hstep) hrest).2⟩
    obtain rfl : next = other := Option.some.inj (hstep.symm.trans hother)
    exact (ih (h.2 next hstep) hrest).1

/-- The last state of a run is one of the states it visits. -/
theorem AllStates.last (h : AllStates step P s as) (hrun : run step s as = some t) : P t := by
  induction as generalizing s with
  | nil =>
    obtain rfl : s = t := by simpa using hrun
    exact h
  | cons a as ih =>
    obtain ⟨next, hstep, hrest⟩ := run_cons_eq_some.mp hrun
    exact ih (h.2 next hstep) hrest

/-- A run that ends in a bad state does not visit good states only. What is bad about
the state is told by something that can be computed from it. -/
theorem not_allStates_of_run {β : Type*} {m : σ → β} {b : β}
    (hend : (run step s as).map m = some b) (bad : ∀ t, m t = b → ¬ P t) :
    ¬ AllStates step P s as := by
  intro h
  obtain ⟨t, hrun, hlast⟩ := Option.map_eq_some_iff.mp hend
  exact bad t hlast (h.last hrun)

/-- An invariant kept by the steps that meet a condition holds in every state of a run whose steps
all meet it. -/
theorem allStates_of_allSteps (init : P s)
    (keep : ∀ s a next, P s → C s a → step s a = some next → P next)
    (h : AllSteps step C s as) : AllStates step P s as := by
  induction as generalizing s with
  | nil => exact init
  | cons a as ih =>
    refine ⟨init, fun next hstep => ?_⟩
    obtain ⟨hcond, hrest⟩ := h next hstep
    have hnext : P next := keep s a next init hcond hstep
    exact ih hnext hrest

/-- What every step keeps holds at the end of every run. -/
theorem invariant_run (init : P s)
    (keep : ∀ s a next, P s → step s a = some next → P next)
    (hrun : run step s as = some t) : P t :=
  (allStates_of_allSteps (C := fun _ _ => True) init
    (fun s a next hs _ hstep => keep s a next hs hstep)
    (AllSteps.of_forall fun _ _ => trivial)).last hrun

/-- **Exact step condition.** If a step out of a good state leads to a good state
exactly when it meets the condition, then a run visits good states only exactly
when all its steps meet it. `Q` is an invariant that holds in any case, `M` what
the run is assumed to meet at every step. -/
theorem allStates_iff_allSteps (init : P s) (base : Q s)
    (keep : ∀ s a next, Q s → step s a = some next → Q next)
    (exact_step : ∀ s a next, Q s → M s a → P s → step s a = some next → (P next ↔ C s a))
    (assumed : AllSteps step M s as) :
    AllStates step P s as ↔ AllSteps step C s as := by
  induction as generalizing s with
  | nil => exact ⟨fun _ => trivial, fun _ => init⟩
  | cons a as ih =>
    constructor
    · intro h next hstep
      obtain ⟨hassumed, hrest⟩ := assumed next hstep
      -- the next state is visited too, so this step went to a good state
      have hnext : P next := (h.2 next hstep).head
      exact ⟨(exact_step s a next base hassumed init hstep).mp hnext,
        (ih hnext (keep s a next base hstep) hrest).mp (h.2 next hstep)⟩
    · intro h
      refine ⟨init, fun next hstep => ?_⟩
      obtain ⟨hassumed, hassumedRest⟩ := assumed next hstep
      obtain ⟨hcond, hrest⟩ := h next hstep
      have hnext : P next := (exact_step s a next base hassumed init hstep).mpr hcond
      exact (ih hnext (keep s a next base hstep) hassumedRest).mpr hrest

/-- Two conditions that say the same of a step out of a good state say the same of a run, as long as
the steps that meet them lead to good states. -/
theorem allSteps_iff_allSteps {A D : σ → α → Prop} (init : P s)
    (exact_step : ∀ s a next, P s → A s a → step s a = some next → (C s a ↔ D s a))
    (keep : ∀ s a next, P s → A s a → D s a → step s a = some next → P next)
    (assumed : AllSteps step A s as) : AllSteps step C s as ↔ AllSteps step D s as := by
  induction as generalizing s with
  | nil => rfl
  | cons a as ih =>
    refine forall_congr' fun next => forall_congr' fun hstep => ?_
    obtain ⟨hassumed, hrest⟩ := assumed next hstep
    have hhead := exact_step s a next init hassumed hstep
    constructor
    · rintro ⟨hcond, hsteps⟩
      have hnext : P next := keep s a next init hassumed (hhead.mp hcond) hstep
      exact ⟨hhead.mp hcond, (ih hnext hrest).mp hsteps⟩
    · rintro ⟨hcond, hsteps⟩
      have hnext : P next := keep s a next init hassumed hcond hstep
      exact ⟨hhead.mpr hcond, (ih hnext hrest).mpr hsteps⟩

/-! ## Counting since the last reset -/

section Counting

variable {kind reset : σ → α → Bool}

/-- How many steps along the labels are of one kind since the last one of another, counting
on from a number. -/
def countSince (step : σ → α → Option σ) (kind reset : σ → α → Bool) : ℕ → σ → List α → ℕ
  | count, _, [] => count
  | count, s, a :: as =>
    match step s a with
    | some next =>
      countSince step kind reset
        (if reset s a then 0 else if kind s a then count + 1 else count) next as
    | none => count

/-- What a step counts goes on from a number: a reset starts again, a step of the kind adds one. -/
def counted (kind reset : σ → α → Bool) (s : σ) (a : α) (count : ℕ) : ℕ :=
  if reset s a then 0 else if kind s a then count + 1 else count

/-- A number and a state that belong together, and that every step takes on together, belong
together at the end of a run: the number has been counted on along it. -/
theorem countSince_rel {I : ℕ → σ → Prop} {count : ℕ} (init : I count s)
    (keep : ∀ count s a next, I count s → step s a = some next →
      I (counted kind reset s a count) next)
    (hrun : run step s as = some t) : I (countSince step kind reset count s as) t := by
  induction as generalizing count s with
  | nil =>
    obtain rfl : s = t := by simpa using hrun
    exact init
  | cons a as ih =>
    obtain ⟨next, hstep, hrest⟩ := run_cons_eq_some.mp hrun
    have hnext := ih (keep count s a next init hstep) hrest
    simpa only [countSince, hstep, counted] using hnext

end Counting

/-! ## What a run emits -/

section Emitted

variable {β τ : Type*} {out : σ → α → Option β} {next' : τ → β → τ} {R : σ → τ → Prop} {w : τ}

/-- What the steps along the labels emit, in their order. -/
def emitted (step : σ → α → Option σ) (out : σ → α → Option β) : σ → List α → List β
  | _, [] => []
  | s, a :: as =>
    match step s a with
    | some next => (out s a).toList ++ emitted step out next as
    | none => []

/-- **Refinement.** When a step that emits takes the abstract state on by what it emits, and one
that does not leaves it, a run takes it on by everything emitted along it. The steps need to do so
in the states that the run visits only. -/
theorem refines_run (init : R s w) (visited : AllStates step P s as)
    (refines : ∀ s a next w, P s → R s w → step s a = some next →
      R next ((out s a).toList.foldl next' w))
    (hrun : run step s as = some t) : R t ((emitted step out s as).foldl next' w) := by
  induction as generalizing s w with
  | nil =>
    obtain rfl : s = t := by simpa using hrun
    exact init
  | cons a as ih =>
    obtain ⟨next, hstep, hrest⟩ := run_cons_eq_some.mp hrun
    have hnext := ih (refines s a next w visited.head init hstep) (visited.2 next hstep) hrest
    simpa only [emitted, hstep, List.foldl_append] using hnext

end Emitted

/-! ## Deciding conditions on a run -/

/-- Whether all steps of a run meet a decidable condition is decided by taking them. -/
instance decidableAllSteps [∀ s a, Decidable (C s a)] :
    ∀ (s : σ) (as : List α), Decidable (AllSteps step C s as)
  | _, [] => isTrue trivial
  | s, a :: as =>
    match hstep : step s a with
    -- a label that is not enabled ends the run, and nothing is asked of it
    | none => isTrue fun _ h => nomatch hstep.symm.trans h
    | some next =>
      haveI : Decidable (AllSteps step C next as) := decidableAllSteps next as
      decidable_of_iff (C s a ∧ AllSteps step C next as)
        ⟨fun h _ hother => Option.some.inj (hstep.symm.trans hother) ▸ h,
          fun h => h next hstep⟩

end Comnet.Foundations
