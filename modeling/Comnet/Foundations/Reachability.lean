/-
# What a system can still reach

A goal is reachable from a state when some run from it ends in the goal. A goal is put
together from others along a run, and a measure that can be lowered from every state of
an invariant leads to it. What every step keeps rules a goal out.
-/

import Comnet.Foundations.Transition

set_option autoImplicit false

namespace Comnet.Foundations

variable {σ α : Type*} {step : σ → α → Option σ} {P Q : σ → Prop} {s t next : σ} {a : α}
  {as : List α}

/-- Some run from the state ends in a state of the goal. -/
def Reaches (step : σ → α → Option σ) (P : σ → Prop) (s : σ) : Prop :=
  ∃ as t, run step s as = some t ∧ P t

namespace Reaches

theorem refl (h : P s) : Reaches step P s := ⟨[], s, rfl, h⟩

/-- The goal is still to be reached after a step. -/
theorem of_step (hstep : step s a = some next) (h : Reaches step P next) : Reaches step P s := by
  obtain ⟨as, t, hrun, hgoal⟩ := h
  exact ⟨a :: as, t, by rw [run_cons_of_step hstep, hrun], hgoal⟩

/-- One goal is reached from another. -/
theorem bind (h : Reaches step P s) (hgoal : ∀ t, P t → Reaches step Q t) : Reaches step Q s := by
  obtain ⟨as, t, hrun, ht⟩ := h
  obtain ⟨bs, u, hrest, hu⟩ := hgoal t ht
  exact ⟨as ++ bs, u, by rw [run_append hrun, hrest], hu⟩

theorem mono (h : Reaches step P s) (himp : ∀ t, P t → Q t) : Reaches step Q s := by
  obtain ⟨as, t, hrun, ht⟩ := h
  exact ⟨as, t, hrun, himp t ht⟩

/-- **Variant rule.** If every state of an invariant can reach the goal or a state of the
invariant with a smaller measure, then every state of it can reach the goal. -/
theorem of_variant {I : σ → Prop} (m : σ → ℕ)
    (decrease : ∀ s, I s → Reaches step (fun t => P t ∨ I t ∧ m t < m s) s) (h : I s) :
    Reaches step P s := by
  induction hm : m s using Nat.strongRecOn generalizing s with
  | ind n ih =>
    refine (decrease s h).bind fun t ht => ?_
    rcases ht with hgoal | ⟨hinv, hless⟩
    · exact refl hgoal
    · exact ih (m t) (hm ▸ hless) hinv rfl

end Reaches

/-- What every step keeps cannot be left. -/
theorem not_reaches_of_invariant (init : Q s)
    (keep : ∀ s a next, Q s → step s a = some next → Q next) (excluded : ∀ t, Q t → ¬ P t) :
    ¬ Reaches step P s := by
  rintro ⟨as, t, hrun, hgoal⟩
  exact excluded t (invariant_run init keep hrun) hgoal

end Comnet.Foundations
