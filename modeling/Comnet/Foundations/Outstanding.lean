/-
# Items handed out and not yet taken back

A party hands out items and takes back everything below a bound that only grows.
What counts is how many distinct items lie at or above the bound, however often
each was handed out.
-/

import Mathlib.Data.Finset.Card
import Mathlib.Data.Finset.Filter
import Mathlib.Order.Defs.LinearOrder

set_option autoImplicit false

namespace Comnet.Foundations

variable {α : Type*} [LinearOrder α]

/-- The distinct items at or above a bound. -/
def atLeast (bound : α) (items : List α) : Finset α := items.toFinset.filter (bound ≤ ·)

/-- The items at or above a bound that a higher bound takes back. -/
def between (bound later : α) (items : List α) : Finset α :=
  (atLeast bound items).filter (· < later)

variable {bound later item : α} {items : List α}

@[simp] theorem mem_atLeast : item ∈ atLeast bound items ↔ item ∈ items ∧ bound ≤ item := by
  simp [atLeast]

@[simp] theorem atLeast_nil : atLeast bound ([] : List α) = ∅ := rfl

theorem atLeast_cons_of_le (h : bound ≤ item) :
    atLeast bound (item :: items) = insert item (atLeast bound items) := by
  rw [atLeast, List.toFinset_cons, Finset.filter_insert, if_pos h, atLeast]

theorem atLeast_cons_of_lt (h : item < bound) :
    atLeast bound (item :: items) = atLeast bound items := by
  rw [atLeast, List.toFinset_cons, Finset.filter_insert, if_neg (not_le.mpr h), atLeast]

/-- Handing out an item makes one more outstanding exactly when it is not below the
bound and was not handed out before. -/
theorem card_atLeast_cons : (atLeast bound (item :: items)).card =
    (atLeast bound items).card + if bound ≤ item ∧ item ∉ items then 1 else 0 := by
  by_cases hle : bound ≤ item
  · rw [atLeast_cons_of_le hle]
    by_cases hold : item ∈ items
    · have hmem : item ∈ atLeast bound items := mem_atLeast.mpr ⟨hold, hle⟩
      simp [hold, Finset.insert_eq_of_mem hmem]
    · have hnew : item ∉ atLeast bound items := fun h => hold (mem_atLeast.mp h).1
      simp [hold, hle, Finset.card_insert_of_notMem hnew]
  · rw [atLeast_cons_of_lt (not_le.mp hle)]
    simp [hle]

theorem nonempty_atLeast_cons : (atLeast bound (item :: items)).Nonempty ↔
    bound ≤ item ∨ (atLeast bound items).Nonempty := by
  constructor
  · intro ⟨other, hother⟩
    obtain ⟨hmem, hle⟩ := mem_atLeast.mp hother
    rcases List.mem_cons.mp hmem with rfl | hmem
    · exact Or.inl hle
    · exact Or.inr ⟨other, mem_atLeast.mpr ⟨hmem, hle⟩⟩
  · intro h
    rcases h with hle | ⟨other, hother⟩
    · exact ⟨item, mem_atLeast.mpr ⟨List.mem_cons_self, hle⟩⟩
    · obtain ⟨hmem, hle⟩ := mem_atLeast.mp hother
      exact ⟨other, mem_atLeast.mpr ⟨List.mem_cons_of_mem _ hmem, hle⟩⟩

/-- Raising the bound takes back what lies between the two bounds. -/
theorem card_atLeast_add_card_between (h : bound ≤ later) :
    (atLeast later items).card + (between bound later items).card = (atLeast bound items).card := by
  have hkept : atLeast later items = (atLeast bound items).filter (¬ · < later) := by
    ext item
    simp only [mem_atLeast, Finset.mem_filter, not_lt]
    constructor
    · intro ⟨hmem, hle⟩
      exact ⟨⟨hmem, h.trans hle⟩, hle⟩
    · intro ⟨⟨hmem, _⟩, hle⟩
      exact ⟨hmem, hle⟩
  rw [hkept, between, Nat.add_comm]
  exact Finset.card_filter_add_card_filter_not _

end Comnet.Foundations
