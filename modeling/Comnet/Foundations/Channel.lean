/-
# Unreliable channels

A channel holds the messages in flight. The network may lose one, make a second
copy of one, or deliver any of them, so messages overtake each other and stay in
flight for as long as the network likes. It never makes a message up.
-/

import Mathlib.Data.List.InsertIdx

set_option autoImplicit false

namespace Comnet.Foundations

/-- What the network does to a channel on its own. -/
inductive Fault where
  | lose (index : ℕ)
  | duplicate (index : ℕ)
  deriving DecidableEq, Repr

variable {α : Type*} {channel rest : List α} {message other : α} {index : ℕ} {fault : Fault}

/-- The channel after a fault; a fault at an index that is not in flight is no fault. -/
def Fault.apply (fault : Fault) (channel : List α) : List α :=
  match fault with
  | .lose index => channel.eraseIdx index
  | .duplicate index => channel ++ channel[index]?.toList

/-- Take a message out of the channel. -/
def deliver (index : ℕ) (channel : List α) : Option (α × List α) :=
  channel[index]?.map fun message => (message, channel.eraseIdx index)

/-- A fault puts no new message in flight. -/
theorem mem_of_mem_apply (h : message ∈ fault.apply channel) : message ∈ channel := by
  cases fault with
  | lose index => exact List.mem_of_mem_eraseIdx h
  | duplicate index =>
    rcases List.mem_append.mp h with h | h
    · exact h
    · exact List.mem_of_getElem? (Option.mem_toList.mp h)

theorem mem_apply_duplicate (h : message ∈ channel) :
    message ∈ (Fault.duplicate index).apply channel :=
  List.mem_append_left _ h

theorem mem_of_deliver (h : deliver index channel = some (message, rest)) : message ∈ channel := by
  simp only [deliver, Option.map_eq_some_iff, Prod.mk.injEq] at h
  obtain ⟨_, hget, rfl, -⟩ := h
  exact List.mem_of_getElem? hget

theorem mem_rest_of_deliver (h : deliver index channel = some (message, rest))
    (member : other ∈ rest) : other ∈ channel := by
  simp only [deliver, Option.map_eq_some_iff, Prod.mk.injEq] at h
  obtain ⟨_, -, -, rfl⟩ := h
  exact List.mem_of_mem_eraseIdx member

/-- Delivery removes nothing but the delivered message. -/
theorem eq_or_mem_of_deliver (h : deliver index channel = some (message, rest))
    (member : other ∈ channel) : other = message ∨ other ∈ rest := by
  simp only [deliver, Option.map_eq_some_iff, Prod.mk.injEq] at h
  obtain ⟨_, hget, rfl, rfl⟩ := h
  obtain ⟨j, hj⟩ := List.getElem?_of_mem member
  by_cases hsame : j = index
  · subst hsame
    exact Or.inl (Option.some.inj (hj.symm.trans hget))
  · exact Or.inr (List.mem_eraseIdx_iff_getElem?.mpr ⟨j, hsame, hj⟩)

/-- A network that only carries messages does the same whatever they are written as. -/
theorem apply_map {β : Type*} (f : α → β) :
    fault.apply (channel.map f) = (fault.apply channel).map f := by
  cases fault with
  | lose index => exact List.eraseIdx_map f channel index
  | duplicate index =>
    simp only [Fault.apply, List.getElem?_map, List.map_append, Option.toList_map]

theorem deliver_map {β : Type*} (f : α → β) :
    deliver index (channel.map f) =
      (deliver index channel).map fun delivered => (f delivered.1, delivered.2.map f) := by
  simp only [deliver, List.getElem?_map, Option.map_map, List.eraseIdx_map]
  rfl

/-- The message sent last can be delivered next. -/
theorem deliver_last (channel : List α) (message : α) :
    deliver channel.length (channel ++ [message]) = some (message, channel) := by
  simp [deliver, List.eraseIdx_append_of_length_le]

/-- A message in flight can be delivered. -/
theorem exists_deliver (h : message ∈ channel) :
    ∃ index rest, deliver index channel = some (message, rest) := by
  obtain ⟨index, hindex⟩ := List.getElem?_of_mem h
  exact ⟨index, channel.eraseIdx index, by rw [deliver, hindex, Option.map_some]⟩

end Comnet.Foundations
