/-
# Channels that keep the order

In a channel from which the message sent first is delivered first, what is in flight can be
told by numbers: the messages are numbered one after the other from the next one to be
delivered.
-/

import Comnet.Foundations.Channel

set_option autoImplicit false

namespace Comnet.Foundations

variable {α : Type*} {P : ℕ → α → Prop} {i : ℕ} {message : α} {channel rest : List α}

/-- The messages are what their numbers say, counted from a first number on. -/
def Numbered (P : ℕ → α → Prop) : ℕ → List α → Prop
  | _, [] => True
  | i, message :: channel => P i message ∧ Numbered P (i + 1) channel

@[simp] theorem numbered_nil : Numbered P i [] := trivial

@[simp] theorem numbered_cons :
    Numbered P i (message :: channel) ↔ P i message ∧ Numbered P (i + 1) channel := Iff.rfl

/-- A message that is sent takes the next number. -/
theorem numbered_concat : Numbered P i (channel ++ [message]) ↔
    Numbered P i channel ∧ P (i + channel.length) message := by
  induction channel generalizing i with
  | nil => simp
  | cons first channel ih =>
    rw [List.cons_append, numbered_cons, ih, numbered_cons, List.length_cons, and_assoc,
      show i + 1 + channel.length = i + (channel.length + 1) by omega]

/-- The message that is delivered first has the first number. -/
theorem Numbered.of_deliver (h : Numbered P i channel)
    (hdeliver : deliver 0 channel = some (message, rest)) :
    P i message ∧ Numbered P (i + 1) rest ∧ channel.length = rest.length + 1 := by
  cases channel with
  | nil => simp [deliver] at hdeliver
  | cons first channel =>
    obtain ⟨rfl, rfl⟩ : first = message ∧ channel = rest := by simpa [deliver] using hdeliver
    exact ⟨h.1, h.2, List.length_cons⟩

theorem deliver_first_of_ne_nil (h : channel ≠ []) :
    ∃ message rest, deliver 0 channel = some (message, rest) := by
  obtain ⟨first, channel, rfl⟩ := List.exists_cons_of_ne_nil h
  exact ⟨first, channel, rfl⟩

end Comnet.Foundations
