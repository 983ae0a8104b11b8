/-
# Chains of entries that lead to each other

A table may hold an entry under a key, and an entry says which key comes next. Following
the entries from a key takes each of them once: the chain stops at a key that holds no
entry, or whose entry has been taken already.

The whole chain can be followed one entry at a time, each entry leaving the table as it is
taken. So there is one whole chain from every key of a finite table, and no other.
-/

import Mathlib.Data.Finset.Card
import Mathlib.Data.List.Nodup
import Mathlib.Order.Defs.PartialOrder

set_option autoImplicit false

namespace Comnet.Foundations

variable {κ ν : Type*} {find find' : κ → Option ν} {link : κ → ν → κ} {key last last' : κ}
  {value : ν} {chain chain' : List (κ × ν)}

/-- The entries met from a key on, each under the key that the one before it leads to. -/
def Linked (find : κ → Option ν) (link : κ → ν → κ) : κ → List (κ × ν) → κ → Prop
  | key, [], last => key = last
  | key, entry :: chain, last =>
    entry.1 = key ∧ find key = some entry.2 ∧ Linked find link (link key entry.2) chain last

/-- The whole chain from a key on: every entry once, up to a key that holds none or whose
entry has been taken. -/
structure Chain (find : κ → Option ν) (link : κ → ν → κ) (key : κ) (chain : List (κ × ν))
    (last : κ) : Prop where
  linked : Linked find link key chain last
  nodup : (chain.map Prod.fst).Nodup
  ends : find last = none ∨ last ∈ chain.map Prod.fst

theorem find_of_linked (h : Linked find link key chain last) {entry : κ × ν}
    (hmem : entry ∈ chain) : find entry.1 = some entry.2 := by
  induction chain generalizing key with
  | nil => exact absurd hmem List.not_mem_nil
  | cons first chain ih =>
    obtain ⟨rfl, hfind, hrest⟩ := h
    rcases List.mem_cons.mp hmem with rfl | hlater
    · exact hfind
    · exact ih hrest hlater

/-- Only what the table holds under the keys of a chain counts. -/
theorem linked_congr (h : Linked find link key chain last)
    (same : ∀ other ∈ chain.map Prod.fst, find' other = find other) :
    Linked find' link key chain last := by
  induction chain generalizing key with
  | nil => exact h
  | cons first chain ih =>
    obtain ⟨rfl, hfind, hrest⟩ := h
    refine ⟨rfl, ?_, ih hrest fun other hother => same other (List.mem_cons_of_mem _ hother)⟩
    rw [same _ List.mem_cons_self, hfind]

/-- A chain goes up where every entry leads up. -/
theorem le_of_linked [Preorder κ] (up : ∀ key value, key ≤ link key value)
    (h : Linked find link key chain last) : key ≤ last := by
  induction chain generalizing key with
  | nil => exact le_of_eq h
  | cons first chain ih => exact (up key first.2).trans (ih h.2.2)

theorem chain_of_none (h : find key = none) :
    Chain find link key chain last ↔ chain = [] ∧ key = last := by
  constructor
  · intro hchain
    cases chain with
    | nil => exact ⟨rfl, hchain.linked⟩
    | cons first chain =>
      have hfind := hchain.linked.2.1
      simp [h] at hfind
  · rintro ⟨rfl, rfl⟩
    exact ⟨rfl, List.nodup_nil, Or.inl h⟩

section Update

variable [DecidableEq κ]

/-- A chain through a table without a key does not meet that key. -/
theorem not_mem_of_linked_update {start : κ}
    (h : Linked (Function.update find key none) link start chain last) :
    key ∉ chain.map Prod.fst := by
  intro hmem
  obtain ⟨entry, hentry, rfl⟩ := List.mem_map.mp hmem
  have hfind := find_of_linked h hentry
  simp at hfind

/-- The chain from a key that holds an entry takes that entry and goes on in the table without
it. -/
theorem chain_of_some (h : find key = some value) :
    Chain find link key chain last ↔ ∃ rest, chain = (key, value) :: rest ∧
      Chain (Function.update find key none) link (link key value) rest last := by
  constructor
  · intro hchain
    cases chain with
    | nil =>
      obtain rfl : key = last := hchain.linked
      simpa [h] using hchain.ends
    | cons first rest =>
      obtain ⟨hkey, hfind, hrest⟩ := hchain.linked
      obtain rfl : first = (key, value) := Prod.ext hkey (Option.some.inj (hfind.symm.trans h))
      obtain ⟨hnew, hnodup⟩ := List.nodup_cons.mp hchain.nodup
      refine ⟨rest, rfl, linked_congr hrest fun other hother => ?_, hnodup, ?_⟩
      · exact Function.update_of_ne (ne_of_mem_of_not_mem hother hnew) _ _
      · rcases hchain.ends with hnone | hmem
        · left
          rw [Function.update_apply, hnone, ite_self]
        · rcases List.mem_cons.mp hmem with hfirst | hlater
          · left
            rw [hfirst]
            exact Function.update_self ..
          · exact Or.inr hlater
  · rintro ⟨rest, rfl, hrest⟩
    have hnew := not_mem_of_linked_update hrest.linked
    refine ⟨⟨rfl, h, linked_congr hrest.linked fun other hother => ?_⟩,
      List.nodup_cons.mpr ⟨hnew, hrest.nodup⟩, ?_⟩
    · exact (Function.update_of_ne (ne_of_mem_of_not_mem hother hnew) _ _).symm
    · rcases hrest.ends with hnone | hmem
      · by_cases hlast : last = key
        · right
          rw [hlast]
          exact List.mem_cons_self
        · left
          rwa [Function.update_of_ne hlast] at hnone
      · exact Or.inr (List.mem_cons_of_mem _ hmem)

/-- There is a whole chain from every key of a finite table. -/
theorem exists_chain (keys : Finset κ) (finite : ∀ key, find key ≠ none → key ∈ keys) (key : κ) :
    ∃ chain last, Chain find link key chain last := by
  -- the keys that may hold an entry get fewer with each entry taken
  induction hcard : keys.card generalizing keys find key with
  | zero =>
    have hnone : find key = none := by
      by_contra hsome
      rw [Finset.card_eq_zero.mp hcard] at finite
      exact absurd (finite key hsome) (Finset.notMem_empty key)
    exact ⟨[], key, (chain_of_none hnone).mpr ⟨rfl, rfl⟩⟩
  | succ card ih =>
    cases hfind : find key with
    | none => exact ⟨[], key, (chain_of_none hfind).mpr ⟨rfl, rfl⟩⟩
    | some value =>
      have hmem : key ∈ keys := finite key (by simp [hfind])
      have hfinite : ∀ other, Function.update find key none other ≠ none →
          other ∈ keys.erase key := by
        intro other hother
        have hne : other ≠ key := fun h => hother (h ▸ Function.update_self ..)
        rw [Function.update_of_ne hne] at hother
        exact Finset.mem_erase.mpr ⟨hne, finite other hother⟩
      obtain ⟨rest, last, hrest⟩ := ih (keys.erase key) hfinite (link key value)
        (by rw [Finset.card_erase_of_mem hmem, hcard, Nat.add_sub_cancel])
      exact ⟨(key, value) :: rest, last, (chain_of_some hfind).mpr ⟨rest, rfl, hrest⟩⟩

/-- There is no other whole chain from the same key. -/
theorem Chain.unique (h : Chain find link key chain last)
    (h' : Chain find link key chain' last') : chain' = chain ∧ last' = last := by
  induction chain generalizing find key chain' with
  | nil =>
    obtain rfl : key = last := h.linked
    have hnone : find key = none := by simpa using h.ends
    obtain ⟨rfl, rfl⟩ := (chain_of_none hnone).mp h'
    exact ⟨rfl, rfl⟩
  | cons first chain ih =>
    have hfind := h.linked.2.1
    obtain ⟨rest, hcons, hrest⟩ := (chain_of_some hfind).mp h
    obtain ⟨rest', rfl, hrest'⟩ := (chain_of_some hfind).mp h'
    obtain ⟨hfirst, rfl⟩ := List.cons_eq_cons.mp hcons
    obtain ⟨rfl, rfl⟩ := ih hrest hrest'
    exact ⟨by rw [← hfirst], rfl⟩

end Update

end Comnet.Foundations
