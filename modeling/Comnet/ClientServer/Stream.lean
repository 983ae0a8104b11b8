/-
# A stream received whole or not at all

Receiving a stream is to end with all of its bytes or with an error. A short stream takes one
call, which waits for all bytes; a long one takes as many calls as it needs. The one call
delivers less when the peer closes or a signal interrupts it, and then its result is neither of
the two. The calls of a long stream go on for ever once the peer has closed.
-/

import Comnet.ClientServer.Network

set_option autoImplicit false

namespace Comnet.ClientServer

open Foundations

namespace Incoming

/-- Receive `size` bytes where a signal may interrupt the call that waits for all of them: it
then delivers as many as any call. -/
def recvStreamSignalled (interrupted : Bool) (fuel : ℕ) (c : Incoming) (size : ℕ) :
    Option (Incoming × List UInt8 × ℤ) :=
  if size < blockSize ∧ interrupted then
    match c.recv size with
    | (none, c) => some (c, [], -1)
    | (some got, c) => some (c, got, got.length)
  else c.recvStream fuel size

/-- Receiving ends with nothing written beyond `size` bytes, and either with the first `size`
bytes that were to come or with an error. -/
def Honours (interrupted : Bool) (c : Incoming) (size : ℕ) : Prop :=
  ∃ fuel c' got result, c.recvStreamSignalled interrupted fuel size = some (c', got, result) ∧
    got.length ≤ size ∧
    (result = size ∧ size ≤ c.pending.length ∧ got = c.pending.take size ∨ result = -1)

/-- A short stream comes in one call or not at all; a long one comes, or a call fails. -/
def Sufficient (interrupted : Bool) (c : Incoming) (size : ℕ) : Prop :=
  if size < blockSize then
    c.outcomes c.calls = none ∨ (size ≤ c.pending.length ∧
      (interrupted = true → ∀ count, c.outcomes c.calls = some count → size ≤ max 1 count))
  else size ≤ c.pending.length ∨ ∃ call, c.calls ≤ call ∧ c.outcomes call = none

variable {c c' : Incoming} {got : List UInt8} {size fuel : ℕ} {interrupted : Bool} {result : ℤ}

@[simp] theorem recvStreamSignalled_false :
    c.recvStreamSignalled false fuel size = c.recvStream fuel size := by
  simp [recvStreamSignalled]

theorem recvStreamSignalled_of_le (hsize : blockSize ≤ size) :
    c.recvStreamSignalled interrupted fuel size = c.recvStream fuel size :=
  if_neg fun h => Nat.not_lt.mpr hsize h.1

/-! ## One call -/

/-- The one call of a short stream delivers a front of what is to come, unless it fails. -/
theorem recvStreamSignalled_of_lt (hsize : size < blockSize) {count : ℕ}
    (hcount : c.outcomes c.calls = some count) (fuel : ℕ) :
    ∃ c', c.recvStreamSignalled interrupted fuel size = some (c',
      c.pending.take (if interrupted then min size (max 1 count) else size),
      ((c.pending.take (if interrupted then min size (max 1 count) else size)).length : ℤ)) := by
  cases interrupted with
  | false =>
    refine ⟨{ c with pending := c.pending.drop size, calls := c.calls + 1 }, ?_⟩
    simp [recvStream, hsize, recvAll, hcount]
  | true =>
    refine ⟨{ c with
      pending := c.pending.drop (min size (max 1 count))
      calls := c.calls + 1 }, ?_⟩
    simp [recvStreamSignalled, hsize, recv, hcount]

theorem honours_of_failed (hsize : size < blockSize) (hfailed : c.outcomes c.calls = none) :
    Honours interrupted c size := by
  refine ⟨0, { c with calls := c.calls + 1 }, [], -1, ?_, Nat.zero_le _, .inr rfl⟩
  cases interrupted with
  | false => simp [recvStream, hsize, recvAll, hfailed]
  | true => simp [recvStreamSignalled, hsize, recv, hfailed]

/-- A call that delivers less than it was to has a result that is neither the size nor that of
an error. -/
theorem honours_of_delivered (hsize : size < blockSize) {count : ℕ}
    (hcount : c.outcomes c.calls = some count) : Honours interrupted c size ↔
      size ≤ c.pending.length ∧ (interrupted = true → size ≤ max 1 count) := by
  have hlength : (c.pending.take (if interrupted then min size (max 1 count) else size)).length =
      size ↔ size ≤ c.pending.length ∧ (interrupted = true → size ≤ max 1 count) := by
    rw [List.length_take]
    cases interrupted with
    | false => simp
    | true =>
      simp only [if_true, true_imp_iff]
      omega
  rw [← hlength]
  constructor
  · rintro ⟨fuel, c', got, result, hrun, -, hresult⟩
    obtain ⟨c₁, hcall⟩ := @recvStreamSignalled_of_lt c size interrupted hsize count hcount fuel
    have heq := Option.some.inj (hrun.symm.trans hcall)
    obtain rfl := (Prod.mk.inj (Prod.mk.inj heq).2).2
    rcases hresult with ⟨hfull, -⟩ | herror
    · exact Int.ofNat_inj.mp hfull
    · omega
  · intro hfull
    obtain ⟨c', hcall⟩ := @recvStreamSignalled_of_lt c size interrupted hsize count hcount 0
    obtain ⟨henough, -⟩ := hlength.mp hfull
    refine ⟨0, c', _, _, hcall, hfull.le, .inl ⟨by rw [hfull], henough, ?_⟩⟩
    conv_rhs => rw [← hfull]
    exact List.prefix_iff_eq_take.mp (List.take_prefix _ _)

/-! ## Many calls -/

/-- A long stream is received as it is to, if receiving it ends. -/
theorem honours_iff_ends (hsize : blockSize ≤ size) :
    Honours interrupted c size ↔ ∃ fuel result, c.recvStream fuel size = some result := by
  constructor
  · rintro ⟨fuel, c', got, result, hrun, -⟩
    exact ⟨fuel, _, (recvStreamSignalled_of_le hsize).symm.trans hrun⟩
  · rintro ⟨fuel, ⟨c', got, result⟩, hrun⟩
    have hgot := recvStream_append hrun
    refine ⟨fuel, c', got, result, (recvStreamSignalled_of_le hsize).trans hrun, ?_⟩
    rcases recvStream_invariant (keeps_readOff c size) hsize (readOff_self c) hrun with
      ⟨hresult, hfull, -⟩ | ⟨hresult, hle, -⟩
    · refine ⟨hfull.le, .inl ⟨hresult, hfull ▸ hgot.length_le, ?_⟩⟩
      rw [← hfull]
      exact List.prefix_iff_eq_take.mp hgot
    · exact ⟨hle, .inr hresult⟩

/-- A call that fails ends the loops. -/
theorem recvStream_ends_of_failed (hsize : blockSize ≤ size) {call : ℕ} (hcall : c.calls ≤ call)
    (hfailed : c.outcomes call = none) :
    ∃ fuel result, c.recvStream fuel size = some result := by
  have hcalls : ∀ (c₁ : Incoming) ask temp c₂, c₁.outcomes = c.outcomes ∧ c₁.calls ≤ call →
      c₁.recv ask = (some temp, c₂) → c₁.calls < call ∧ c₂.calls = c₁.calls + 1 := by
    rintro c₁ ask temp c₂ ⟨houtcomes, hle⟩ hrecv
    obtain ⟨hsome, hnext⟩ := recv_calls hrecv
    refine ⟨Nat.lt_of_le_of_ne hle fun heq => ?_, hnext⟩
    rw [houtcomes, heq, hfailed] at hsome
    exact nomatch hsome
  have keeps : Keeps size fun c₁ _ => c₁.outcomes = c.outcomes ∧ c₁.calls ≤ call := by
    rintro c₁ read ask temp c₂ - - hInv hrecv
    obtain ⟨hlt, hnext⟩ := hcalls c₁ ask temp c₂ hInv hrecv
    exact ⟨(recv_append hrecv).2.trans hInv.1, by omega⟩
  have decreases : Decreases size (fun c₁ _ => c₁.outcomes = c.outcomes ∧ c₁.calls ≤ call)
      fun c₁ => call - c₁.calls := by
    rintro c₁ read ask temp c₂ - - hInv hrecv
    obtain ⟨hlt, hnext⟩ := hcalls c₁ ask temp c₂ hInv hrecv
    change call - c₂.calls < call - c₁.calls
    omega
  exact recvStream_ends keeps decreases hsize ⟨rfl, hcall⟩

/-- Without enough bytes to come only a call that fails ends the loops. -/
theorem failed_of_recvStream (hsize : blockSize ≤ size) (hshort : c.pending.length < size)
    {ended : Incoming × List UInt8 × ℤ} (h : c.recvStream fuel size = some ended) :
    ∃ call, c.calls ≤ call ∧ c.outcomes call = none := by
  obtain ⟨c', got, result⟩ := ended
  rcases recvStream_invariant (keeps_readOff c size) hsize (readOff_self c) h with
    ⟨-, -, hread⟩ | ⟨-, -, c₁, ask, hread, hfailed⟩
  · have htotal := hread.total
    omega
  · exact ⟨c₁.calls, hread.calls, hread.outcomes ▸ outcome_of_failed hfailed⟩

/-- Receiving ends as it is to in exactly two cases. A stream of less than a block comes in one call
or not at all. Of a longer one all bytes come, or a call fails. -/
theorem honours_iff (interrupted : Bool) (c : Incoming) (size : ℕ) :
    Honours interrupted c size ↔ Sufficient interrupted c size := by
  unfold Sufficient
  split_ifs with hsmall
  · cases hcount : c.outcomes c.calls with
    | none => exact iff_of_true (honours_of_failed hsmall hcount) (.inl rfl)
    | some count =>
      rw [honours_of_delivered hsmall hcount, or_iff_right (Option.some_ne_none _)]
      simp only [Option.some.injEq, forall_eq']
  · have hsize : blockSize ≤ size := Nat.not_lt.mp hsmall
    rw [honours_iff_ends hsize]
    constructor
    · rintro ⟨fuel, result, hrun⟩
      by_cases henough : size ≤ c.pending.length
      · exact .inl henough
      · exact .inr (failed_of_recvStream hsize (Nat.not_le.mp henough) hrun)
    · rintro (henough | ⟨call, hcall, hfailed⟩)
      · obtain ⟨fuel, c', got, result, hrun, -⟩ := recvStream_of_enough hsize henough
        exact ⟨fuel, _, hrun⟩
      · exact recvStream_ends_of_failed hsize hcall hfailed

/-- Of ten bytes one comes before the peer closes. -/
theorem honours_short :
    ¬ ∀ (interrupted : Bool) (c : Incoming) (size : ℕ), Honours interrupted c size := fun h =>
  absurd ((honours_of_delivered (by decide) rfl).mp (h false (.fresh [65] fun _ => some 1) 10)).1
    (by decide)

end Incoming

end Comnet.ClientServer
