/-
# What one chunk becomes

`sendData` is given a chunk in an array of a hundred bytes and measures it as a string.
The length it copies is that of the string, the number it reports is two less, and the
place where it stops is the first zero byte, in the array or behind it. It sends the
chunk and reports its length exactly when the chunk holds no zero byte and just two
bytes stand between it and the end of the string.
-/

import Comnet.MP2.Reaction

set_option autoImplicit false

namespace Comnet.MP2

open Foundations

namespace SenderStateMachine

/-- A call of `sendData` on a chunk at the start of a memory, in which `sendTo` may have
thrown: it stays within the arrays, the packet holds the chunk, and the number that is
reported on success is its length. -/
structure Transmits (memory chunk : List UInt8) (throws : Bool)
    (sent : SenderStateMachine × Packet × ℤ) : Prop where
  /-- Measuring the string reads the byte that ends it. -/
  reads : ∀ i ≤ strlen memory, i < mmsBytes
  writes : ∀ i < strlen memory, i < sent.2.1.data.length
  payload : sent.2.1.data.take chunk.length = chunk
  returned : throws = false → sent.2.2 = chunk.length

variable {s : SenderStateMachine} {f : Frame} {array chunk behind memory : List UInt8}
  {throws : Bool} {len : ℕ}

/-- What a packet holds of a string that ends within the array. -/
theorem data_sendData (h : strlen memory < mmsBytes) :
    (s.sendData memory len throws).2.1.data =
      cString memory ++ List.replicate (100 - strlen memory) 0 := by
  have hdata : (s.sendData memory len throws).2.1.data = bytesAt (cString memory) 100 := by
    cases throws <;> rfl
  rw [hdata]
  exact bytesAt_of_le h.le

/-- Staying within the arrays is a matter of where the string ends. -/
theorem transmits_iff : Transmits memory chunk throws (s.sendData memory len throws) ↔
    strlen memory < mmsBytes ∧
      (cString memory ++ List.replicate (100 - strlen memory) 0).take chunk.length = chunk ∧
      (throws = false → strlen memory = chunk.length + 2) := by
  constructor
  · rintro ⟨hreads, -, hpayload, hreturned⟩
    have hlt := hreads _ le_rfl
    rw [data_sendData hlt] at hpayload
    refine ⟨hlt, hpayload, ?_⟩
    rintro rfl
    have hreported : (strlen memory : ℤ) - 2 = chunk.length := hreturned rfl
    omega
  · rintro ⟨hlt, hpayload, hlength⟩
    refine ⟨fun i hi => by omega, fun i hi => ?_, ?_, ?_⟩
    · rw [Packet.length_data]
      exact hi.trans hlt
    · rw [data_sendData hlt]
      exact hpayload
    · rintro rfl
      have hreported := hlength rfl
      change (strlen memory : ℤ) - 2 = chunk.length
      omega

/-- The byte that ends a string two bytes behind a chunk is the third one there. -/
theorem strlen_eq_two_iff {rest : List UInt8} :
    strlen rest = 2 ∧ 2 < rest.length ↔
      ∃ first second tail, rest = first :: second :: 0 :: tail ∧ first ≠ 0 ∧ second ≠ 0 := by
  constructor
  · rintro ⟨hstrlen, hlength⟩
    obtain ⟨first, second, third, tail, rfl⟩ : ∃ first second third tail,
        rest = first :: second :: third :: tail := by
      match rest, hlength with
      | first :: second :: third :: tail, _ => exact ⟨first, second, third, tail, rfl⟩
    by_cases hfirst : first = 0
    · simp [strlen, cString, hfirst] at hstrlen
    by_cases hsecond : second = 0
    · simp [strlen, cString, hfirst, hsecond] at hstrlen
    by_cases hthird : third = 0
    · exact ⟨first, second, tail, by rw [hthird], hfirst, hsecond⟩
    · simp [strlen, cString, hfirst, hsecond, hthird] at hstrlen
  · rintro ⟨first, second, tail, rfl, hfirst, hsecond⟩
    simp [strlen, cString, hfirst, hsecond]

/-- Sending a chunk without an error. -/
theorem transmits_sent_iff (harray : array.length = mmsBytes) (hchunk : chunk.length ≤ mmsBytes) :
    Transmits (overwrite array chunk ++ behind) chunk false
        (s.sendData (overwrite array chunk ++ behind) chunk.length false) ↔
      NoNul chunk ∧ ∃ first second rest,
        array.drop chunk.length = first :: second :: 0 :: rest ∧ first ≠ 0 ∧ second ≠ 0 := by
  have hrest : (array.drop chunk.length).length = mmsBytes - chunk.length := by
    rw [List.length_drop, harray]
  rw [transmits_iff, overwrite, ← strlen_eq_two_iff, hrest, List.append_assoc]
  constructor
  · rintro ⟨hlt, -, hlength⟩
    have hstrlen := hlength rfl
    have hnul : NoNul chunk := by
      by_contra hnul
      have hshort := (strlen_append_lt_iff chunk (array.drop chunk.length ++ behind)).mpr hnul
      omega
    rw [strlen_append hnul] at hstrlen hlt
    have hends : strlen (array.drop chunk.length ++ behind) = 2 := by omega
    have hnul' : ¬ NoNul (array.drop chunk.length) := by
      rw [← strlen_append_lt_iff _ behind, hends, hrest]
      omega
    rw [strlen, cString_append_of_nul hnul', ← strlen] at hends
    exact ⟨hnul, hends, by omega⟩
  · rintro ⟨hnul, hends, hroom⟩
    have hnul' : ¬ NoNul (array.drop chunk.length) := by
      rw [← strlen_lt_iff, hends, hrest]
      exact hroom
    have hstrlen : strlen (chunk ++ (array.drop chunk.length ++ behind)) = chunk.length + 2 := by
      rw [strlen_append hnul, strlen, cString_append_of_nul hnul', ← strlen, hends]
    refine ⟨by omega, ?_, fun _ => hstrlen⟩
    rw [cString_append hnul, List.append_assoc, List.take_left']
    rfl

/-- Handing a chunk to a `sendTo` that throws. -/
theorem transmits_thrown_iff (harray : array.length = mmsBytes)
    (hchunk : chunk.length ≤ mmsBytes) :
    Transmits (overwrite array chunk ++ behind) chunk true
        (s.sendData (overwrite array chunk ++ behind) chunk.length true) ↔
      ¬ NoNul (overwrite array chunk) ∧
        ∃ text count, NoNul text ∧ chunk = text ++ List.replicate count 0 := by
  have hlength : (overwrite array chunk).length = mmsBytes := by
    rw [overwrite, List.length_append, List.length_drop, harray]
    omega
  rw [transmits_iff, ← strlen_append_lt_iff _ behind, hlength]
  constructor
  · rintro ⟨hlt, hpayload, -⟩
    rw [List.take_append, List.take_replicate] at hpayload
    exact ⟨hlt, _, _, (noNul_cString _).sublist (List.take_sublist _ _), hpayload.symm⟩
  · rintro ⟨hlt, text, count, htext, rfl⟩
    refine ⟨hlt, ?_, fun h => absurd h.symm Bool.false_ne_true⟩
    cases count with
    | zero =>
      rw [List.replicate_zero, List.append_nil, overwrite, List.append_assoc,
        cString_append htext, List.append_assoc, List.take_left']
      rfl
    | succ count =>
      have hstring : cString (overwrite array (text ++ List.replicate (count + 1) 0) ++ behind) =
          text := by
        rw [overwrite, List.replicate_succ, List.append_assoc, List.append_assoc,
          cString_append htext, List.cons_append, cString_zero_cons, List.append_nil]
      rw [List.length_append, List.length_replicate] at hchunk ⊢
      rw [strlen, hstring, List.take_append, List.take_of_length_le (Nat.le_add_right _ _),
        List.take_replicate, Nat.add_sub_cancel_left, Nat.min_eq_left]
      exact Nat.le_sub_of_add_le' hchunk

/-- A chunk sent without an error is sent right exactly when it holds no zero byte and the array
goes on with two others and then a zero byte. Handed to a `sendTo` that throws, it is exactly when
the array holds a zero byte and the chunk nothing else behind one. -/
theorem sendData_transmits_iff (s : SenderStateMachine) (behind : List UInt8) (throws : Bool)
    (harray : array.length = mmsBytes) (hchunk : chunk.length ≤ mmsBytes) :
    Transmits (overwrite array chunk ++ behind) chunk throws
        (s.sendData (overwrite array chunk ++ behind) chunk.length throws) ↔
      (throws = false ∧ NoNul chunk ∧ ∃ first second rest,
        array.drop chunk.length = first :: second :: 0 :: rest ∧ first ≠ 0 ∧ second ≠ 0) ∨
      (throws = true ∧ ¬ NoNul (overwrite array chunk) ∧
        ∃ text count, NoNul text ∧ chunk = text ++ List.replicate count 0) := by
  cases throws with
  | false =>
    rw [transmits_sent_iff harray hchunk]
    exact ⟨fun h => .inl ⟨rfl, h⟩, fun h => h.elim (·.2) fun h => nomatch h.1⟩
  | true =>
    rw [transmits_thrown_iff harray hchunk]
    exact ⟨fun h => .inr ⟨rfl, h⟩, fun h => h.elim (fun h => nomatch h.1) (·.2)⟩

theorem sendData_transmits_iff_text :
    Transmits (overwrite ([65, 66, 1, 1, 0] ++ List.replicate 95 7) [72, 105] ++ [9]) [72, 105]
        false ((construct 0).sendData
          (overwrite ([65, 66, 1, 1, 0] ++ List.replicate 95 7) [72, 105] ++ [9]) 2 false) ↔
      (false = false ∧ NoNul [72, 105] ∧ ∃ first second rest,
        ([65, 66, 1, 1, 0] ++ List.replicate 95 7 : List UInt8).drop 2 =
          first :: second :: 0 :: rest ∧ first ≠ 0 ∧ second ≠ 0) ∨
      (false = true ∧
        ¬ NoNul (overwrite ([65, 66, 1, 1, 0] ++ List.replicate 95 7) [72, 105]) ∧
        ∃ text count, NoNul text ∧ ([72, 105] : List UInt8) = text ++ List.replicate count 0) :=
  sendData_transmits_iff (construct 0) [9] false rfl (by decide)

/-- The five bytes `hello` in a zeroed array are reported as three. -/
theorem sendData_reports_less :
    ¬ ∀ (s : SenderStateMachine) (array chunk behind : List UInt8) (throws : Bool),
      array.length = mmsBytes → chunk.length ≤ mmsBytes →
        Transmits (overwrite array chunk ++ behind) chunk throws
          (s.sendData (overwrite array chunk ++ behind) chunk.length throws) := by
  intro h
  have hello := h (construct 0) (List.replicate 100 0) [104, 101, 108, 108, 111] [] false
    List.length_replicate (by decide)
  exact absurd (hello.returned rfl) (by decide)

/-- The array of `transmit` is zeroed, so no round of its inner loop that sends a chunk
reports its length. -/
theorem not_transmits_chunk (s : SenderStateMachine) (f : Frame) :
    ¬ Transmits (s.chunkMemory f) (s.message.chunk mmsBytes) false
      (s.sendData (s.chunkMemory f) (s.message.chunk mmsBytes).length false) := by
  rw [chunkMemory, transmits_sent_iff List.length_replicate length_chunk_le]
  rintro ⟨-, first, second, rest, hdrop, hfirst, -⟩
  rw [List.drop_replicate] at hdrop
  have hmem : first ∈ List.replicate (mmsBytes - (s.message.chunk mmsBytes).length) (0 : UInt8) :=
    hdrop ▸ List.mem_cons_self
  exact hfirst (List.eq_of_mem_replicate hmem)

end SenderStateMachine

end Comnet.MP2
