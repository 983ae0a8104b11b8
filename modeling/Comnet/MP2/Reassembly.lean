/-
# Reassembly at the receiver

Fed with packets that sit where the file puts them, in any order, with any
repetitions and any losses, the receiver always holds a prefix of the file: the
bytes it has acknowledged. It answers every packet it handles with the position
after that prefix, and it finishes, or says so in an acknowledgement, only when
the prefix is the file.

The invariant covers the buffer as well: every early segment sits where the file
puts it, whichever segments were stored or drained since it came in.
-/

import Comnet.MP2.Receiver

set_option autoImplicit false

namespace Comnet.MP2

open Foundations

namespace ReceiverStateMachine

variable {file : List UInt8} {s : ReceiverStateMachine} {packet : Packet} {key : ℤ}
  {early : List UInt8 × Bool}

/-- A buffered segment sits in the file where its key says. -/
structure SegmentOf (file : List UInt8) (key : ℤ) (early : List UInt8 × Bool) : Prop where
  key_pos : 1 ≤ key
  slice : Slice file (key - 1).toNat early.1
  fin_at_end : early.2 = true → (key - 1).toNat + early.1.length = file.length

/-- What the receiver holds is a prefix of the file, and so are its plans. -/
structure Reassembled (file : List UInt8) (s : ReceiverStateMachine) : Prop where
  position : s.ackedPosition = s.recvData.length
  stored : s.recvData <+: file
  buffered : ∀ key early, s.buffer[key]? = some early → SegmentOf file key early
  complete : s.fin = true → s.recvData.length = file.length

theorem Reassembled.bounded (h : Reassembled file s) : s.Bounded file.length where
  position := h.position
  stored := h.stored.length_le
  buffered := by
    intro key early hfind
    have hpos := (h.buffered key early hfind).key_pos
    have hwithin := (h.buffered key early hfind).slice.within
    omega

theorem Reassembled.recvData_eq (h : Reassembled file s) (hfin : s.fin = true) :
    s.recvData = file :=
  h.stored.eq_of_length (h.complete hfin)

theorem reassembled_construct (file : List UInt8) (pattern : LossPattern) :
    Reassembled file (construct pattern) where
  position := rfl
  stored := List.nil_prefix
  buffered := by simp [construct]
  complete := by simp [construct]

theorem Reassembled.receivePacket (h : Reassembled file s) (a : Arrival) :
    Reassembled file (s.receivePacket a).1 where
  position := by simpa using h.position
  stored := by simpa using h.stored
  buffered := by simpa using h.buffered
  complete := by simpa using h.complete

/-- Storing the slice that comes next keeps the prefix, whatever the flag says as
long as it is raised at the end of the file only. -/
private theorem grows (fin : Bool) {got part : List UInt8} (hgot : got <+: file)
    (slice : Slice file got.length part)
    (atEnd : fin = true → got.length = file.length ∨ got.length + part.length = file.length) :
    (got ++ part) <+: file ∧ (fin = true → (got ++ part).length = file.length) := by
  refine ⟨slice.append_isPrefix hgot, fun hfin => ?_⟩
  have hwithin := slice.within
  rw [List.length_append]
  rcases atEnd hfin with h | h <;> omega

theorem Reassembled.takeEarly (h : Reassembled file s) (bound : file.length < 2 ^ 31 - 1)
    (hfind : s.buffer[s.ackedPosition + 1]? = some early) :
    Reassembled file (s.takeEarly early) := by
  have hpos := h.position
  have hseg := h.buffered _ _ hfind
  have hoffset : (s.ackedPosition + 1 - 1).toNat = s.recvData.length := by omega
  have hslice : Slice file s.recvData.length early.1 := hoffset ▸ hseg.slice
  obtain ⟨hstored, hcomplete⟩ := grows (s.fin || early.2) h.stored hslice (by
    intro hfin
    rcases Bool.or_eq_true_iff.mp hfin with hfin | hfin
    · exact Or.inl (h.complete hfin)
    · exact Or.inr (hoffset ▸ hseg.fin_at_end hfin))
  constructor
  · exact (h.bounded.takeEarly bound hfind).position
  · rwa [takeEarly_recvData]
  · intro key other hother
    rw [getElem?_takeEarly] at hother
    split_ifs at hother
    exact h.buffered key other hother
  · rwa [takeEarly_recvData, takeEarly_fin]

theorem Reassembled.storeEarlyData (h : Reassembled file s) (noNul : NoNul file)
    (bound : file.length < 2 ^ 31 - 1) (labelled : packet.Labelled file) (behind : List UInt8) :
    Reassembled file (s.storeEarlyData (asInt packet.seqNum) (packet.data ++ behind)
      packet.dataLen.toNat packet.fin) := by
  refine ⟨h.position, h.stored, fun key early hearly => ?_, h.complete⟩
  change (s.buffer.insert _ _)[key]? = some early at hearly
  rw [Std.ExtTreeMap.getElem?_insert,
    Packet.bytesAt_cString_data labelled.dataLen_le (noNul.sublist labelled.slice.sublist)]
    at hearly
  split_ifs at hearly with hkey
  · obtain rfl : asInt packet.seqNum = key := by simpa using hkey
    obtain rfl := Option.some.inj hearly
    have hpos := labelled.seqNum_pos
    have hwithin := labelled.within
    have hlen := Packet.length_payload labelled.dataLen_le
    have hkey' : asInt packet.seqNum = packet.seqNum.toNat := asInt_of_lt (by omega)
    have hoffset : (asInt packet.seqNum - 1).toNat = packet.seqNum.toNat - 1 := by omega
    exact ⟨by omega, hoffset ▸ labelled.slice,
      fun hfin => by rw [hoffset, hlen]; exact labelled.fin_at_end hfin⟩
  · exact h.buffered key early hearly

theorem Reassembled.processPacket (h : Reassembled file s) (labelled : packet.Labelled file)
    (behind : List UInt8) (next : packet.seqNum.toNat = s.recvData.length + 1) :
    Reassembled file (s.processPacket packet behind) := by
  have hdata : (s.processPacket packet behind).recvData = s.recvData ++ packet.payload := by
    rw [← Packet.bytesAt_data labelled.dataLen_le behind]
    rfl
  have hlen := Packet.length_payload labelled.dataLen_le
  have hoffset : packet.seqNum.toNat - 1 = s.recvData.length := by omega
  obtain ⟨hstored, hcomplete⟩ := grows (s.fin || packet.fin) h.stored
    (hoffset ▸ labelled.slice) (by
      intro hfin
      rcases Bool.or_eq_true_iff.mp hfin with hfin | hfin
      · exact Or.inl (h.complete hfin)
      · exact Or.inr (by rw [hlen, ← hoffset]; exact labelled.fin_at_end hfin))
  exact ⟨(h.bounded.processPacket labelled.toWithin next behind).position, hdata ▸ hstored,
    h.buffered, fun hfin => hdata ▸ hcomplete hfin⟩

theorem Reassembled.checkEarlyData (h : Reassembled file s) (bound : file.length < 2 ^ 31 - 1) :
    Reassembled file s.checkEarlyData :=
  (checkEarlyData_rule h fun _ _ hs hfind => hs.takeEarly bound hfind).1

/-- The position the receiver acknowledges never leaves the range of a word. -/
theorem Reassembled.toNat_next (h : Reassembled file s) (bound : file.length < 2 ^ 31 - 1) :
    (toWord (s.ackedPosition + 1)).toNat = s.recvData.length + 1 := by
  have hpos := h.position
  have hnext := h.bounded.toNat_next bound
  omega

/-- Handling a packet keeps the invariant and answers with the position reached. -/
theorem Reassembled.handle (h : Reassembled file s) (noNul : NoNul file)
    (bound : file.length < 2 ^ 31 - 1) (labelled : packet.Labelled file) (behind : List UInt8) :
    Reassembled file (s.handle packet behind).1 ∧
      (s.handle packet behind).2.ackNum.toNat = (s.handle packet behind).1.recvData.length + 1 ∧
      (s.handle packet behind).2.fin = (s.handle packet behind).1.fin := by
  have hkept : Reassembled file (s.handle packet behind).1 := by
    rcases s.handle_cases packet behind with ⟨-, heq⟩ | ⟨-, heq⟩ | ⟨hexpected, heq⟩ <;>
      rw [heq]
    · exact h.storeEarlyData noNul bound labelled behind
    · exact h
    · have hplace := h.bounded.expected bound hexpected
      exact (h.processPacket labelled behind hplace).checkEarlyData bound
  rw [handle_answer]
  exact ⟨hkept, hkept.toNat_next bound, rfl⟩

/-- One pass of the loop keeps the invariant, and an acknowledgement it sends
carries the position reached and closes only a complete file. -/
theorem Reassembled.receiveStep (h : Reassembled file s) (noNul : NoNul file)
    (bound : file.length < 2 ^ 31 - 1) {a : Arrival} (labelled : a.packet.Labelled file) :
    Reassembled file (s.receiveStep a).1 ∧
      ∀ answer, (s.receiveStep a).2 = some answer →
        answer.ackNum.toNat = (s.receiveStep a).1.recvData.length + 1 ∧
        (answer.fin = true → (s.receiveStep a).1.recvData = file) := by
  by_cases hdrop : (s.toLossFilter.count a).2 = -1
  · rw [receiveStep_of_drop hdrop]
    exact ⟨h.receivePacket a, by simp⟩
  · rw [receiveStep_of_pass hdrop]
    obtain ⟨hkept, hack, hfin⟩ := (h.receivePacket a).handle noNul bound labelled a.behind
    refine ⟨hkept, fun answer hanswer => ?_⟩
    obtain rfl := Option.some.inj hanswer
    exact ⟨hack, fun hclose => hkept.recvData_eq (hfin ▸ hclose)⟩

/-- The invariant holds after every sequence of well placed arrivals. -/
theorem Reassembled.receive (h : Reassembled file s) (noNul : NoNul file)
    (bound : file.length < 2 ^ 31 - 1) {arrivals : List Arrival}
    (labelled : ∀ a ∈ arrivals, a.packet.Labelled file) :
    Reassembled file (s.receive arrivals) := by
  induction arrivals generalizing s with
  | nil => exact h
  | cons a as ih =>
    rw [ReceiverStateMachine.receive]
    split
    · exact h
    · exact ih (h.receiveStep noNul bound (labelled a (by simp))).1
        fun b hb => labelled b (List.mem_cons_of_mem a hb)

/-- **Reassembly safety.** After any sequence of well placed arrivals the receiver
holds exactly the acknowledged bytes of the file, it has returned only with the
whole file, and the next pass over a well placed arrival ends in a state with the
same properties and answers, if at all, with the position after what it holds,
closing only when that is the whole file. -/
theorem receive_reassembles (pattern : LossPattern) (noNul : NoNul file)
    (bound : file.length < 2 ^ 31 - 1) (arrivals : List Arrival)
    (labelled : ∀ a ∈ arrivals, a.packet.Labelled file) :
    let s := (construct pattern).receive arrivals
    s.recvData = file.take s.ackedPosition.toNat ∧
      s.ackedPosition = s.recvData.length ∧
      (s.fin = true → s.recvData = file) ∧
      ∀ a : Arrival, a.packet.Labelled file →
        (s.receiveStep a).1.recvData = file.take (s.receiveStep a).1.ackedPosition.toNat ∧
        ((s.receiveStep a).1.fin = true → (s.receiveStep a).1.recvData = file) ∧
        ∀ answer, (s.receiveStep a).2 = some answer →
          answer.ackNum.toNat = (s.receiveStep a).1.recvData.length + 1 ∧
          (answer.fin = true → (s.receiveStep a).1.recvData = file) := by
  intro s
  have taken : ∀ {t : ReceiverStateMachine}, Reassembled file t →
      t.recvData = file.take t.ackedPosition.toNat := by
    intro t ht
    rw [ht.position, Int.toNat_natCast]
    exact List.prefix_iff_eq_take.mp ht.stored
  have hs : Reassembled file s :=
    (reassembled_construct file pattern).receive noNul bound labelled
  refine ⟨taken hs, hs.position, hs.recvData_eq, fun a ha => ?_⟩
  obtain ⟨hkept, hanswer⟩ := hs.receiveStep noNul bound ha
  exact ⟨taken hkept, hkept.recvData_eq, hanswer⟩

/-- The last segment of a short file overtaking the first one. -/
def overtaken : List Arrival :=
  [.ofPacket (.segment 3 [99] true), .ofPacket (.segment 1 [97, 98] false)]

theorem receive_reassembles_overtaken :
    ((construct .none).receive overtaken).recvData = [97, 98, 99] :=
  (receive_reassembles .none (by decide) (by decide) overtaken (by decide)).2.2.1
    (by decide +kernel)

end ReceiverStateMachine

end Comnet.MP2
