/-
# The way through the buffer

A segment that is ahead of its turn is kept as a string and drained when the segments
before it have come. The string ends at the first zero byte of the payload and is filled up with
zeros, so the buffer gives back the payload exactly when nothing but zeros stands behind
its first zero byte.
-/

import Comnet.MP2.Receiver

set_option autoImplicit false

namespace Comnet.MP2

open Foundations

/-- The buffered segments of a chain: each begins behind a position and leads to the position
of the next, the last one to the position before a key. -/
def Chained (buffer : Std.ExtTreeMap ℤ (List UInt8 × Bool)) :
    ℤ → List (List UInt8 × Bool) → ℤ → Prop
  | position, [], key => position + 1 = key
  | position, early :: chain, key =>
    buffer[position + 1]? = some early ∧ early.1 ≠ [] ∧
      Chained buffer (position + early.1.length) chain key

namespace ReceiverStateMachine

/-- The receiver when a segment has arrived early. -/
def withEarly (s : ReceiverStateMachine) (packet : Packet) (behind : List UInt8) :
    ReceiverStateMachine :=
  s.storeEarlyData (asInt packet.seqNum) (packet.data ++ behind) packet.dataLen.toNat packet.fin

/-- What the buffer keeps of a segment. -/
def entryOf (packet : Packet) (behind : List UInt8) : List UInt8 × Bool :=
  (bytesAt (cString (packet.data ++ behind)) packet.dataLen.toNat, packet.fin)

/-- A segment that arrives early, and is drained behind the segments of a chain, does to the
receiver what it does when it arrives after them. -/
structure DeliversAlike (s : ReceiverStateMachine) (chain : List (List UInt8 × Bool))
    (packet : Packet) (behind : List UInt8) : Prop where
  drained : (s.withEarly packet behind).checkEarlyData =
    ((chain.foldl takeEarly (s.withEarly packet behind)).takeEarly
      (entryOf packet behind)).checkEarlyData
  recvData :
    ((chain.foldl takeEarly (s.withEarly packet behind)).takeEarly
      (entryOf packet behind)).recvData =
    ((chain.foldl takeEarly s).processPacket packet behind).recvData
  ackedPosition :
    ((chain.foldl takeEarly (s.withEarly packet behind)).takeEarly
      (entryOf packet behind)).ackedPosition =
    ((chain.foldl takeEarly s).processPacket packet behind).ackedPosition
  fin :
    ((chain.foldl takeEarly (s.withEarly packet behind)).takeEarly
      (entryOf packet behind)).fin =
    ((chain.foldl takeEarly s).processPacket packet behind).fin

variable {s t : ReceiverStateMachine} {buffer : Std.ExtTreeMap ℤ (List UInt8 × Bool)}
  {chain : List (List UInt8 × Bool)} {early : List UInt8 × Bool} {position key other : ℤ}
  {packet : Packet} {behind : List UInt8}

theorem chained_lt (h : Chained buffer position chain key) : position < key := by
  induction chain generalizing position with
  | nil =>
    rw [Chained] at h
    omega
  | cons early chain ih =>
    have hrest := ih h.2.2
    omega

/-- A chain only depends on what the buffer holds between its ends. -/
theorem chained_congr {buffer' : Std.ExtTreeMap ℤ (List UInt8 × Bool)}
    (h : Chained buffer position chain key)
    (same : ∀ other, position < other → other < key → buffer'[other]? = buffer[other]?) :
    Chained buffer' position chain key := by
  induction chain generalizing position with
  | nil => exact h
  | cons early chain ih =>
    obtain ⟨hfind, hne, hrest⟩ := h
    have hpos : 0 < early.1.length := List.length_pos_iff.mpr hne
    have hlt := chained_lt hrest
    refine ⟨?_, hne, ih hrest fun other hother => same other (by omega)⟩
    rw [same _ (by omega) (by omega), hfind]

/-- The loop takes the segments of a chain one after the other and goes on behind it, and nothing
from the end of the chain on has left the buffer. -/
theorem checkEarlyData_chained (h : Chained s.buffer s.ackedPosition chain key)
    (lower : -2 ^ 31 ≤ s.ackedPosition) (upper : key ≤ 2 ^ 31) :
    s.checkEarlyData = (chain.foldl takeEarly s).checkEarlyData ∧
      (chain.foldl takeEarly s).ackedPosition + 1 = key ∧
      ∀ other, key ≤ other → (chain.foldl takeEarly s).buffer[other]? = s.buffer[other]? := by
  induction chain generalizing s with
  | nil => exact ⟨rfl, h, fun other _ => rfl⟩
  | cons early chain ih =>
    obtain ⟨hfind, hne, hrest⟩ := h
    have hpos : 0 < early.1.length := List.length_pos_iff.mpr hne
    have hlt := chained_lt hrest
    have hposition : (s.takeEarly early).ackedPosition = s.ackedPosition + early.1.length := by
      rw [takeEarly_ackedPosition, narrow_of_mem (by omega) (by omega)]
    have hbuffer : ∀ other, s.ackedPosition + 1 < other →
        (s.takeEarly early).buffer[other]? = s.buffer[other]? := by
      intro other hother
      rw [getElem?_takeEarly, if_neg (by omega)]
    have hchain : Chained (s.takeEarly early).buffer (s.takeEarly early).ackedPosition chain key :=
      hposition ▸ chained_congr hrest fun other hother _ => hbuffer other (by omega)
    obtain ⟨hdrain, hend, hsame⟩ := ih hchain (by omega)
    refine ⟨(checkEarlyData_of_some hfind).trans hdrain, hend, fun other hother => ?_⟩
    rw [List.foldl_cons, hsame other hother, hbuffer other (by omega)]

/-- Two receivers that hold the same and differ in their buffers at most. -/
structure Alike (s t : ReceiverStateMachine) : Prop where
  recvData : s.recvData = t.recvData
  ackedPosition : s.ackedPosition = t.ackedPosition
  fin : s.fin = t.fin

theorem Alike.takeEarly (h : s.Alike t) (early : List UInt8 × Bool) :
    (s.takeEarly early).Alike (t.takeEarly early) := by
  constructor
  · rw [takeEarly_recvData, takeEarly_recvData, h.recvData]
  · rw [takeEarly_ackedPosition, takeEarly_ackedPosition, h.ackedPosition]
  · rw [takeEarly_fin, takeEarly_fin, h.fin]

theorem Alike.foldl (h : s.Alike t) (chain : List (List UInt8 × Bool)) :
    (chain.foldl ReceiverStateMachine.takeEarly s).Alike (chain.foldl .takeEarly t) := by
  induction chain generalizing s t with
  | nil => exact h
  | cons early chain ih => exact ih (h.takeEarly early)

theorem withEarly_alike (s : ReceiverStateMachine) (packet : Packet) (behind : List UInt8) :
    (s.withEarly packet behind).Alike s :=
  ⟨rfl, rfl, rfl⟩

theorem buffer_withEarly (s : ReceiverStateMachine) (packet : Packet) (behind : List UInt8) :
    (s.withEarly packet behind).buffer =
      s.buffer.insert (asInt packet.seqNum) (entryOf packet behind) := rfl

/-- The segment is drained behind the segments that lead to it. -/
theorem checkEarlyData_withEarly
    (chained : Chained s.buffer s.ackedPosition chain (asInt packet.seqNum))
    (typed : FitsInt s.ackedPosition) (behind : List UInt8) :
    (s.withEarly packet behind).checkEarlyData =
        ((chain.foldl takeEarly (s.withEarly packet behind)).takeEarly
          (entryOf packet behind)).checkEarlyData ∧
      (chain.foldl takeEarly (s.withEarly packet behind)).ackedPosition + 1 =
        asInt packet.seqNum := by
  have hchain : Chained (s.withEarly packet behind).buffer
      (s.withEarly packet behind).ackedPosition chain (asInt packet.seqNum) := by
    refine chained_congr chained fun other _ hother => ?_
    rw [buffer_withEarly, Std.ExtTreeMap.getElem?_insert]
    exact if_neg (by simp; omega)
  have hlt := asInt_lt packet.seqNum
  obtain ⟨hdrain, hend, hsame⟩ := checkEarlyData_chained hchain typed.lower hlt.le
  refine ⟨hdrain.trans (checkEarlyData_of_some ?_), hend⟩
  rw [hend, hsame _ le_rfl, buffer_withEarly, Std.ExtTreeMap.getElem?_insert_self]

/-- What the buffer keeps of a segment is its payload. -/
theorem entryOf_iff (short : packet.dataLen.toNat ≤ 100) (behind : List UInt8) :
    bytesAt (cString (packet.data ++ behind)) packet.dataLen.toNat = packet.payload ↔
      ZeroPadded packet.payload := by
  have hsplit : packet.data ++ behind =
      packet.payload ++ (packet.data.drop packet.dataLen.toNat ++ behind) := by
    rw [← List.append_assoc, Packet.payload, List.take_append_drop]
  rw [hsplit, ← Packet.length_payload short]
  exact bytesAt_cString_eq_iff

/-- For every state of the receiver, every chain of buffered segments that leads to a segment, and
every payload of at most a hundred bytes, the way through the buffer delivers the same as the direct
one exactly when nothing but zeros stands behind the first zero byte of the payload and the position
behind it is one of a signed word. -/
theorem deliversAlike_iff (short : packet.dataLen.toNat ≤ 100) (typed : FitsInt s.ackedPosition)
    (chained : Chained s.buffer s.ackedPosition chain (asInt packet.seqNum)) :
    s.DeliversAlike chain packet behind ↔ ZeroPadded packet.payload ∧
      asInt packet.seqNum + packet.dataLen.toNat ≤ 2 ^ 31 := by
  have halike := (withEarly_alike s packet behind).foldl chain
  obtain ⟨hdrained, hend⟩ := checkEarlyData_withEarly chained typed behind
  have hlt := chained_lt chained
  have hlower := typed.lower
  have hrecvData : ((chain.foldl takeEarly (s.withEarly packet behind)).takeEarly
        (entryOf packet behind)).recvData =
      ((chain.foldl takeEarly s).processPacket packet behind).recvData ↔
        ZeroPadded packet.payload := by
    rw [takeEarly_recvData, halike.recvData, ← entryOf_iff short behind]
    change _ = (chain.foldl takeEarly s).recvData ++
      bytesAt (packet.data ++ behind) packet.dataLen.toNat ↔ _
    rw [List.append_cancel_left_eq, Packet.bytesAt_data short]
    rfl
  have hposition : ((chain.foldl takeEarly (s.withEarly packet behind)).takeEarly
        (entryOf packet behind)).ackedPosition =
      ((chain.foldl takeEarly s).processPacket packet behind).ackedPosition ↔
        asInt packet.seqNum + packet.dataLen.toNat ≤ 2 ^ 31 := by
    rw [takeEarly_ackedPosition, halike.ackedPosition]
    change narrow (_ + ((bytesAt _ _).length : ℤ)) =
      (chain.foldl takeEarly s).ackedPosition + packet.dataLen.toNat ↔ _
    rw [length_bytesAt, narrow_eq_self_iff, ← halike.ackedPosition]
    constructor
    · intro hfits
      have := hfits.upper
      omega
    · intro hle
      exact ⟨by omega, by omega⟩
  constructor
  · rintro ⟨-, hbytes, hplace, -⟩
    exact ⟨hrecvData.mp hbytes, hposition.mp hplace⟩
  · rintro ⟨hpadded, hle⟩
    refine ⟨hdrained, hrecvData.mpr hpadded, hposition.mpr hle, ?_⟩
    rw [takeEarly_fin, halike.fin]
    rfl

/-- A receiver that has buffered the segment of one byte that comes next. -/
def oneBuffered : ReceiverStateMachine :=
  (construct .none).withEarly (.segment 1 [65] false) []

theorem chained_oneBuffered : Chained oneBuffered.buffer oneBuffered.ackedPosition
    [([65], false)] (asInt 2) := by
  refine ⟨?_, by decide, rfl⟩
  change (Std.ExtTreeMap.insert ∅ 1 ([65], false))[(1 : ℤ)]? = _
  exact Std.ExtTreeMap.getElem?_insert_self

theorem deliversAlike_iff_text :
    oneBuffered.DeliversAlike [([65], false)] (.segment 2 [66, 67] true) [] ↔
      ZeroPadded (Packet.segment 2 [66, 67] true).payload ∧ asInt 2 + 2 ≤ 2 ^ 31 :=
  deliversAlike_iff (by decide) ⟨by decide, by decide⟩ chained_oneBuffered

/-- What stands behind a zero byte is lost in the buffer. -/
theorem deliversAlike_zero_byte : ¬ ∀ (s : ReceiverStateMachine)
    (chain : List (List UInt8 × Bool)) (packet : Packet) (behind : List UInt8),
    packet.dataLen.toNat ≤ 100 → FitsInt s.ackedPosition →
      Chained s.buffer s.ackedPosition chain (asInt packet.seqNum) →
        s.DeliversAlike chain packet behind := by
  intro h
  have hsame := (h oneBuffered [([65], false)] (.segment 2 [97, 0, 98] false) [] (by decide)
    ⟨by decide, by decide⟩ chained_oneBuffered).recvData
  revert hsame
  decide +kernel

end ReceiverStateMachine

end Comnet.MP2
