/-
# The receiving side of the transfer

`ReceiverStateMachine` acknowledges cumulatively: `ackedPosition` counts the
bytes stored so far, a segment that starts right after them is stored, a later
one is buffered under its sequence number, an earlier one only answered. After a
segment has been stored, buffered segments that have become next are drained.

The arrivals are numbered in a signed variable, which wraps. Positions in the data keep their
value; where a result needs them in the signed range, it says so.

Each arrival carries what the code reads from outside its own state: the packet,
the result of `recvFrom`, the memory behind the packet's payload, what an access
past the end of `specificPackets` finds, and whether the answer could be sent.
Addresses are left out, a transfer having one peer on each side.
-/

import Comnet.Foundations.MachineInt
import Comnet.MP2.Packet
import Std.Data.ExtTreeMap.Lemmas

set_option autoImplicit false

namespace Comnet.MP2

open Foundations

/-- The loss pattern read at construction. -/
structure LossPattern where
  periodic : Bool
  lossPeriod : ℤ
  specific : Bool
  specificPackets : List ℤ

/-- The pattern of a receiver that drops nothing. -/
def LossPattern.none : LossPattern := ⟨false, 0, false, []⟩

/-- The loss pattern and how far the receiver is in it. -/
structure LossFilter extends LossPattern where
  /-- The running number of the last arrival. -/
  rsn : ℤ
  specificPosition : ℕ

/-- The state of the receiver. -/
structure ReceiverStateMachine extends LossFilter where
  ackedPosition : ℤ
  fin : Bool
  recvData : List UInt8
  /-- Early segments by sequence number. -/
  buffer : Std.ExtTreeMap ℤ (List UInt8 × Bool)

/-- One return of `recvFrom` and the memory it leaves behind. -/
structure Arrival where
  packet : Packet
  bytesRead : ℤ
  /-- The bytes that follow the payload in memory. -/
  behind : List UInt8
  /-- What an element of `specificPackets` past its end reads as. -/
  stray : ℤ
  /-- `sendTo` throws on the answer. -/
  throws : Bool

/-- A whole packet with nothing remarkable around it. -/
def Arrival.ofPacket (packet : Packet) : Arrival := ⟨packet, 112, [], 0, false⟩

/-- Count an arrival; `-1` stands for one that the loss pattern drops. -/
def LossFilter.count (f : LossFilter) (a : Arrival) : LossFilter × ℤ :=
  let f := { f with rsn := narrow (f.rsn + 1) }
  -- a periodic loss leaves the specific ones where they are
  if f.periodic && (f.rsn == 1 || f.rsn.tmod (narrow (f.lossPeriod + 1)) == 0) then (f, -1)
  else if f.specific && f.rsn == f.specificPackets.getD f.specificPosition a.stray then
    ({ f with specificPosition := f.specificPosition + 1 }, -1)
  else (f, a.bytesRead)

/-- The arrivals of a sequence that get past the loss pattern. -/
def LossFilter.undropped (f : LossFilter) : List Arrival → List Arrival
  | [] => []
  | a :: as =>
    let (f, bytesRead) := f.count a
    if bytesRead = -1 then f.undropped as else a :: f.undropped as

theorem LossFilter.undropped_of_drop {f : LossFilter} {a : Arrival} {as : List Arrival}
    (h : (f.count a).2 = -1) : f.undropped (a :: as) = (f.count a).1.undropped as :=
  if_pos h

theorem LossFilter.undropped_of_pass {f : LossFilter} {a : Arrival} {as : List Arrival}
    (h : (f.count a).2 ≠ -1) : f.undropped (a :: as) = a :: (f.count a).1.undropped as :=
  if_neg h

namespace ReceiverStateMachine

/-- A new receiver with its loss pattern. -/
def construct (pattern : LossPattern) : ReceiverStateMachine where
  toLossPattern := pattern
  ackedPosition := 0
  fin := false
  recvData := []
  rsn := 0
  specificPosition := 0
  buffer := ∅

/-- Wait for a packet and count it against the loss pattern. -/
def receivePacket (s : ReceiverStateMachine) (a : Arrival) : ReceiverStateMachine × ℤ :=
  let (filter, bytesRead) := s.toLossFilter.count a
  ({ s with toLossFilter := filter }, bytesRead)

/-- Append counted bytes to what has been received. -/
def saveData (s : ReceiverStateMachine) (data : List UInt8) (length : ℕ) :
    ReceiverStateMachine :=
  { s with recvData := s.recvData ++ bytesAt data length }

/-- Keep a segment that is ahead of its turn, as a string cut to its length. -/
def storeEarlyData (s : ReceiverStateMachine) (num : ℤ) (data : List UInt8) (len : ℕ)
    (fin : Bool) : ReceiverStateMachine :=
  { s with buffer := s.buffer.insert num (bytesAt (cString data) len, fin) }

/-- Store the segment that was expected. -/
def processPacket (s : ReceiverStateMachine) (packet : Packet) (behind : List UInt8) :
    ReceiverStateMachine :=
  let s := { s with fin := s.fin || packet.fin }
  let s := s.saveData (packet.data ++ behind) packet.dataLen.toNat
  { s with ackedPosition := s.ackedPosition + packet.dataLen.toNat }

/-- One round of draining: the buffered segment under the next position is stored
and erased. -/
def takeEarly (s : ReceiverStateMachine) (early : List UInt8 × Bool) : ReceiverStateMachine :=
  let s' := s.saveData early.1 early.1.length
  { s' with
    -- the sum with an unsigned size is stored into a signed variable
    ackedPosition := narrow (s.ackedPosition + early.1.length)
    fin := s.fin || early.2
    buffer := s.buffer.erase (s.ackedPosition + 1) }

/-- The draining loop, at most `fuel` rounds of it. -/
def drain : ℕ → ReceiverStateMachine → ReceiverStateMachine
  | 0, s => s
  | fuel + 1, s =>
    match s.buffer[s.ackedPosition + 1]? with
    | some early => drain fuel (s.takeEarly early)
    | none => s

/-- Drain the buffered segments that have become next. Each round erases an entry,
so the loop has no more rounds than the buffer has entries. -/
def checkEarlyData (s : ReceiverStateMachine) : ReceiverStateMachine := drain s.buffer.size s

/-- The acknowledgement handed to `sendTo`. -/
def sendAck (s : ReceiverStateMachine) (seqNum ackNum : ℤ) : Packet :=
  { Packet.zero with
    seqNum := toWord seqNum
    ackNum := toWord (ackNum + 1)
    ack := true
    fin := s.fin }

/-- What `receive` does with a packet that was not dropped. -/
def handle (s : ReceiverStateMachine) (packet : Packet) (behind : List UInt8) :
    ReceiverStateMachine × Packet :=
  let seqNum := asInt packet.seqNum
  -- both comparisons are made on unsigned words
  if packet.seqNum > toWord (s.ackedPosition + 1) then
    let s := s.storeEarlyData seqNum (packet.data ++ behind) packet.dataLen.toNat packet.fin
    (s, s.sendAck seqNum s.ackedPosition)
  else if packet.seqNum < toWord (s.ackedPosition + 1) then
    (s, s.sendAck seqNum s.ackedPosition)
  else
    let s := (s.processPacket packet behind).checkEarlyData
    (s, s.sendAck seqNum s.ackedPosition)

/-- One pass of the loop of `receive`, with the acknowledgement it hands to
`sendTo`, if any. -/
def receiveStep (s : ReceiverStateMachine) (a : Arrival) : ReceiverStateMachine × Option Packet :=
  let (s, bytesRead) := s.receivePacket a
  if bytesRead = -1 then (s, none)
  else
    let (s, answer) := s.handle a.packet a.behind
    (s, some answer)

/-- The loop of `receive` over a sequence of arrivals; it has returned the data
when `fin` is set, and arrivals after that are never looked at. -/
def receive (s : ReceiverStateMachine) : List Arrival → ReceiverStateMachine
  | [] => s
  | a :: as => if s.fin then s else (s.receiveStep a).1.receive as

/-! ## What the parts of a pass change -/

section Frame

variable (s : ReceiverStateMachine) (a : Arrival)

@[simp] theorem ackedPosition_receivePacket :
    (s.receivePacket a).1.ackedPosition = s.ackedPosition := rfl

@[simp] theorem fin_receivePacket : (s.receivePacket a).1.fin = s.fin := rfl

@[simp] theorem recvData_receivePacket : (s.receivePacket a).1.recvData = s.recvData := rfl

@[simp] theorem buffer_receivePacket : (s.receivePacket a).1.buffer = s.buffer := rfl

@[simp] theorem toLossFilter_receivePacket :
    (s.receivePacket a).1.toLossFilter = (s.toLossFilter.count a).1 := rfl

@[simp] theorem saveData_recvData (data : List UInt8) (length : ℕ) :
    (s.saveData data length).recvData = s.recvData ++ bytesAt data length := rfl

@[simp] theorem takeEarly_recvData (early : List UInt8 × Bool) :
    (s.takeEarly early).recvData = s.recvData ++ early.1 := by
  change s.recvData ++ bytesAt early.1 early.1.length = _
  rw [bytesAt_eq_take le_rfl, List.take_length]

@[simp] theorem takeEarly_ackedPosition (early : List UInt8 × Bool) :
    (s.takeEarly early).ackedPosition = narrow (s.ackedPosition + early.1.length) := rfl

@[simp] theorem takeEarly_fin (early : List UInt8 × Bool) :
    (s.takeEarly early).fin = (s.fin || early.2) := rfl

@[simp] theorem takeEarly_buffer (early : List UInt8 × Bool) :
    (s.takeEarly early).buffer = s.buffer.erase (s.ackedPosition + 1) := rfl

/-- A round erases one entry and leaves the others as they are. -/
theorem getElem?_takeEarly (early : List UInt8 × Bool) (key : ℤ) :
    (s.takeEarly early).buffer[key]? =
      if key = s.ackedPosition + 1 then none else s.buffer[key]? := by
  rw [takeEarly_buffer, Std.ExtTreeMap.getElem?_erase]
  exact if_congr (Std.compare_eq_iff_eq.trans eq_comm) rfl rfl

end Frame

theorem receiveStep_of_drop {s : ReceiverStateMachine} {a : Arrival}
    (h : (s.toLossFilter.count a).2 = -1) : s.receiveStep a = ((s.receivePacket a).1, none) :=
  if_pos h

theorem receiveStep_of_pass {s : ReceiverStateMachine} {a : Arrival}
    (h : (s.toLossFilter.count a).2 ≠ -1) :
    s.receiveStep a = (((s.receivePacket a).1.handle a.packet a.behind).1,
      some ((s.receivePacket a).1.handle a.packet a.behind).2) :=
  if_neg h

/-! ## The draining loop

The fuel is the number of entries and every round erases one, so the loop always
runs to its exit. Two rules carry every proof about it: what a round keeps, the
loop keeps, and after the loop no entry sits under the next position. -/

section Drain

variable {s : ReceiverStateMachine} {early : List UInt8 × Bool}

theorem size_takeEarly (h : s.buffer[s.ackedPosition + 1]? = some early) :
    (s.takeEarly early).buffer.size + 1 = s.buffer.size := by
  have member : s.ackedPosition + 1 ∈ s.buffer := by
    rw [Std.ExtTreeMap.mem_iff_isSome_getElem?, h]
    rfl
  have positive : s.buffer.size ≠ 0 := fun hzero =>
    Std.ExtTreeMap.not_mem_empty (Std.ExtTreeMap.eq_empty_iff_size_eq_zero.mpr hzero ▸ member)
  rw [takeEarly_buffer, Std.ExtTreeMap.size_erase,
    if_pos (Std.ExtTreeMap.mem_iff_contains.mp member)]
  omega

theorem drain_of_none (h : s.buffer[s.ackedPosition + 1]? = none) (fuel : ℕ) :
    drain fuel s = s := by
  cases fuel with
  | zero => rfl
  | succ fuel => simp only [drain, h]

/-- The loop of the source: a round and the loop again while an entry is found. -/
theorem checkEarlyData_of_some (h : s.buffer[s.ackedPosition + 1]? = some early) :
    s.checkEarlyData = (s.takeEarly early).checkEarlyData := by
  rw [checkEarlyData, checkEarlyData, ← size_takeEarly h]
  simp only [drain, h]

theorem checkEarlyData_of_none (h : s.buffer[s.ackedPosition + 1]? = none) :
    s.checkEarlyData = s :=
  drain_of_none h _

/-- Induction along the draining loop: every round that finds an entry leaves one less. -/
theorem drain_induction {P : ReceiverStateMachine → Prop}
    (last : ∀ s : ReceiverStateMachine, s.buffer[s.ackedPosition + 1]? = none → P s)
    (round : ∀ (s : ReceiverStateMachine) (early : List UInt8 × Bool),
      s.buffer[s.ackedPosition + 1]? = some early → P (s.takeEarly early) → P s)
    (s : ReceiverStateMachine) : P s := by
  induction hsize : s.buffer.size generalizing s with
  | zero =>
    have hempty : s.buffer = ∅ := Std.ExtTreeMap.eq_empty_iff_size_eq_zero.mpr hsize
    exact last s (by simp [hempty])
  | succ size ih =>
    cases hfind : s.buffer[s.ackedPosition + 1]? with
    | none => exact last s hfind
    | some early =>
      have hless := size_takeEarly hfind
      exact round s early hfind (ih (s.takeEarly early) (by omega))

/-- What every round keeps, the loop keeps, and the loop ends with no entry under the next
position. -/
theorem checkEarlyData_rule {P : ReceiverStateMachine → Prop} (init : P s)
    (round : ∀ s early, P s → s.buffer[s.ackedPosition + 1]? = some early →
      P (s.takeEarly early)) :
    P s.checkEarlyData ∧
      s.checkEarlyData.buffer[s.checkEarlyData.ackedPosition + 1]? = none := by
  induction s using drain_induction with
  | last s hnone =>
    rw [checkEarlyData_of_none hnone]
    exact ⟨init, hnone⟩
  | round s early hfind ih =>
    rw [checkEarlyData_of_some hfind]
    exact ih (round s early init hfind)

end Drain

/-! ## What a pass leaves, whatever arrives -/

section Pass

variable {s : ReceiverStateMachine} {a : Arrival} {answer : Packet}

/-- The state that handling a packet leaves, by the place of the packet. -/
theorem handle_cases (s : ReceiverStateMachine) (packet : Packet) (behind : List UInt8) :
    (packet.seqNum > toWord (s.ackedPosition + 1) ∧
      (s.handle packet behind).1 = s.storeEarlyData (asInt packet.seqNum)
        (packet.data ++ behind) packet.dataLen.toNat packet.fin) ∨
    (packet.seqNum < toWord (s.ackedPosition + 1) ∧ (s.handle packet behind).1 = s) ∨
    (packet.seqNum = toWord (s.ackedPosition + 1) ∧
      (s.handle packet behind).1 = (s.processPacket packet behind).checkEarlyData) := by
  unfold handle
  dsimp only
  split_ifs with hearly hold
  · exact Or.inl ⟨hearly, rfl⟩
  · exact Or.inr (Or.inl ⟨hold, rfl⟩)
  · exact Or.inr (Or.inr ⟨UInt32.le_antisymm (UInt32.not_lt.mp hearly) (UInt32.not_lt.mp hold),
      rfl⟩)

/-- The answer is made from the state that handling the packet leaves. -/
theorem handle_answer (s : ReceiverStateMachine) (packet : Packet) (behind : List UInt8) :
    (s.handle packet behind).2 = (s.handle packet behind).1.sendAck (asInt packet.seqNum)
      (s.handle packet behind).1.ackedPosition := by
  unfold handle
  dsimp only
  split_ifs <;> rfl

/-- An answer acknowledges the position reached and closes when the data is complete. -/
theorem answer_eq (h : (s.receiveStep a).2 = some answer) :
    ∃ seqNum, answer = (s.receiveStep a).1.sendAck seqNum (s.receiveStep a).1.ackedPosition := by
  by_cases hdrop : (s.toLossFilter.count a).2 = -1
  · simp [receiveStep_of_drop hdrop] at h
  · rw [receiveStep_of_pass hdrop] at h ⊢
    obtain rfl := Option.some.inj h
    exact ⟨asInt a.packet.seqNum, handle_answer _ _ _⟩

/-- What handling a packet and draining after it keep. -/
theorem handle_rule {P : ReceiverStateMachine → Prop} (packet : Packet) (behind : List UInt8)
    (init : P s)
    (early : P (s.storeEarlyData (asInt packet.seqNum) (packet.data ++ behind)
      packet.dataLen.toNat packet.fin))
    (expected : P (s.processPacket packet behind))
    (round : ∀ s early, P s → s.buffer[s.ackedPosition + 1]? = some early →
      P (s.takeEarly early)) :
    P (s.handle packet behind).1 := by
  rcases s.handle_cases packet behind with ⟨-, heq⟩ | ⟨-, heq⟩ | ⟨-, heq⟩ <;>
    rw [heq]
  · exact early
  · exact init
  · exact (checkEarlyData_rule expected round).1

/-- A pass only adds to what has been received. -/
theorem recvData_isPrefix (s : ReceiverStateMachine) (a : Arrival) :
    s.recvData <+: (s.receiveStep a).1.recvData := by
  by_cases hdrop : (s.toLossFilter.count a).2 = -1
  · rw [receiveStep_of_drop hdrop]
    exact List.prefix_rfl
  · rw [receiveStep_of_pass hdrop]
    refine handle_rule (P := fun t => s.recvData <+: t.recvData) a.packet a.behind
      List.prefix_rfl List.prefix_rfl (List.prefix_append _ _) fun t early ht _ => ?_
    rw [takeEarly_recvData]
    exact ht.trans (List.prefix_append _ _)

/-- The position counts the bytes received as long as they are fewer than a signed word
counts. -/
theorem ackedPosition_receiveStep (h : s.ackedPosition = s.recvData.length)
    (bound : (s.receiveStep a).1.recvData.length < 2 ^ 31 - 1) :
    (s.receiveStep a).1.ackedPosition = (s.receiveStep a).1.recvData.length := by
  by_cases hdrop : (s.toLossFilter.count a).2 = -1
  · rw [receiveStep_of_drop hdrop]
    exact h
  · rw [receiveStep_of_pass hdrop] at bound ⊢
    refine handle_rule (P := fun t => t.recvData.length < 2 ^ 31 - 1 →
      t.ackedPosition = t.recvData.length) a.packet a.behind (fun _ => h) (fun _ => h)
      (fun _ => ?_) (fun t early ht hfind hbound => ?_) bound
    · change s.ackedPosition + a.packet.dataLen.toNat =
        ((s.recvData ++ bytesAt (a.packet.data ++ a.behind) a.packet.dataLen.toNat).length : ℤ)
      rw [List.length_append, length_bytesAt, h, Nat.cast_add]
    · rw [takeEarly_recvData, List.length_append] at hbound ⊢
      have hpos := ht (by omega)
      rw [takeEarly_ackedPosition, narrow_of_mem (by omega) (by omega), hpos, Nat.cast_add]

end Pass

/-! ## What the receiver holds ends within the file

Whatever the bytes are, if the packets end within so many bytes then so do the data and
what is buffered. -/

section Bounded

/-- What the receiver holds and what it has buffered ends within so many bytes. -/
structure Bounded (size : ℕ) (s : ReceiverStateMachine) : Prop where
  position : s.ackedPosition = s.recvData.length
  stored : s.recvData.length ≤ size
  buffered : ∀ (key : ℤ) (early : List UInt8 × Bool), s.buffer[key]? = some early →
    key - 1 + early.1.length ≤ size

variable {s : ReceiverStateMachine} {size : ℕ} {early : List UInt8 × Bool} {packet : Packet}

theorem bounded_construct (size : ℕ) (pattern : LossPattern) :
    (construct pattern).Bounded size where
  position := rfl
  stored := Nat.zero_le size
  buffered := by simp [construct]

theorem Bounded.receivePacket (h : s.Bounded size) (a : Arrival) :
    (s.receivePacket a).1.Bounded size :=
  ⟨h.position, h.stored, h.buffered⟩

theorem Bounded.takeEarly (h : s.Bounded size) (bound : size < 2 ^ 31 - 1)
    (hfind : s.buffer[s.ackedPosition + 1]? = some early) : (s.takeEarly early).Bounded size := by
  have hpos := h.position
  have hwithin := h.buffered _ _ hfind
  refine ⟨?_, ?_, fun key other hother => ?_⟩
  · rw [takeEarly_ackedPosition, takeEarly_recvData, narrow_of_mem (by omega) (by omega), hpos,
      List.length_append, Nat.cast_add]
  · rw [takeEarly_recvData, List.length_append]
    omega
  · rw [getElem?_takeEarly] at hother
    split_ifs at hother
    exact h.buffered key other hother

theorem Bounded.storeEarlyData (h : s.Bounded size) (bound : size < 2 ^ 31 - 1)
    (within : packet.Within size) (behind : List UInt8) :
    (s.storeEarlyData (asInt packet.seqNum) (packet.data ++ behind) packet.dataLen.toNat
      packet.fin).Bounded size := by
  refine ⟨h.position, h.stored, fun key early hearly => ?_⟩
  change (s.buffer.insert _ _)[key]? = some early at hearly
  rw [Std.ExtTreeMap.getElem?_insert] at hearly
  split_ifs at hearly with hkey
  · obtain rfl : asInt packet.seqNum = key := by simpa using hkey
    obtain rfl := Option.some.inj hearly
    have hpos := within.seqNum_pos
    have hwithin := within.within
    rw [asInt_of_lt (by omega), length_bytesAt]
    omega
  · exact h.buffered key early hearly

theorem Bounded.processPacket (h : s.Bounded size) (within : packet.Within size)
    (next : packet.seqNum.toNat = s.recvData.length + 1) (behind : List UInt8) :
    (s.processPacket packet behind).Bounded size := by
  have hlength : (s.processPacket packet behind).recvData.length =
      s.recvData.length + packet.dataLen.toNat := by
    change (s.recvData ++ bytesAt _ packet.dataLen.toNat).length = _
    rw [List.length_append, length_bytesAt]
  have hwithin := within.within
  refine ⟨?_, by omega, h.buffered⟩
  change s.ackedPosition + packet.dataLen.toNat = _
  rw [hlength, h.position, Nat.cast_add]

/-- The comparisons of a pass, on integers without bounds. -/
theorem Bounded.toNat_next (h : s.Bounded size) (bound : size < 2 ^ 31 - 1) :
    ((toWord (s.ackedPosition + 1)).toNat : ℤ) = s.ackedPosition + 1 := by
  have hpos := h.position
  have hstored := h.stored
  rw [toNat_toWord_of_lt (by omega) (by omega)]
  omega

/-- The packet that is expected begins behind what the receiver holds. -/
theorem Bounded.expected (h : s.Bounded size) (bound : size < 2 ^ 31 - 1)
    (expected : packet.seqNum = toWord (s.ackedPosition + 1)) :
    packet.seqNum.toNat = s.recvData.length + 1 := by
  have hnext := h.toNat_next bound
  have hpos := h.position
  rw [← expected] at hnext
  omega

theorem Bounded.handle (h : s.Bounded size) (bound : size < 2 ^ 31 - 1)
    (within : packet.Within size) (behind : List UInt8) :
    (s.handle packet behind).1.Bounded size := by
  rcases s.handle_cases packet behind with ⟨-, heq⟩ | ⟨-, heq⟩ | ⟨hexpected, heq⟩ <;>
    rw [heq]
  · exact h.storeEarlyData bound within behind
  · exact h
  · have hstored := h.processPacket within (h.expected bound hexpected) behind
    exact (checkEarlyData_rule hstored fun _ _ hs hfind => hs.takeEarly bound hfind).1

theorem Bounded.receiveStep (h : s.Bounded size) (bound : size < 2 ^ 31 - 1) {a : Arrival}
    (within : a.packet.Within size) : (s.receiveStep a).1.Bounded size := by
  by_cases hdrop : (s.toLossFilter.count a).2 = -1
  · rw [receiveStep_of_drop hdrop]
    exact h.receivePacket a
  · rw [receiveStep_of_pass hdrop]
    exact (h.receivePacket a).handle bound within a.behind

end Bounded

end ReceiverStateMachine

end Comnet.MP2
