/-
# Packets as bytes

What is handed to `sendTo` is the memory of a packet, and what arrives is laid over one. The
network carries nothing but bytes. A packet is got back from its bytes, so the pair with packets
in flight and the pair with bytes in flight take the same steps.
-/

import Comnet.MP2.Datagram
import Comnet.MP2.Transfer

set_option autoImplicit false

namespace Comnet.MP2

open Foundations

/-- So many bytes of a value, the least significant one first. -/
def toLittleEndian : ℕ → ℕ → List UInt8
  | 0, _ => []
  | width + 1, value => UInt8.ofNat value :: toLittleEndian width (value / 256)

@[simp] theorem length_toLittleEndian (width value : ℕ) :
    (toLittleEndian width value).length = width := by
  induction width generalizing value with
  | zero => rfl
  | succ width ih => rw [toLittleEndian, List.length_cons, ih]

/-- The bytes of a value that fits are read back as the value. -/
theorem littleEndian_toLittleEndian {width value : ℕ} (h : value < 256 ^ width) :
    littleEndian (toLittleEndian width value) = value := by
  induction width generalizing value with
  | zero => exact (Nat.lt_one_iff.mp h).symm
  | succ width ih =>
    have hrest : value / 256 < 256 ^ width := by
      rw [pow_succ, Nat.mul_comm] at h
      exact Nat.div_lt_of_lt_mul h
    have hread := ih hrest
    rw [toLittleEndian]
    change (UInt8.ofNat value).toNat + 256 * littleEndian (toLittleEndian width (value / 256)) =
      value
    rw [hread, UInt8.toNat_ofNat']
    omega

namespace Packet

/-- The memory of a packet. -/
def toBytes (packet : Packet) : List UInt8 :=
  toLittleEndian 4 packet.seqNum.toNat ++ (toLittleEndian 4 packet.ackNum.toNat ++
    (toLittleEndian 2 packet.dataLen.toNat ++
      (packet.ack.toUInt8 :: packet.fin.toUInt8 :: packet.data)))

variable (packet : Packet)

@[simp] theorem length_toBytes : packet.toBytes.length = packetSize := by
  simp [toBytes, packet.length_data]

theorem drop_four : packet.toBytes.drop 4 = toLittleEndian 4 packet.ackNum.toNat ++
    (toLittleEndian 2 packet.dataLen.toNat ++
      (packet.ack.toUInt8 :: packet.fin.toUInt8 :: packet.data)) :=
  List.drop_left' (length_toLittleEndian _ _)

theorem drop_eight : packet.toBytes.drop 8 = toLittleEndian 2 packet.dataLen.toNat ++
    (packet.ack.toUInt8 :: packet.fin.toUInt8 :: packet.data) := by
  rw [show 8 = 4 + 4 from rfl, ← List.drop_drop, drop_four]
  exact List.drop_left' (length_toLittleEndian _ _)

theorem drop_ten : packet.toBytes.drop 10 =
    packet.ack.toUInt8 :: packet.fin.toUInt8 :: packet.data := by
  rw [show 10 = 8 + 2 from rfl, ← List.drop_drop, drop_eight]
  exact List.drop_left' (length_toLittleEndian _ _)

theorem getD_toBytes (i : ℕ) : packet.toBytes.getD (10 + i) 0 =
    (packet.ack.toUInt8 :: packet.fin.toUInt8 :: packet.data).getD i 0 := by
  rw [List.getD_eq_getElem?_getD, List.getD_eq_getElem?_getD, ← drop_ten, List.getElem?_drop]

theorem toUInt8_ne_zero (flag : Bool) : decide (flag.toUInt8 ≠ 0) = flag := by
  cases flag <;> rfl

/-- A packet is got back from its bytes. -/
theorem ofBytes_toBytes : ofBytes packet.toBytes = packet := by
  -- each field is read at its offset, where what is in front of it has been dropped
  have hread : ∀ {width value : ℕ} {rest : List UInt8}, value < 256 ^ width →
      littleEndian (bytesAt (toLittleEndian width value ++ rest) width) = value := by
    intro width value rest hfits
    rw [bytesAt_append (length_toLittleEndian _ _), littleEndian_toLittleEndian hfits]
  have hseqNum : (ofBytes packet.toBytes).seqNum = packet.seqNum := by
    change UInt32.ofNat (littleEndian (bytesAt packet.toBytes 4)) = _
    rw [toBytes, hread packet.seqNum.toNat_lt, UInt32.ofNat_toNat]
  have hackNum : (ofBytes packet.toBytes).ackNum = packet.ackNum := by
    change UInt32.ofNat (littleEndian (bytesAt (packet.toBytes.drop 4) 4)) = _
    rw [drop_four, hread packet.ackNum.toNat_lt, UInt32.ofNat_toNat]
  have hdataLen : (ofBytes packet.toBytes).dataLen = packet.dataLen := by
    change UInt16.ofNat (littleEndian (bytesAt (packet.toBytes.drop 8) 2)) = _
    rw [drop_eight, hread packet.dataLen.toNat_lt, UInt16.ofNat_toNat]
  have hack : (ofBytes packet.toBytes).ack = packet.ack := by
    change decide (packet.toBytes.getD (10 + 0) 0 ≠ 0) = _
    rw [getD_toBytes]
    exact toUInt8_ne_zero _
  have hfin : (ofBytes packet.toBytes).fin = packet.fin := by
    change decide (packet.toBytes.getD (10 + 1) 0 ≠ 0) = _
    rw [getD_toBytes]
    exact toUInt8_ne_zero _
  have hdata : (ofBytes packet.toBytes).data = packet.data := by
    change (bytesAt packet.toBytes packetSize).drop headerSize = _
    rw [bytesAt_eq_take packet.length_toBytes.ge, List.take_of_length_le packet.length_toBytes.le,
      show headerSize = 10 + 2 from rfl, ← List.drop_drop, drop_ten]
    rfl
  rcases packet with ⟨seqNum, ackNum, dataLen, ack, fin, data, length_data⟩
  simp only [ofBytes, Packet.mk.injEq] at *
  exact ⟨hseqNum, hackNum, hdataLen, hack, hfin, hdata⟩

end Packet

/-- The pair with bytes in flight. -/
structure ByteTransfer where
  sender : Transmission
  receiver : ReceiverStateMachine
  /-- What is in flight to the receiver. -/
  datagrams : List (List UInt8)
  /-- What is in flight to the sender. -/
  answers : List (List UInt8)

namespace ByteTransfer

/-- A turn of the sender. -/
def senderTurn (t : ByteTransfer) (turn : Turn) : Option ByteTransfer :=
  (t.sender.step turn).map fun sender =>
    { t with
      sender := sender
      datagrams := t.datagrams ++ (t.sender.wire turn).map Packet.toBytes }

/-- A pass of the receiver over a datagram. -/
def receiverPass (t : ByteTransfer) (d : Datagram) : ByteTransfer :=
  let (receiver, answer) := t.receiver.receiveStep d.arrival
  { t with
    receiver := receiver
    answers := t.answers ++ if d.throws then [] else (answer.map Packet.toBytes).toList }

/-- A step of the pair, with both parties reading packets off the bytes that arrive. -/
def step (t : ByteTransfer) : Event → Option ByteTransfer
  | .send f => t.senderTurn (.send f)
  | .timeout f => t.senderTurn (.receive none f)
  | .ackArrives index f =>
    match deliver index t.answers with
    | some (bytes, rest) => { t with answers := rest }.senderTurn
        (.receive (some (Packet.ofBytes bytes)) f)
    | none => none
  | .packetArrives index behind stray throws =>
    if t.receiver.fin then none
    else
      match deliver index t.datagrams with
      | some (bytes, rest) =>
        some ({ t with datagrams := rest }.receiverPass ⟨bytes, behind, stray, throws⟩)
      | none => none
  | .packetFault fault => some { t with datagrams := fault.apply t.datagrams }
  | .ackFault fault => some { t with answers := fault.apply t.answers }

end ByteTransfer

namespace Transfer

/-- The pair with the packets in flight as bytes. -/
def onWire (t : Transfer) : ByteTransfer where
  sender := t.sender
  receiver := t.receiver
  datagrams := t.packets.map Packet.toBytes
  answers := t.acks.map Packet.toBytes

variable (t : Transfer)

/-- A packet that arrives as its bytes arrives whole. -/
theorem arrival_toBytes (packet : Packet) (behind : List UInt8) (stray : ℤ) (throws : Bool) :
    Datagram.arrival ⟨packet.toBytes, behind, stray, throws⟩ =
      ⟨packet, 112, behind, stray, throws⟩ := by
  simp [Datagram.arrival, packet.ofBytes_toBytes]

theorem senderTurn_onWire (turn : Turn) :
    t.onWire.senderTurn turn = (t.senderTurn turn).map onWire := by
  simp only [ByteTransfer.senderTurn, senderTurn, Option.map_map]
  refine congrArg (Option.map · (t.sender.step turn)) (funext fun sender => ?_)
  simp only [onWire, Function.comp_apply, List.map_append]

theorem receiverPass_onWire (packet : Packet) (behind : List UInt8) (stray : ℤ)
    (throws : Bool) : t.onWire.receiverPass ⟨packet.toBytes, behind, stray, throws⟩ =
      (t.receiverPass packet behind stray throws).onWire := by
  simp only [ByteTransfer.receiverPass, receiverPass, arrival_toBytes, onWire]
  cases throws <;> simp [Option.toList_map]

/-- Both pairs take the same steps. -/
theorem step_onWire (event : Event) : t.onWire.step event = (t.step event).map onWire := by
  cases event with
  | send f => exact t.senderTurn_onWire _
  | timeout f => exact t.senderTurn_onWire _
  | ackArrives index f =>
    have hdeliver : deliver index t.onWire.answers = (deliver index t.acks).map
        fun delivered => (delivered.1.toBytes, delivered.2.map Packet.toBytes) := deliver_map _
    simp only [ByteTransfer.step, step, hdeliver]
    cases deliver index t.acks with
    | none => rfl
    | some delivered =>
      rw [Option.map_some]
      dsimp only
      rw [Packet.ofBytes_toBytes]
      exact senderTurn_onWire { t with acks := delivered.2 } _
  | packetArrives index behind stray throws =>
    have hdeliver : deliver index t.onWire.datagrams = (deliver index t.packets).map
        fun delivered => (delivered.1.toBytes, delivered.2.map Packet.toBytes) := deliver_map _
    have hfin : t.onWire.receiver.fin = t.receiver.fin := rfl
    simp only [ByteTransfer.step, step, hdeliver, hfin]
    split_ifs
    · rfl
    · cases deliver index t.packets with
      | none => rfl
      | some delivered =>
        rw [Option.map_some]
        dsimp only
        rw [Option.map_some]
        exact congrArg some
          (receiverPass_onWire { t with packets := delivered.2 } delivered.1 behind stray throws)
  | packetFault fault =>
    exact congrArg some (congrArg (fun datagrams => { t.onWire with datagrams := datagrams })
      (apply_map _))
  | ackFault fault =>
    exact congrArg some (congrArg (fun answers => { t.onWire with answers := answers })
      (apply_map _))

/-- **Refinement.** A packet is got back from its 112 bytes, and the pair with bytes in flight
runs exactly as the pair with packets in flight. -/
theorem run_onWire : (∀ packet : Packet, packet.toBytes.length = packetSize ∧
      Packet.ofBytes packet.toBytes = packet) ∧
    ∀ events : List Event,
      run ByteTransfer.step t.onWire events = (run step t events).map onWire :=
  ⟨fun packet => ⟨packet.length_toBytes, packet.ofBytes_toBytes⟩,
    fun events => run_map onWire step_onWire t events⟩

end Transfer

end Comnet.MP2
