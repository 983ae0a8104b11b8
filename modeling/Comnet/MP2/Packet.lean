/-
# The packet of the transfer protocol

Data segments and acknowledgements share one layout. The payload array always
has its hundred bytes; how many of them count is `dataLen`, which the wire
carries as it was sent.
-/

import Comnet.Foundations.CString
import Comnet.Foundations.Slice

set_option autoImplicit false

namespace Comnet.MP2

open Foundations

/-- A datagram of the protocol. -/
structure Packet where
  seqNum : UInt32
  ackNum : UInt32
  dataLen : UInt16
  ack : Bool
  fin : Bool
  data : List UInt8
  length_data : data.length = 100
  deriving DecidableEq

namespace Packet

/-- The zeroed packet that both sides start from. -/
def zero : Packet where
  seqNum := 0
  ackNum := 0
  dataLen := 0
  ack := false
  fin := false
  data := List.replicate 100 0
  length_data := List.length_replicate

/-- Fill the payload array from the start of some bytes. -/
def copyData (packet : Packet) (bytes : List UInt8) : Packet :=
  { packet with data := bytesAt bytes 100, length_data := length_bytesAt bytes 100 }

/-- A data segment as a sender fills it in. -/
def segment (seqNum : UInt32) (bytes : List UInt8) (fin : Bool) : Packet :=
  { zero with seqNum := seqNum, dataLen := UInt16.ofNat bytes.length, fin := fin }.copyData bytes

/-- An acknowledgement of everything before a position. -/
def acknowledgement (ackNum : UInt32) : Packet := { zero with ackNum := ackNum, ack := true }

/-- The bytes of the payload that the length field counts. -/
def payload (packet : Packet) : List UInt8 := packet.data.take packet.dataLen.toNat

variable {packet : Packet}

@[simp] theorem seqNum_copyData (bytes : List UInt8) :
    (packet.copyData bytes).seqNum = packet.seqNum := rfl

@[simp] theorem dataLen_copyData (bytes : List UInt8) :
    (packet.copyData bytes).dataLen = packet.dataLen := rfl

@[simp] theorem fin_copyData (bytes : List UInt8) :
    (packet.copyData bytes).fin = packet.fin := rfl

theorem length_payload (h : packet.dataLen.toNat ≤ 100) :
    packet.payload.length = packet.dataLen.toNat := by
  rw [payload, List.length_take, packet.length_data, Nat.min_eq_left h]

/-- The packet sits where the file puts it: its payload are the bytes of the file
that its sequence number points at, and only a packet that ends with the file
closes the stream. -/
structure Labelled (file : List UInt8) (packet : Packet) : Prop where
  seqNum_pos : 1 ≤ packet.seqNum.toNat
  dataLen_le : packet.dataLen.toNat ≤ 100
  within : packet.seqNum.toNat - 1 + packet.dataLen.toNat ≤ file.length
  payload_eq : packet.payload = (file.drop (packet.seqNum.toNat - 1)).take packet.dataLen.toNat
  fin_at_end : packet.fin = true →
    packet.seqNum.toNat - 1 + packet.dataLen.toNat = file.length

/-- The packet begins behind position zero and ends within so many bytes. -/
structure Within (size : ℕ) (packet : Packet) : Prop where
  seqNum_pos : 1 ≤ packet.seqNum.toNat
  within : packet.seqNum.toNat - 1 + packet.dataLen.toNat ≤ size

variable {file : List UInt8}

theorem Labelled.toWithin (h : packet.Labelled file) : packet.Within file.length :=
  ⟨h.seqNum_pos, h.within⟩

theorem Labelled.slice (h : packet.Labelled file) :
    Slice file (packet.seqNum.toNat - 1) packet.payload := by
  have hlen := length_payload h.dataLen_le
  exact ⟨hlen ▸ h.within, hlen ▸ h.payload_eq⟩

/-- Reading the counted bytes of the payload never looks behind it. -/
theorem bytesAt_data (h : packet.dataLen.toNat ≤ 100) (behind : List UInt8) :
    bytesAt (packet.data ++ behind) packet.dataLen.toNat = packet.payload := by
  have hdata : packet.dataLen.toNat ≤ packet.data.length := packet.length_data ▸ h
  rw [bytesAt_eq_take (hdata.trans (by simp)), List.take_append_of_le_length hdata, payload]

/-- A payload without zero bytes survives the string that an early segment is
stored as, even when the string runs on behind the array. -/
theorem bytesAt_cString_data (h : packet.dataLen.toNat ≤ 100) (noNul : NoNul packet.payload)
    (behind : List UInt8) :
    bytesAt (cString (packet.data ++ behind)) packet.dataLen.toNat = packet.payload := by
  have hsplit : packet.data ++ behind =
      packet.payload ++ (packet.data.drop packet.dataLen.toNat ++ behind) := by
    rw [← List.append_assoc, payload, List.take_append_drop]
  rw [hsplit]
  exact bytesAt_cString noNul (length_payload h)

instance (file : List UInt8) (packet : Packet) : Decidable (packet.Labelled file) :=
  decidable_of_iff (1 ≤ packet.seqNum.toNat ∧ packet.dataLen.toNat ≤ 100 ∧
      packet.seqNum.toNat - 1 + packet.dataLen.toNat ≤ file.length ∧
      packet.payload = (file.drop (packet.seqNum.toNat - 1)).take packet.dataLen.toNat ∧
      (packet.fin = true → packet.seqNum.toNat - 1 + packet.dataLen.toNat = file.length))
    ⟨fun ⟨h₁, h₂, h₃, h₄, h₅⟩ => ⟨h₁, h₂, h₃, h₄, h₅⟩,
      fun ⟨h₁, h₂, h₃, h₄, h₅⟩ => ⟨h₁, h₂, h₃, h₄, h₅⟩⟩

end Packet

end Comnet.MP2
