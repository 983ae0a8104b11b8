/-
# Datagrams of any shape

Whatever arrives is laid over a zeroed packet as far as it goes, and how far that is decides
nothing: the receiver believes the length field. In order it reads as many bytes as
the field says; early it reads a string, to its end, and fills it up to the field.
So a datagram is handled soundly when its field counts bytes that it carries and, early,
when a string ends among these.
-/

import Comnet.Foundations.Transition
import Comnet.MP2.Receiver

set_option autoImplicit false

namespace Comnet.MP2

open Foundations

/-- The value of some bytes with the least significant one first. -/
def littleEndian (bytes : List UInt8) : ℕ :=
  bytes.foldr (fun byte value => byte.toNat + 256 * value) 0

/-- The size of a packet, and of what stands in front of its payload. -/
abbrev packetSize : ℕ := 112

abbrev headerSize : ℕ := 12

/-- A zeroed packet after a datagram has been laid over it. -/
def Packet.ofBytes (bytes : List UInt8) : Packet where
  seqNum := UInt32.ofNat (littleEndian (bytesAt bytes 4))
  ackNum := UInt32.ofNat (littleEndian (bytesAt (bytes.drop 4) 4))
  dataLen := UInt16.ofNat (littleEndian (bytesAt (bytes.drop 8) 2))
  ack := bytes.getD 10 0 ≠ 0
  fin := bytes.getD 11 0 ≠ 0
  data := (bytesAt bytes packetSize).drop headerSize
  length_data := by
    rw [List.length_drop, length_bytesAt]
    rfl

/-- A datagram, and what the receiver finds around it. -/
structure Datagram where
  bytes : List UInt8
  /-- The bytes that follow the payload in memory. -/
  behind : List UInt8
  /-- What an element of `specificPackets` past its end reads as. -/
  stray : ℤ
  /-- `sendTo` throws on the answer. -/
  throws : Bool

namespace Datagram

/-- What `recvFrom` makes of a datagram: it keeps no more than a packet. -/
def arrival (d : Datagram) : Arrival where
  packet := .ofBytes d.bytes
  bytesRead := (min d.bytes.length packetSize : ℕ)
  behind := d.behind
  stray := d.stray
  throws := d.throws

/-- The bytes of the payload that the peer has sent in the datagram. -/
def payload (d : Datagram) : List UInt8 := (d.bytes.take packetSize).drop headerSize

theorem length_payload (d : Datagram) :
    d.payload.length = min d.bytes.length packetSize - headerSize := by
  rw [payload, List.length_drop, List.length_take, Nat.min_comm]

/-- The payload of the packet begins with what the peer has sent. -/
theorem payload_isPrefix (d : Datagram) : d.payload <+: d.arrival.packet.data := by
  change d.payload <+: (bytesAt d.bytes packetSize).drop headerSize
  rw [bytesAt_eq_take_append, List.drop_append]
  exact List.prefix_append _ _

end Datagram

namespace ReceiverStateMachine

/-- A pass of the loop of `receive` with a datagram; there is none after the data is complete. -/
def arrive (s : ReceiverStateMachine) (d : Datagram) : Option ReceiverStateMachine :=
  if s.fin then none else some (s.receiveStep d.arrival).1

/-- The loss pattern lets the datagram through. -/
def Passes (s : ReceiverStateMachine) (d : Datagram) : Prop :=
  (s.toLossFilter.count d.arrival).2 ≠ -1

/-- The segment is ahead of its turn. -/
def Early (s : ReceiverStateMachine) (packet : Packet) : Prop :=
  packet.seqNum > toWord (s.ackedPosition + 1)

/-- The segment has been received before. -/
def Old (s : ReceiverStateMachine) (packet : Packet) : Prop :=
  packet.seqNum < toWord (s.ackedPosition + 1)

instance (s : ReceiverStateMachine) (d : Datagram) : Decidable (s.Passes d) :=
  inferInstanceAs (Decidable ((s.toLossFilter.count d.arrival).2 ≠ -1))

instance (s : ReceiverStateMachine) (packet : Packet) : Decidable (s.Early packet) :=
  inferInstanceAs (Decidable (packet.seqNum > toWord (s.ackedPosition + 1)))

instance (s : ReceiverStateMachine) (packet : Packet) : Decidable (s.Old packet) :=
  inferInstanceAs (Decidable (packet.seqNum < toWord (s.ackedPosition + 1)))

/-- The bytes of the payload that are read: those that `saveData` copies, or those of the
string that `storeEarlyData` makes, with the byte that ends it. -/
def Reads (s : ReceiverStateMachine) (a : Arrival) (i : ℕ) : Prop :=
  (s.Early a.packet ∧ i ≤ strlen (a.packet.data ++ a.behind)) ∨
    (¬ s.Early a.packet ∧ ¬ s.Old a.packet ∧ i < a.packet.dataLen.toNat)

/-- What is appended to the data, or buffered to be appended later. -/
def taken (s : ReceiverStateMachine) (a : Arrival) : List UInt8 :=
  if s.Early a.packet then bytesAt (cString (a.packet.data ++ a.behind)) a.packet.dataLen.toNat
  else if s.Old a.packet then []
  else bytesAt (a.packet.data ++ a.behind) a.packet.dataLen.toNat

/-- The pass reads nothing but what the peer has sent in the datagram, and takes nothing
else from it. -/
structure Sound (s : ReceiverStateMachine) (d : Datagram) : Prop where
  reads : s.Passes d → ∀ i, s.Reads d.arrival i →
    i < 100 ∧ (i : ℤ) < d.arrival.bytesRead - headerSize
  taken : s.Passes d → s.taken d.arrival <+: d.payload

/-- The length field counts bytes that were sent and, where the segment is early, a string
ends among these and nothing but zeros stands behind its end as far as the field counts. -/
def Carried (s : ReceiverStateMachine) (d : Datagram) : Prop :=
  s.Passes d → ¬ s.Old d.arrival.packet →
    d.arrival.packet.dataLen.toNat ≤ d.payload.length ∧
      (s.Early d.arrival.packet → ¬ NoNul d.payload ∧
        ZeroPadded (d.payload.take d.arrival.packet.dataLen.toNat))

instance (s : ReceiverStateMachine) (d : Datagram) : Decidable (s.Carried d) :=
  inferInstanceAs (Decidable (s.Passes d → ¬ s.Old d.arrival.packet →
    d.arrival.packet.dataLen.toNat ≤ d.payload.length ∧
      (s.Early d.arrival.packet → ¬ NoNul d.payload ∧
        ZeroPadded (d.payload.take d.arrival.packet.dataLen.toNat))))

variable {s t : ReceiverStateMachine} {d : Datagram} {ds : List Datagram}

/-- Both bounds on an index are bounds by what was sent. -/
theorem within_iff {i : ℕ} :
    (i < 100 ∧ (i : ℤ) < d.arrival.bytesRead - headerSize) ↔ i < d.payload.length := by
  have hread : d.arrival.bytesRead = (min d.bytes.length packetSize : ℕ) := rfl
  rw [hread, d.length_payload]
  unfold packetSize headerSize
  omega

/-- A string read from the packet ends among the bytes sent exactly when a zero byte is
among these. -/
theorem strlen_arrival_lt_iff :
    strlen (d.arrival.packet.data ++ d.arrival.behind) < d.payload.length ↔
      ¬ NoNul d.payload := by
  obtain ⟨rest, hrest⟩ := d.payload_isPrefix
  rw [← hrest, List.append_assoc, strlen_append_lt_iff]

/-- The string of an early segment, filled up to the length field, is what was sent exactly
when the field counts no more than that and nothing but zeros stands behind the string. -/
theorem taken_early_iff {len : ℕ} (ends : ¬ NoNul d.payload) :
    bytesAt (cString (d.arrival.packet.data ++ d.arrival.behind)) len <+: d.payload ↔
      len ≤ d.payload.length ∧ ZeroPadded (d.payload.take len) := by
  obtain ⟨rest, hrest⟩ := d.payload_isPrefix
  rw [← hrest, List.append_assoc, cString_append_of_nul ends, List.prefix_iff_eq_take,
    length_bytesAt]
  constructor
  · intro heq
    have hlen : len ≤ d.payload.length := by
      have := congrArg List.length heq
      rw [length_bytesAt, List.length_take] at this
      omega
    refine ⟨hlen, ?_⟩
    rw [← @bytesAt_cString_eq_iff _ (d.payload.drop len), List.take_append_drop,
      List.length_take, Nat.min_eq_left hlen]
    exact heq
  · rintro ⟨hlen, hpadded⟩
    rw [← @bytesAt_cString_eq_iff _ (d.payload.drop len), List.take_append_drop,
      List.length_take, Nat.min_eq_left hlen] at hpadded
    exact hpadded

/-- A segment that is ahead of its turn is none that has been received before. -/
theorem Early.not_old {packet : Packet} (h : s.Early packet) : ¬ s.Old packet := fun hold =>
  UInt32.lt_irrefl _ (UInt32.lt_trans h hold)

theorem reads_early_iff (h : s.Early d.arrival.packet) :
    (∀ i, s.Reads d.arrival i → i < d.payload.length) ↔ ¬ NoNul d.payload := by
  rw [← strlen_arrival_lt_iff]
  constructor
  · exact fun hreads => hreads _ (Or.inl ⟨h, le_rfl⟩)
  · rintro hlt i (⟨-, hi⟩ | ⟨hnot, -⟩)
    · exact hi.trans_lt hlt
    · exact absurd h hnot

theorem reads_expected_iff (notEarly : ¬ s.Early d.arrival.packet)
    (notOld : ¬ s.Old d.arrival.packet) :
    (∀ i, s.Reads d.arrival i → i < d.payload.length) ↔
      d.arrival.packet.dataLen.toNat ≤ d.payload.length := by
  constructor
  · intro hreads
    by_contra hlt
    exact lt_irrefl _ (hreads _ (Or.inr ⟨notEarly, notOld, not_le.mp hlt⟩))
  · rintro hle i (⟨hearly, -⟩ | ⟨-, -, hi⟩)
    · exact absurd hearly notEarly
    · exact hi.trans_le hle

theorem not_reads_old (h : s.Old d.arrival.packet) (i : ℕ) : ¬ s.Reads d.arrival i := by
  rintro (⟨hearly, -⟩ | ⟨-, hnew, -⟩)
  · exact hearly.not_old h
  · exact hnew h

/-- As many bytes as the length field counts are what was sent if that many were. -/
theorem taken_expected_isPrefix (h : d.arrival.packet.dataLen.toNat ≤ d.payload.length) :
    bytesAt (d.arrival.packet.data ++ d.arrival.behind) d.arrival.packet.dataLen.toNat <+:
      d.payload := by
  obtain ⟨rest, hrest⟩ := d.payload_isPrefix
  rw [← hrest, List.append_assoc, bytesAt_eq_take (h.trans (List.prefix_append _ _).length_le),
    List.take_append_of_le_length h]
  exact List.take_prefix _ _

/-- A pass is sound exactly when the datagram carries what its field counts. -/
theorem sound_iff : s.Sound d ↔ s.Carried d := by
  by_cases hpass : s.Passes d
  · have hsound : s.Sound d ↔ (∀ i, s.Reads d.arrival i → i < d.payload.length) ∧
        s.taken d.arrival <+: d.payload := by
      refine ⟨fun h => ⟨fun i hi => within_iff.mp (h.reads hpass i hi), h.taken hpass⟩, ?_⟩
      exact fun h => ⟨fun _ i hi => within_iff.mpr (h.1 i hi), fun _ => h.2⟩
    rw [hsound, Carried, taken]
    simp only [hpass, forall_const]
    by_cases hearly : s.Early d.arrival.packet
    · rw [reads_early_iff hearly, if_pos hearly]
      simp only [hearly, hearly.not_old, not_false_eq_true, forall_const]
      constructor
      · rintro ⟨hends, hprefix⟩
        obtain ⟨hlen, hpadded⟩ := (taken_early_iff hends).mp hprefix
        exact ⟨hlen, hends, hpadded⟩
      · rintro ⟨hlen, hends, hpadded⟩
        exact ⟨hends, (taken_early_iff hends).mpr ⟨hlen, hpadded⟩⟩
    · rw [if_neg hearly]
      by_cases hold : s.Old d.arrival.packet
      · rw [if_pos hold]
        exact iff_of_true ⟨fun i hi => absurd hi (not_reads_old hold i), List.nil_prefix⟩
          fun hnew => absurd hold hnew
      · rw [if_neg hold, reads_expected_iff hearly hold]
        simp only [hearly, hold, not_false_eq_true, forall_const, false_imp_iff, and_true]
        exact and_iff_left_of_imp taken_expected_isPrefix
  · exact iff_of_true ⟨fun h => absurd h hpass, fun h => absurd h hpass⟩
      fun h => absurd h hpass

/-- The data is put together from pieces of one kind, and so is what is buffered. -/
structure MadeOf (piece : List UInt8 → Prop) (s : ReceiverStateMachine) : Prop where
  stored : ∃ pieces : List (List UInt8), s.recvData = pieces.flatten ∧ ∀ p ∈ pieces, piece p
  buffered : ∀ (key : ℤ) (early : List UInt8 × Bool), s.buffer[key]? = some early → piece early.1

variable {piece : List UInt8 → Prop}

theorem MadeOf.append (h : s.MadeOf piece) {bytes : List UInt8} (hpiece : piece bytes) :
    ∃ pieces : List (List UInt8), s.recvData ++ bytes = pieces.flatten ∧ ∀ p ∈ pieces, piece p := by
  obtain ⟨pieces, hdata, hall⟩ := h.stored
  refine ⟨pieces ++ [bytes], by rw [hdata]; simp, fun p hp => ?_⟩
  rcases List.mem_append.mp hp with hold | hnew
  · exact hall p hold
  · exact List.mem_singleton.mp hnew ▸ hpiece

theorem MadeOf.takeEarly (h : s.MadeOf piece) {early : List UInt8 × Bool}
    (hfind : s.buffer[s.ackedPosition + 1]? = some early) : (s.takeEarly early).MadeOf piece := by
  refine ⟨?_, fun key other hother => ?_⟩
  · rw [takeEarly_recvData]
    exact h.append (h.buffered _ _ hfind)
  · rw [getElem?_takeEarly] at hother
    split_ifs at hother
    exact h.buffered key other hother

/-- What is taken from a packet is all that handling it adds. -/
theorem MadeOf.handle (h : s.MadeOf piece) {a : Arrival} (hpiece : piece (s.taken a)) :
    (s.handle a.packet a.behind).1.MadeOf piece := by
  rcases s.handle_cases a.packet a.behind with ⟨hearly, heq⟩ | ⟨-, heq⟩ | ⟨hexpected, heq⟩ <;>
    rw [heq]
  · have htaken : s.taken a =
        bytesAt (cString (a.packet.data ++ a.behind)) a.packet.dataLen.toNat := if_pos hearly
    refine ⟨h.stored, fun key early hother => ?_⟩
    change (s.buffer.insert _ _)[key]? = some early at hother
    rw [Std.ExtTreeMap.getElem?_insert] at hother
    split_ifs at hother
    · rw [← Option.some.inj hother]
      exact htaken ▸ hpiece
    · exact h.buffered key early hother
  · exact h
  · have hearly : ¬ s.Early a.packet := fun hearly => UInt32.ne_of_lt hearly hexpected.symm
    have hold : ¬ s.Old a.packet := fun hold => UInt32.ne_of_lt hold hexpected
    have htaken : s.taken a = bytesAt (a.packet.data ++ a.behind) a.packet.dataLen.toNat :=
      (if_neg hearly).trans (if_neg hold)
    have hstored : (s.processPacket a.packet a.behind).MadeOf piece :=
      ⟨h.append (htaken ▸ hpiece), h.buffered⟩
    exact (checkEarlyData_rule hstored fun _ _ hs hfind => hs.takeEarly hfind).1

theorem MadeOf.receiveStep (h : s.MadeOf piece) (hpiece : s.Passes d → piece (s.taken d.arrival)) :
    (s.receiveStep d.arrival).1.MadeOf piece := by
  have hreceived : (s.receivePacket d.arrival).1.MadeOf piece := ⟨h.stored, h.buffered⟩
  by_cases hpass : s.Passes d
  · rw [receiveStep_of_pass hpass]
    exact hreceived.handle (hpiece hpass)
  · rw [receiveStep_of_drop (not_not.mp hpass)]
    exact hreceived

/-- In a run of the receiver every pass is sound, and the data received are pieces of the
payloads that the peer has sent. -/
structure SoundRun (pattern : LossPattern) (ds : List Datagram) : Prop where
  passes : AllSteps arrive Sound (construct pattern) ds
  origin : ∀ t, run arrive (construct pattern) ds = some t →
    t.MadeOf fun piece => ∃ d ∈ ds, piece <+: d.payload

theorem madeOf_construct (piece : List UInt8 → Prop) (pattern : LossPattern) :
    (construct pattern).MadeOf piece :=
  ⟨⟨[], rfl, fun _ h => absurd h List.not_mem_nil⟩, by simp [construct]⟩

theorem madeOf_run (pattern : LossPattern)
    (h : AllSteps arrive Sound (construct pattern) ds)
    (hrun : run arrive (construct pattern) ds = some t) :
    t.MadeOf fun piece => ∃ d ∈ ds, piece <+: d.payload := by
  have hlabels : AllSteps arrive (fun _ d => d ∈ ds) (construct pattern) ds :=
    AllSteps.of_labels fun d hd => hd
  refine (allStates_of_allSteps (madeOf_construct _ pattern) ?_ (h.and hlabels)).last hrun
  rintro s d next hs ⟨hsound, hmem⟩ hstep
  unfold arrive at hstep
  split_ifs at hstep
  obtain rfl := Option.some.inj hstep
  exact hs.receiveStep fun hpass => ⟨d, hmem, hsound.taken hpass⟩

/-- A run of the receiver reads and takes nothing but what the peer has sent exactly when every
datagram that it handles carries what its length field counts. -/
theorem soundRun_iff (pattern : LossPattern) (ds : List Datagram) :
    SoundRun pattern ds ↔ AllSteps arrive Carried (construct pattern) ds := by
  have hsteps : AllSteps arrive Sound (construct pattern) ds ↔
      AllSteps arrive Carried (construct pattern) ds :=
    ⟨fun h => h.mono fun _ _ => sound_iff.mp, fun h => h.mono fun _ _ => sound_iff.mpr⟩
  rw [← hsteps]
  exact ⟨SoundRun.passes, fun h => ⟨h, fun t hrun => madeOf_run pattern h hrun⟩⟩

/-- A segment in order whose field counts one byte, without any. -/
def truncated : Datagram := ⟨[1, 0, 0, 0, 0, 0, 0, 0, 1, 0, 0, 0], [], 0, false⟩

/-- The receiver stores a byte that was not sent. -/
theorem soundRun_truncated : ¬ ∀ (pattern : LossPattern) (ds : List Datagram),
    SoundRun pattern ds := by
  intro h
  have hsound := ((h .none [truncated]).passes _ rfl).1
  have hpass : (construct .none).Passes truncated := by decide +kernel
  have hread : (construct .none).Reads truncated.arrival 0 := Or.inr (by decide +kernel)
  have hless := (hsound.reads hpass 0 hread).2
  revert hless
  decide +kernel

end ReceiverStateMachine

end Comnet.MP2
