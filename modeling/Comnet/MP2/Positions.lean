/-
# Positions as machine integers

A position is a word in a packet and in the sender, and a signed integer in the receiver,
as a key of its map and in the local variables of both. Listed here is every position that
a step of either party computes or converts, as an integer without bounds; the step is
exact when each of them fits the type that the code keeps it in.

The signed integers of the receiver are enough for a file of fewer than `2 ^ 31 - 1` bytes.
What does not fit then is the sender's own position: the bytes counted as sent are two
less than there were, so the end of a file that hardly begins takes it below zero.
-/

import Comnet.MP2.Acknowledgement
import Comnet.MP2.Rewinding

set_option autoImplicit false

namespace Comnet.MP2

open Foundations

/-! ## The receiver -/

namespace ReceiverStateMachine

/-- The positions that the draining loop computes: where it looks, and the sum of what it
has and what it finds. -/
def drainPositions : ℕ → ReceiverStateMachine → List ℤ
  | 0, s => [s.ackedPosition + 1]
  | fuel + 1, s =>
    match s.buffer[s.ackedPosition + 1]? with
    | some early =>
      (s.ackedPosition + 1) :: (s.ackedPosition + early.1.length) ::
        drainPositions fuel (s.takeEarly early)
    | none => [s.ackedPosition + 1]

/-- The positions that a pass over a packet computes, all of them signed. -/
def positions (s : ReceiverStateMachine) (packet : Packet) (behind : List UInt8) : List ℤ :=
  -- the key of the buffer, and the parameters of the acknowledgement
  [(packet.seqNum.toNat : ℤ), s.ackedPosition + 1, (s.handle packet behind).1.ackedPosition + 1] ++
    if packet.seqNum = toWord (s.ackedPosition + 1) then
      (s.ackedPosition + packet.dataLen.toNat) ::
        drainPositions (s.processPacket packet behind).buffer.size (s.processPacket packet behind)
    else []

/-- Every position of a pass fits, and the comparisons come out as on integers without
bounds. -/
structure PositionsExact (s : ReceiverStateMachine) (packet : Packet) (behind : List UInt8) :
    Prop where
  fits : ∀ position ∈ s.positions packet behind, FitsInt position
  early : packet.seqNum > toWord (s.ackedPosition + 1) ↔
    (packet.seqNum.toNat : ℤ) > s.ackedPosition + 1
  old : packet.seqNum < toWord (s.ackedPosition + 1) ↔
    (packet.seqNum.toNat : ℤ) < s.ackedPosition + 1

variable {s : ReceiverStateMachine} {size : ℕ} {early : List UInt8 × Bool} {packet : Packet}

/-- The position and the one behind it fit. -/
theorem Bounded.fits (h : s.Bounded size) (bound : size < 2 ^ 31 - 1) :
    FitsInt s.ackedPosition ∧ FitsInt (s.ackedPosition + 1) := by
  have hpos := h.position
  have hstored := h.stored
  exact ⟨⟨by omega, by omega⟩, ⟨by omega, by omega⟩⟩

theorem Bounded.drainPositions (h : s.Bounded size) (bound : size < 2 ^ 31 - 1) (fuel : ℕ) :
    ∀ position ∈ drainPositions fuel s, FitsInt position := by
  induction fuel generalizing s with
  | zero => exact fun position hmem => List.mem_singleton.mp hmem ▸ (h.fits bound).2
  | succ fuel ih =>
    intro position hmem
    rw [ReceiverStateMachine.drainPositions] at hmem
    cases hfind : s.buffer[s.ackedPosition + 1]? with
    | none =>
      rw [hfind] at hmem
      exact List.mem_singleton.mp hmem ▸ (h.fits bound).2
    | some early =>
      rw [hfind] at hmem
      have hnext := h.takeEarly bound hfind
      have hwithin := h.buffered _ _ hfind
      rcases List.mem_cons.mp hmem with rfl | hmem
      · exact (h.fits bound).2
      · rcases List.mem_cons.mp hmem with rfl | hmem
        · have hpos := h.position
          exact ⟨by omega, by omega⟩
        · exact ih hnext position hmem

/-- A pass over a packet that ends within fewer than `2 ^ 31 - 1` bytes computes exact positions. -/
theorem Bounded.positionsExact (h : s.Bounded size) (bound : size < 2 ^ 31 - 1)
    (within : packet.Within size) (behind : List UInt8) : s.PositionsExact packet behind := by
  have hnext := h.toNat_next bound
  have hpos := h.position
  have hseqNum := within.seqNum_pos
  have hwithin := within.within
  refine ⟨fun position hmem => ?_, ?_, ?_⟩
  · unfold positions at hmem
    rcases List.mem_append.mp hmem with hmem | hmem
    · simp only [List.mem_cons, List.not_mem_nil, or_false] at hmem
      rcases hmem with rfl | rfl | rfl
      · exact ⟨by omega, by omega⟩
      · exact (h.fits bound).2
      · exact ((h.handle bound within behind).fits bound).2
    · split_ifs at hmem with hexpected
      · have hstored := h.processPacket within (h.expected bound hexpected) behind
        rcases List.mem_cons.mp hmem with rfl | hmem
        · exact (hstored.fits bound).1
        · exact hstored.drainPositions bound _ position hmem
      · exact absurd hmem List.not_mem_nil
  · rw [gt_iff_lt, UInt32.lt_iff_toNat_lt]
    omega
  · rw [UInt32.lt_iff_toNat_lt]
    omega

/-- A draining loop whose positions fit goes on counting what it stores. -/
theorem counted_drain (fuel : ℕ) (h : s.ackedPosition = s.recvData.length)
    (fits : ∀ position ∈ ReceiverStateMachine.drainPositions fuel s, FitsInt position) :
    (drain fuel s).ackedPosition = (drain fuel s).recvData.length := by
  induction fuel generalizing s with
  | zero => exact h
  | succ fuel ih =>
    rw [ReceiverStateMachine.drainPositions] at fits
    rw [drain]
    cases hfind : s.buffer[s.ackedPosition + 1]? with
    | none => exact h
    | some early =>
      rw [hfind] at fits
      have hsum := fits _ (List.mem_cons_of_mem _ List.mem_cons_self)
      have hnext : (s.takeEarly early).ackedPosition = (s.takeEarly early).recvData.length := by
        rw [takeEarly_ackedPosition, takeEarly_recvData, narrow_of_mem hsum.lower hsum.upper, h,
          List.length_append, Nat.cast_add]
      exact ih hnext fun position hmem =>
        fits position (List.mem_cons_of_mem _ (List.mem_cons_of_mem _ hmem))

/-- A pass with exact positions counts what it holds, and that is fewer bytes than a signed
integer counts. -/
theorem PositionsExact.counted {behind : List UInt8} (h : s.PositionsExact packet behind)
    (hposition : s.ackedPosition = s.recvData.length) :
    (s.handle packet behind).1.ackedPosition = (s.handle packet behind).1.recvData.length ∧
      (s.handle packet behind).1.recvData.length < 2 ^ 31 - 1 := by
  have hcounted : (s.handle packet behind).1.ackedPosition =
      (s.handle packet behind).1.recvData.length := by
    have hfits := h.fits
    unfold positions at hfits
    rcases s.handle_cases packet behind with ⟨-, heq⟩ | ⟨-, heq⟩ | ⟨hexpected, heq⟩ <;>
      rw [heq]
    · exact hposition
    · exact hposition
    · rw [if_pos hexpected] at hfits
      refine counted_drain _ ?_ fun position hmem =>
        hfits position (List.mem_append_right _ (List.mem_cons_of_mem _ hmem))
      change s.ackedPosition + packet.dataLen.toNat =
        ((s.recvData ++ bytesAt _ packet.dataLen.toNat).length : ℤ)
      rw [List.length_append, length_bytesAt, hposition, Nat.cast_add]
  have hfits : FitsInt ((s.handle packet behind).1.ackedPosition + 1) :=
    h.fits _ (List.mem_append_left _ (by simp))
  have hupper := hfits.upper
  exact ⟨hcounted, by omega⟩

end ReceiverStateMachine

/-! ## The sender -/

/-- A packet with some bytes of the file, at their place in it. -/
theorem Packet.within_dataPacket {size : ℕ} {seqNum : UInt32} {bytes memory : List UInt8}
    {fin : Bool} (pos : 1 ≤ seqNum.toNat) (within : seqNum.toNat - 1 + bytes.length ≤ size)
    (short : bytes.length ≤ mmsBytes) :
    (SenderStateMachine.dataPacket seqNum bytes memory fin).Within size := by
  have hcount : (UInt16.ofNat bytes.length).toNat = bytes.length :=
    SenderStateMachine.toNat_dataLen short
  refine ⟨pos, ?_⟩
  change seqNum.toNat - 1 + (UInt16.ofNat bytes.length).toNat ≤ size
  rw [hcount]
  exact within

namespace SenderStateMachine

/-- The positions that a turn computes in words. -/
def unsignedPositions (s : SenderStateMachine) : Turn → List ℤ
  | .send f =>
    (s.filePosition.toNat + 1) ::
      -- `transmit` may return before it adds what was sent
      if (s.sendRound f).2.2 = none then [s.filePosition.toNat + reported f (s.chunkMemory f)]
      else []
  | .receive none _ => [(s.ackedPosition.toNat : ℤ) - 1]
  | .receive (some recv) f =>
    if s.ThirdDuplicate recv then
      [(s.ackedPosition.toNat : ℤ) - 1, s.ackedPosition.toNat] ++
        if reported f (s.missingMemory f) < 0 then [] else [s.startPosition.2]
    else if s.NewAck recv then
      ((recv.ackNum.toNat : ℤ) - 1) ::
        if s.state = .fastRecovery then [(recv.ackNum.toNat : ℤ) - s.ackedPosition.toNat] else []
    else []

/-- The positions that a turn stores into signed variables: `start_position`, and `temp`. -/
def signedPositions (s : SenderStateMachine) : Turn → List ℤ
  | .receive (some recv) _ =>
    if s.ThirdDuplicate recv then
      s.message.tellg :: if narrow s.message.tellg = -1 then [(s.filePosition.toNat : ℤ)] else []
    else if s.state = .fastRecovery ∧ finalAck recv = false ∧ (s.dupAck recv).2 = false then
      [(s.ackedPosition.toNat : ℤ)]
    else []
  | _ => []

/-- Every position of a turn fits. -/
structure PositionsExact (s : SenderStateMachine) (turn : Turn) : Prop where
  unsigned : ∀ position ∈ s.unsignedPositions turn, FitsWord position
  signed : ∀ position ∈ s.signedPositions turn, FitsInt position

/-- The file position is in the file, and so is the stream, not before it. -/
structure InFile (file : List UInt8) (s : SenderStateMachine) : Prop where
  reads : s.ReadsFrom file
  position : s.filePosition.toNat ≤ file.length
  readable : s.message.good = true →
    s.filePosition.toNat ≤ s.message.offset ∧ s.message.offset ≤ file.length

/-- The string at a full chunk ends no more than two bytes behind it. -/
def EndsNear (s : SenderStateMachine) (f : Frame) : Prop :=
  (s.message.chunk mmsBytes).length = mmsBytes → strlen (s.chunkMemory f) ≤ mmsBytes + 2

/-- The rest of the file goes out only from a file position that what is counted as sent does
not take below zero: from one on where `sendTo` throws, else from two on together with the
string at the rest. -/
def KeepsPosition (s : SenderStateMachine) (f : Frame) : Prop :=
  (s.message.chunk mmsBytes).length < mmsBytes →
    if f.throws then 1 ≤ s.filePosition.toNat
    else 2 ≤ s.filePosition.toNat + strlen (s.message.chunk mmsBytes)

instance (s : SenderStateMachine) (f : Frame) : Decidable (s.EndsNear f) :=
  inferInstanceAs (Decidable (_ → _))

instance (s : SenderStateMachine) (f : Frame) : Decidable (s.KeepsPosition f) :=
  inferInstanceAs (Decidable ((s.message.chunk mmsBytes).length < mmsBytes →
    if f.throws then 1 ≤ s.filePosition.toNat
    else 2 ≤ s.filePosition.toNat + strlen (s.message.chunk mmsBytes)))

variable {s : SenderStateMachine} {f : Frame} {file : List UInt8}

/-- What is counted as sent is no more than what was read. -/
theorem reported_le (ends : s.EndsNear f) :
    reported f (s.chunkMemory f) ≤ (s.message.chunk mmsBytes).length := by
  unfold reported
  split_ifs with hthrows
  · omega
  rcases Nat.lt_or_eq_of_le (length_chunk_le (s := s)) with hrest | hwhole
  · have hle := strlen_le (s.message.chunk mmsBytes)
    rw [strlen_chunkMemory hrest]
    omega
  · have hnear := ends hwhole
    omega

/-- `transmit` adds what was sent unless a full chunk is refused. -/
theorem sendRound_returns (good : s.message.failed = false) : (s.sendRound f).2.2 = none ↔
    (s.message.chunk mmsBytes).length < mmsBytes ∨ 0 ≤ reported f (s.chunkMemory f) := by
  rw [sendRound_eq good]
  dsimp only
  by_cases h : (s.message.chunk mmsBytes).length < mmsBytes ∨ 0 ≤ reported f (s.chunkMemory f)
  · rw [if_pos h]
    exact iff_of_true rfl h
  · rw [if_neg h]
    exact iff_of_false (by simp) h

theorem keepsPosition_iff (rest : (s.message.chunk mmsBytes).length < mmsBytes) :
    s.KeepsPosition f ↔ 0 ≤ s.filePosition.toNat + reported f (s.chunkMemory f) := by
  rw [KeepsPosition, imp_iff_right rest]
  cases hthrows : f.throws with
  | true => simp [reported, hthrows]
  | false =>
    rw [reported_of_sent hthrows, strlen_chunkMemory rest]
    simp only [Bool.false_eq_true, if_false]
    omega

/-- What is read ends within the file, also as counted from the file position. -/
theorem InFile.chunk_le (h : s.InFile file) (good : s.message.failed = false) :
    s.message.offset + (s.message.chunk mmsBytes).length ≤ file.length ∧
      s.filePosition.toNat + (s.message.chunk mmsBytes).length ≤ file.length := by
  obtain ⟨hplace, hwithin⟩ := h.readable (InputStream.good_eq_true.mpr good)
  have hlength := @InputStream.length_chunk _ s.message mmsBytes
  rw [h.reads.content] at hlength
  exact ⟨by omega, by omega⟩

/-- The positions of a round are exact exactly when it keeps the file position. -/
theorem InFile.positionsExact_send_iff (h : s.InFile file) (bound : file.length < 2 ^ 31 - 1)
    (good : s.message.failed = false) (ends : s.EndsNear f) :
    s.PositionsExact (.send f) ↔ s.KeepsPosition f := by
  have hchunk := (h.chunk_le good).2
  have hreported := reported_le ends
  have hnumber : FitsWord (s.filePosition.toNat + 1) := ⟨by omega, by omega⟩
  have hsum : FitsWord (s.filePosition.toNat + reported f (s.chunkMemory f)) ↔
      0 ≤ s.filePosition.toNat + reported f (s.chunkMemory f) :=
    ⟨FitsWord.lower, fun hlower => ⟨hlower, by omega⟩⟩
  have hsigned : ∀ position ∈ s.signedPositions (.send f), FitsInt position :=
    fun position hmem => absurd hmem List.not_mem_nil
  have hexact : s.PositionsExact (.send f) ↔
      ((s.sendRound f).2.2 = none → 0 ≤ s.filePosition.toNat + reported f (s.chunkMemory f)) := by
    rw [← hsum]
    constructor
    · intro hpositions hreturned
      apply hpositions.unsigned
      rw [unsignedPositions, if_pos hreturned]
      exact List.mem_cons_of_mem _ List.mem_cons_self
    · refine fun hadded => ⟨fun position hmem => ?_, hsigned⟩
      rw [unsignedPositions] at hmem
      rcases List.mem_cons.mp hmem with rfl | hmem
      · exact hnumber
      · split_ifs at hmem with hreturned
        · exact List.mem_singleton.mp hmem ▸ hadded hreturned
        · exact absurd hmem List.not_mem_nil
  rw [hexact, sendRound_returns good]
  by_cases hrest : (s.message.chunk mmsBytes).length < mmsBytes
  · rw [imp_iff_right (Or.inl hrest), keepsPosition_iff hrest]
  · refine iff_of_true (fun hadded => ?_) fun hless => absurd hless hrest
    have hbytes := hadded.resolve_left hrest
    omega

/-- A retransmission goes back to a position in the file. -/
theorem InFile.startPosition_eq (h : s.InFile file) (bound : file.length < 2 ^ 31 - 1) :
    s.startPosition.2 =
      if s.message.good then (s.message.offset : ℤ) else s.filePosition.toNat := by
  have hposition := h.position
  unfold startPosition
  cases hgood : s.message.good with
  | true =>
    have hoffset := (h.readable hgood).2
    have htell : narrow s.message.tellg = s.message.offset := by
      rw [InputStream.tellg_of_good (InputStream.good_eq_true.mp hgood)]
      exact narrow_of_mem (by omega) (by omega)
    rw [if_neg (by omega), htell]
    rfl
  | false =>
    have htell : s.message.tellg = -1 :=
      InputStream.tellg_eq_neg_one.mpr (InputStream.good_eq_false.mp hgood)
    rw [htell, if_pos (by decide)]
    exact asInt_of_lt (by omega)

theorem InFile.startPosition_mem (h : s.InFile file) (bound : file.length < 2 ^ 31 - 1) :
    0 ≤ s.startPosition.2 ∧ s.startPosition.2 ≤ file.length := by
  have hposition := h.position
  rw [h.startPosition_eq bound]
  split_ifs with hgood
  · have hoffset := (h.readable hgood).2
    omega
  · omega

/-- Receiving keeps the positions exact in any case. -/
theorem InFile.positionsExact_receive (h : s.InFile file) (bound : file.length < 2 ^ 31 - 1)
    (hpos : 1 ≤ s.ackedPosition.toNat) (hacked : s.ackedPosition.toNat ≤ file.length + 1)
    (recv : Option Packet) : s.PositionsExact (.receive recv f) := by
  have hposition := h.position
  have hstart := h.startPosition_mem bound
  cases recv with
  | none =>
    refine ⟨fun position hmem => ?_, fun position hmem => absurd hmem List.not_mem_nil⟩
    obtain rfl := List.mem_singleton.mp hmem
    exact ⟨by omega, by omega⟩
  | some recv =>
    have hnum := recv.ackNum.toNat_lt
    refine ⟨fun position hmem => ?_, fun position hmem => ?_⟩
    · rw [unsignedPositions] at hmem
      -- whatever the list, all of it is between the file's ends or the acknowledgement's
      suffices hrange : 0 ≤ position ∧ position < 2 ^ 32 from ⟨hrange.1, hrange.2⟩
      split_ifs at hmem with hthird herror hnew hstate
      · simp only [List.append_nil, List.mem_cons, List.not_mem_nil, or_false] at hmem
        omega
      · simp only [List.cons_append, List.nil_append, List.mem_cons, List.not_mem_nil,
          or_false] at hmem
        omega
      · have hlt := UInt32.lt_iff_toNat_lt.mp hnew.new
        simp only [List.mem_cons, List.not_mem_nil, or_false] at hmem
        omega
      · have hlt := UInt32.lt_iff_toNat_lt.mp hnew.new
        obtain rfl := List.mem_singleton.mp hmem
        omega
      · exact absurd hmem List.not_mem_nil
    · have htell : FitsInt s.message.tellg := by
        cases hgood : s.message.good with
        | true =>
          have hoffset := (h.readable hgood).2
          rw [InputStream.tellg_of_good (InputStream.good_eq_true.mp hgood)]
          exact ⟨by omega, by omega⟩
        | false =>
          rw [InputStream.tellg_eq_neg_one.mpr (InputStream.good_eq_false.mp hgood)]
          exact ⟨by norm_num, by norm_num⟩
      rw [signedPositions] at hmem
      split_ifs at hmem with hthird hlost htemp
      · rcases List.mem_cons.mp hmem with rfl | hmem
        · exact htell
        · obtain rfl := List.mem_singleton.mp hmem
          exact ⟨by omega, by omega⟩
      · exact List.mem_singleton.mp hmem ▸ htell
      · obtain rfl := List.mem_singleton.mp hmem
        exact ⟨by omega, by omega⟩
      · exact absurd hmem List.not_mem_nil

/-- A round that keeps the file position where it can be keeps it in the file. -/
theorem InFile.send (h : s.InFile file) (bound : file.length < 2 ^ 31 - 1)
    (good : s.message.failed = false) (ends : s.EndsNear f) (keeps : s.KeepsPosition f)
    {machine : SenderStateMachine} {packet : Packet} {returned : Option Bool}
    (sending : s.Sending f (machine, packet, returned)) (reads : machine.ReadsFrom file) :
    machine.InFile file := by
  have hplace := (h.readable (InputStream.good_eq_true.mpr good)).1
  obtain ⟨hend, hchunk⟩ := h.chunk_le good
  have hreported := reported_le ends
  have hadd := @toNat_add_toWord s.filePosition (reported f (s.chunkMemory f))
  cases sending with
  | full whole sent measured =>
    rw [reported_of_sent sent] at hreported hadd
    have hsum := hadd (by omega) (by omega)
    refine ⟨reads, ?_, fun _ => ⟨?_, hend⟩⟩
    · dsimp only
      omega
    · change (s.filePosition + toWord (strlen (s.chunkMemory f) - 2)).toNat ≤
        s.message.offset + (s.message.chunk mmsBytes).length
      omega
  | refused whole error notAcked =>
    exact ⟨reads, h.position, fun _ => ⟨hplace.trans (Nat.le_add_right _ _), hend⟩⟩
  | short rest =>
    have hsum := hadd ((keepsPosition_iff rest).mp keeps) (by omega)
    refine ⟨reads, ?_, fun hgood => ?_⟩
    · dsimp only
      omega
    · exact absurd hgood (by simp [afterChunk, rest])

/-- Receiving leaves the file position in the file. -/
theorem InFile.receive (h : s.InFile file) (bound : file.length < 2 ^ 31 - 1)
    (hpos : 1 ≤ s.ackedPosition.toNat) (hacked : s.ackedPosition.toNat ≤ file.length + 1)
    {recv : Option Packet} (hrecv : ∀ packet, recv = some packet →
      packet.ackNum.toNat ≤ file.length + 1)
    {outcome : Outcome} (reaction : s.Reaction f recv outcome)
    (reads : outcome.machine.ReadsFrom file) : outcome.machine.InFile file := by
  have hsub : (s.ackedPosition - 1).toNat = s.ackedPosition.toNat - 1 := toNat_sub_one hpos
  have hplace : (s.ackedPosition - 1).toNat ≤ file.length := by omega
  obtain ⟨hfailed, hcontent, hoffset⟩ := h.reads.missingSegment_eq
  cases reaction with
  | timeout =>
    obtain ⟨-, -, hback⟩ := h.reads.processTimeout_message
    exact ⟨reads, hplace, fun _ => ⟨hback.ge, hback.trans_le hplace⟩⟩
  | resent recv third sent measured =>
    have hwithin := h.startPosition_mem bound
    have hword : (toWord s.startPosition.2).toNat = s.startPosition.2.toNat :=
      toNat_toWord_of_lt hwithin.1 (by omega)
    refine ⟨reads, ?_, fun hgood => ?_⟩
    · dsimp only
      omega
    · have hback : (((s.missingSegment.read mmsBytes).2.seekg s.startPosition.2).offset : ℤ) =
          s.startPosition.2 := by
        rw [← InputStream.tellg_of_good (InputStream.good_eq_true.mp hgood)]
        exact InputStream.tellg_seekg hgood
      dsimp only
      omega
  | refused recv third error notAcked =>
    refine ⟨reads, hplace, fun hgood => ?_⟩
    have hchunk := @InputStream.length_chunk _ s.missingSegment mmsBytes
    rw [hcontent, hoffset] at hchunk
    dsimp only
    rw [InputStream.read_of_good hfailed, hoffset]
    dsimp only
    omega
  | advance recv new growth =>
    refine ⟨reads, h.position, fun hgood => ?_⟩
    have hnum := hrecv recv rfl
    have hlt := UInt32.lt_iff_toNat_lt.mp new.new
    have hsub' : (recv.ackNum - 1).toNat = recv.ackNum.toNat - 1 :=
      toNat_sub_one (hpos.trans hlt.le)
    change (s.forwarded recv).good = true at hgood
    rw [good_forwarded] at hgood
    obtain ⟨hbefore, hwithin⟩ := h.readable hgood
    have hreadable := InputStream.good_eq_true.mp hgood
    change s.filePosition.toNat ≤ (s.forwarded recv).offset ∧
      (s.forwarded recv).offset ≤ file.length
    unfold forwarded
    -- a stream that is moved is moved forward, to a position that has been received
    split_ifs with hbehind
    · rw [InputStream.tellg_of_good hreadable] at hbehind
      rw [InputStream.seekg_of_good hreadable (Int.natCast_nonneg _)]
      dsimp only
      omega
    · exact ⟨hbefore, hwithin⟩
  | _ => exact ⟨reads, h.position, h.readable⟩

end SenderStateMachine

end Comnet.MP2
