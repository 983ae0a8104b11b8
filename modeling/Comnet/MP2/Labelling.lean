/-
# Sequence numbers and file offsets

The sender keeps its place in the file twice, as the offset of the stream and as
`filePosition`. Sending, retransmitting and timing out move both alike. A new
acknowledgement moves only the stream, when the stream has fallen behind it; from
then on the bytes that are read and the sequence number they are sent under differ.
-/

import Comnet.MP2.Transmit

set_option autoImplicit false

namespace Comnet.MP2

open Foundations

namespace Transmission

/-- The two places agree while the stream can be read, and everything handed to
`sendTo` was numbered one after the offset it was read from. -/
structure Synchronised (t : Transmission) : Prop where
  position : t.returned = none → t.machine.message.good = true →
    t.machine.message.tellg = t.machine.filePosition.toNat
  labelled : ∀ h ∈ t.handed, ∀ offset, h.readFrom = some offset →
    h.packet.seqNum.toNat = offset + 1

/-- The string at a full chunk ends two bytes behind it, which is what `sendData`
takes off. -/
def Measured (t : Transmission) : Turn → Prop
  | .send f => (t.machine.message.chunk mmsBytes).length = mmsBytes →
      strlen (t.machine.chunkMemory f) = mmsBytes + 2
  | .receive _ _ => True

/-- The turns that keep the two places together. Sending does not take the file
position beyond a word, and no new acknowledgement finds the stream short of the
position it acknowledges, other than at the start of the file. -/
def KeepsPlace (t : Transmission) : Turn → Prop
  | .send f => t.machine.filePosition.toNat + 1 < 2 ^ 32 ∧
      ((t.machine.message.chunk mmsBytes).length = mmsBytes → f.throws = false →
        t.machine.filePosition.toNat + mmsBytes < 2 ^ 32)
  | .receive (some recv) _ => t.machine.NewAck recv → t.machine.message.good = true →
      ¬ (0 < t.machine.message.offset ∧ t.machine.message.offset + 1 < recv.ackNum.toNat)
  | .receive none _ => True

/-- A turn receives nothing or an acknowledgement of the start or of the end of a
segment that was sent. -/
def Acknowledged (t : Transmission) : Turn → Prop
  | .receive (some recv) _ => recv.ack = true ∧ (recv.ackNum = 1 ∨
      ∃ h ∈ t.handed, recv.ackNum = h.packet.seqNum + h.packet.dataLen.toUInt32)
  | _ => True

instance (t : Transmission) : ∀ turn, Decidable (t.Measured turn)
  | .send f => inferInstanceAs (Decidable ((t.machine.message.chunk mmsBytes).length = mmsBytes →
      strlen (t.machine.chunkMemory f) = mmsBytes + 2))
  | .receive _ _ => instDecidableTrue

instance (t : Transmission) : ∀ turn, Decidable (t.Acknowledged turn)
  | .send _ => instDecidableTrue
  | .receive none _ => instDecidableTrue
  | .receive (some recv) _ => inferInstanceAs (Decidable (recv.ack = true ∧ (recv.ackNum = 1 ∨
      ∃ h ∈ t.handed, recv.ackNum = h.packet.seqNum + h.packet.dataLen.toUInt32)))

instance (t : Transmission) : ∀ turn, Decidable (t.KeepsPlace turn)
  | .send f => inferInstanceAs (Decidable (t.machine.filePosition.toNat + 1 < 2 ^ 32 ∧
      ((t.machine.message.chunk mmsBytes).length = mmsBytes → f.throws = false →
        t.machine.filePosition.toNat + mmsBytes < 2 ^ 32)))
  | .receive none _ => instDecidableTrue
  | .receive (some recv) _ => inferInstanceAs (Decidable (t.machine.NewAck recv →
      t.machine.message.good = true →
      ¬ (0 < t.machine.message.offset ∧ t.machine.message.offset + 1 < recv.ackNum.toNat)))

variable {t next : Transmission} {turn : Turn}

/-- A retransmission reads at the acknowledged position, if it can read at all. -/
theorem readFrom_missingSegment {s : SenderStateMachine} (h : 1 ≤ s.ackedPosition.toNat)
    {packet : Packet} {offset : ℕ}
    (hread : (Handed.of packet s.missingSegment).readFrom = some offset) :
    s.ackedPosition.toNat = offset + 1 := by
  by_cases hgood : s.missingSegment.good = true
  · rw [Handed.of, if_pos hgood] at hread
    obtain rfl := Option.some.inj hread
    have htell := InputStream.tellg_seekg hgood
    change s.missingSegment.tellg = _ at htell
    rw [InputStream.tellg_of_good (InputStream.good_eq_true.mp hgood)] at htell
    have hsub : (s.ackedPosition - 1).toNat = s.ackedPosition.toNat - 1 := toNat_sub_one h
    omega
  · simp [Handed.of, hgood] at hread

/-- After a retransmission the stream, if it can be read, and the file position are
where the retransmission found the stream. -/
theorem tellg_afterResending {s : SenderStateMachine} {stream : InputStream UInt8}
    (hgood : (stream.seekg s.startPosition.2).good = true) :
    (stream.seekg s.startPosition.2).tellg = (toWord s.startPosition.2).toNat := by
  have htell := InputStream.tellg_seekg hgood
  have hnonneg := InputStream.tellg_nonneg hgood
  -- the position fits a signed word either way, so storing it back keeps it
  have hlt : s.startPosition.2 < 2 ^ 31 := by
    unfold SenderStateMachine.startPosition
    split <;> exact asInt_lt _
  rw [htell] at hnonneg ⊢
  rw [toNat_toWord_of_lt hnonneg (by omega)]
  omega

/-- A timeout leaves both places at the acknowledged position. -/
theorem tellg_processTimeout {s : SenderStateMachine}
    (hgood : s.processTimeout.message.good = true) :
    s.processTimeout.message.tellg = s.processTimeout.filePosition.toNat := by
  unfold SenderStateMachine.processTimeout at hgood ⊢
  dsimp only at hgood ⊢
  split_ifs at hgood ⊢ <;> exact InputStream.tellg_seekg hgood

/-- Old entries say nothing about whether the newest one is numbered right. -/
theorem labelled_cons {h : Handed} {old : List Handed} :
    (∀ h' ∈ h :: old, ∀ offset, h'.readFrom = some offset →
      h'.packet.seqNum.toNat = offset + 1) ↔
    (∀ offset, h.readFrom = some offset → h.packet.seqNum.toNat = offset + 1) ∧
      ∀ h' ∈ old, ∀ offset, h'.readFrom = some offset →
        h'.packet.seqNum.toNat = offset + 1 := by
  simp only [List.mem_cons, forall_eq_or_imp]

/-- A round of the inner loop keeps the two places together exactly when the file position stays a
word. -/
theorem synchronised_send {f : Frame} (hsync : t.Synchronised) (measured : t.Measured (.send f))
    (running : t.returned = none) (admitted : t.machine.canSend = true)
    {machine : SenderStateMachine} {returned : Option Bool}
    (sending : t.machine.Sending f (machine, t.machine.nextPacket f, returned)) :
    Synchronised ⟨machine, returned,
        ⟨t.machine.nextPacket f, some t.machine.message.offset⟩ :: t.handed,
        (t.machine.filePosition + 1) :: t.sinceTimeout⟩ ↔ t.KeepsPlace (.send f) := by
  have hgood := readable_of_canSend admitted
  have hplace : t.machine.message.offset = t.machine.filePosition.toNat := by
    have := hsync.position running (InputStream.good_eq_true.mpr hgood)
    rw [InputStream.tellg_of_good hgood] at this
    exact_mod_cast this
  have hlabel : (∀ offset, some t.machine.message.offset = some offset →
      (t.machine.nextPacket f).seqNum.toNat = offset + 1) ↔
      t.machine.filePosition.toNat + 1 < 2 ^ 32 := by
    rw [← @toNat_add_ofNat t.machine.filePosition 1 (by decide)]
    simp only [Option.some.injEq, forall_eq', hplace]
    rfl
  -- whatever the round does, the new entry is in place when its number is no wrapped one
  have hlog : (∀ h ∈ ⟨t.machine.nextPacket f, some t.machine.message.offset⟩ :: t.handed,
      ∀ offset, h.readFrom = some offset → h.packet.seqNum.toNat = offset + 1) ↔
      t.machine.filePosition.toNat + 1 < 2 ^ 32 := by
    rw [labelled_cons, hlabel]
    exact and_iff_left hsync.labelled
  cases sending with
  | full whole sent _ =>
    have hadvance : toWord (strlen (t.machine.chunkMemory f) - 2) = UInt32.ofNat mmsBytes := by
      rw [measured whole]
      rfl
    have hposition : (t.machine.filePosition + UInt32.ofNat mmsBytes).toNat =
        t.machine.message.offset + mmsBytes ↔
        t.machine.filePosition.toNat + mmsBytes < 2 ^ 32 := by
      rw [hplace]
      exact toNat_add_ofNat (by decide)
    have hafter : t.machine.afterChunk.tellg = t.machine.message.offset + mmsBytes := by
      simp [SenderStateMachine.afterChunk, InputStream.tellg, whole]
    constructor
    · intro h
      refine ⟨hlog.mp h.labelled, fun _ _ => hposition.mp ?_⟩
      have := h.position rfl (by simp [SenderStateMachine.afterChunk, whole])
      dsimp only at this
      rw [hafter, hadvance] at this
      exact_mod_cast this.symm
    · rintro ⟨hfits, hroom⟩
      refine ⟨fun _ _ => ?_, hlog.mpr hfits⟩
      dsimp only
      rw [hafter, hadvance, hposition.mpr (hroom whole sent)]
      norm_cast
  | refused whole error =>
    have hthrows : f.throws = true := by
      by_contra hsent
      have hsent : f.throws = false := by simpa using hsent
      rw [SenderStateMachine.reported_of_sent hsent, measured whole] at error
      omega
    constructor
    · intro h
      exact ⟨hlog.mp h.labelled, fun _ hsent => by simp [hthrows] at hsent⟩
    · rintro ⟨hfits, -⟩
      exact ⟨fun hrunning => by simp at hrunning, hlog.mpr hfits⟩
  | short rest =>
    constructor
    · intro h
      exact ⟨hlog.mp h.labelled, fun hwhole => absurd hwhole rest.ne⟩
    · rintro ⟨hfits, -⟩
      refine ⟨fun _ hreadable => ?_, hlog.mpr hfits⟩
      simp [SenderStateMachine.afterChunk, rest] at hreadable

/-- What a new acknowledgement does to the stream: it is left alone unless it can be
read, is not at the start and is short of the acknowledged position. -/
theorem tellg_forwarded {s : SenderStateMachine} {recv : Packet} (new : s.NewAck recv)
    (hgood : (s.forwarded recv).good = true) (hplace : s.message.good = true →
      s.message.tellg = s.filePosition.toNat) :
    (s.forwarded recv).tellg = s.filePosition.toNat ↔
      (s.message.good = true →
        ¬ (0 < s.message.offset ∧ s.message.offset + 1 < recv.ackNum.toNat)) := by
  have hreadable : s.message.good = true := SenderStateMachine.good_forwarded recv ▸ hgood
  have htell := InputStream.tellg_of_good (InputStream.good_eq_true.mp hreadable)
  have hoffset : s.message.offset = s.filePosition.toNat := by
    have := hplace hreadable
    rw [htell] at this
    exact_mod_cast this
  have hnew := UInt32.lt_iff_toNat_lt.mp new.new
  have hsub : (recv.ackNum - 1).toNat = recv.ackNum.toNat - 1 := toNat_sub_one (by omega)
  by_cases hbehind : s.message.tellg < recv.ackNum.toNat ∧ s.message.tellg > 0
  · have hmoved : s.forwarded recv = s.message.seekg (recv.ackNum - 1).toNat := if_pos hbehind
    rw [hmoved] at hgood ⊢
    rw [InputStream.tellg_seekg hgood, hsub]
    simp only [hreadable, true_implies]
    omega
  · have hkept : s.forwarded recv = s.message := if_neg hbehind
    rw [hkept]
    simp only [hreadable, true_implies]
    omega

/-- Receiving keeps the two places together unless a new acknowledgement moves the stream
forward. -/
theorem synchronised_receive {recv : Option Packet} {f : Frame} (hsync : t.Synchronised)
    (hpos : 1 ≤ t.machine.ackedPosition.toNat) (running : t.returned = none)
    {outcome : Outcome} (reaction : t.machine.Reaction f recv outcome) :
    Synchronised ⟨outcome.machine, returnOf outcome.status,
        (outcome.handed.map (Handed.of · t.machine.missingSegment)).toList ++ t.handed,
        (outcome.handed.map (·.seqNum)).toList ++ t.kept (.receive recv f)⟩ ↔
      t.KeepsPlace (.receive recv f) := by
  have hplace := hsync.position running
  have hlog : ∀ h ∈ Handed.of (t.machine.missingPacket f) t.machine.missingSegment :: t.handed,
      ∀ offset, h.readFrom = some offset → h.packet.seqNum.toNat = offset + 1 :=
    labelled_cons.mpr ⟨fun _ hread => readFrom_missingSegment hpos hread, hsync.labelled⟩
  have hother : ∀ recv, ¬ t.machine.NewAck recv → t.KeepsPlace (.receive (some recv) f) :=
    fun _ hnot hnew => absurd hnew hnot
  cases reaction with
  | timeout =>
    exact iff_of_true ⟨fun _ hgood => tellg_processTimeout hgood, hsync.labelled⟩ trivial
  | final recv ack fin =>
    apply iff_of_true ⟨fun h => by simp at h, hsync.labelled⟩
    exact hother recv (SenderStateMachine.not_newAck_of_fin fin)
  | ignored recv ack =>
    apply iff_of_true ⟨fun _ => hplace, hsync.labelled⟩
    exact hother recv (SenderStateMachine.not_newAck_of_no_ack ack)
  | duplicate recv ack notFin old notThird =>
    apply iff_of_true ⟨fun _ => hplace, hsync.labelled⟩
    exact hother recv (SenderStateMachine.not_newAck_of_old old)
  | resent recv third sent measured =>
    apply iff_of_true ⟨fun _ hgood => tellg_afterResending hgood, hlog⟩
    exact hother recv (SenderStateMachine.not_newAck_of_old third.old)
  | refused recv third error notAcked =>
    apply iff_of_true ⟨fun h => by simp at h, hlog⟩
    exact hother recv (SenderStateMachine.not_newAck_of_old third.old)
  | advance recv new growth =>
    constructor
    · intro h _ hgood
      have hgood' : (t.machine.forwarded recv).good = true := by
        rwa [SenderStateMachine.good_forwarded]
      exact (tellg_forwarded new hgood' hplace).mp (h.position rfl hgood') hgood
    · intro hkeeps
      refine ⟨fun _ hgood => ?_, hsync.labelled⟩
      exact (tellg_forwarded new hgood hplace).mpr (hkeeps new)

theorem synchronised_step (hsync : t.Synchronised) (hpos : 1 ≤ t.machine.ackedPosition.toNat)
    (measured : t.Measured turn) (hstep : t.step turn = some next) :
    next.Synchronised ↔ t.KeepsPlace turn := by
  obtain ⟨running, hmove⟩ := step_cases hstep
  cases hmove with
  | send f admitted sending => exact synchronised_send hsync measured running admitted sending
  | receive recv f waiting reaction => exact synchronised_receive hsync hpos running reaction

variable (caAckCount : ℤ) (opened : Bool) (fileName : Option (List UInt8)) (turns : List Turn)

theorem synchronised_start : (start caAckCount opened fileName).Synchronised := by
  cases opened with
  | false => exact ⟨fun hrunning => by simp at hrunning, by simp⟩
  | true =>
    refine ⟨fun _ hgood => ?_, by simp⟩
    cases fileName with
    | none => simp [SenderStateMachine.openMessage] at hgood
    | some file => rfl

/-- **Labelling.** In a run of `transmit` whose full chunks are measured right, the
stream and the file position agree at every loop head, and everything sent was
numbered one after the offset it was read from, exactly when no new acknowledgement
moved the stream forward and the file position stayed a word. -/
theorem synchronised_iff_keepsPlace
    (measured : AllSteps step Measured (start caAckCount opened fileName) turns) :
    AllStates step Synchronised (start caAckCount opened fileName) turns ↔
      AllSteps step KeepsPlace (start caAckCount opened fileName) turns := by
  have hpos : 1 ≤ (start caAckCount opened fileName).machine.ackedPosition.toNat := by
    cases opened <;> exact le_rfl
  exact allStates_iff_allSteps (synchronised_start caAckCount opened fileName) hpos
    (fun _ _ _ hpos hstep => hpos.trans (ackedPosition_mono hstep))
    (fun _ _ _ hpos measured hsync => synchronised_step hsync hpos measured) measured

/-! ## A cumulative acknowledgement after a timeout

Three segments are out when the timer expires. The first acknowledgement that
arrives afterwards covers all three, while only one of them has been sent again. -/

def cumulativeAfterTimeout : List Turn :=
  [.send .usual, .receive (some (.acknowledgement 101)) .usual, .send .usual, .send .usual,
    .receive none .usual, .send .usual, .receive (some (.acknowledgement 301)) .usual]

def sixSegments : List UInt8 := List.replicate 400 65 ++ List.replicate 200 66

/-- The stream has been moved to 300 and the file position is still at 200. -/
theorem cumulativeAfterTimeout_separates :
    AllSteps step Measured (start 0 true (some sixSegments)) cumulativeAfterTimeout ∧
      AllSteps step Acknowledged (start 0 true (some sixSegments)) cumulativeAfterTimeout ∧
      ¬ AllStates step Synchronised (start 0 true (some sixSegments)) cumulativeAfterTimeout := by
  have hend : (run step (start 0 true (some sixSegments)) cumulativeAfterTimeout).map
      (fun t => (t.returned, t.machine.message.good, t.machine.message.tellg,
        t.machine.filePosition.toNat)) = some (none, true, 300, 200) := by
    decide +kernel
  refine ⟨by decide +kernel, by decide +kernel,
    not_allStates_of_run hend fun t hlast hsync => ?_⟩
  have hreturned : t.returned = none := congrArg (·.1) hlast
  have hgood : t.machine.message.good = true := congrArg (·.2.1) hlast
  have htell : t.machine.message.tellg = 300 := congrArg (·.2.2.1) hlast
  have hposition : t.machine.filePosition.toNat = 200 := congrArg (·.2.2.2) hlast
  have hequal := hsync.position hreturned hgood
  omega

/-- Without the late acknowledgement the same run keeps the two places together. -/
theorem synchronised_iff_keepsPlace_prompt :
    AllStates step Synchronised (start 0 true (some sixSegments))
      (cumulativeAfterTimeout.take 6) :=
  (synchronised_iff_keepsPlace 0 true (some sixSegments) (cumulativeAfterTimeout.take 6)
    (by decide +kernel)).mpr (by decide +kernel)

end Transmission

end Comnet.MP2
