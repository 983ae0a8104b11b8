/-
# The order of arrivals does not matter

When a file has been cut into segments once and for all, what the receiver ends
with is a function of the set of segments that got past its loss pattern: the
initial run of that set is stored, the rest of it is buffered, and the stream is
closed when the run is complete. Order and repetition leave no trace.

The proof carries one predicate through every pass of the loop. It mentions the
set received so far and the run that is stored; while the buffer drains, the run
may still fall short of the set, and the exit of the draining loop closes the gap.
-/

import Comnet.Foundations.Cutting
import Comnet.MP2.Receiver

set_option autoImplicit false

namespace Comnet.MP2

open Foundations

variable {file : List UInt8}

/-- A cutting of a file into segments that fit a packet. -/
structure Segmentation (file : List UInt8) extends Cutting file where
  fits : ∀ piece ∈ pieces, piece.length ≤ 100

namespace Segmentation

variable (c : Segmentation file)

/-- The packet carries the segment with this index. -/
structure Carries (i : ℕ) (packet : Packet) : Prop where
  index_lt : i < c.count
  seqNum_eq : packet.seqNum.toNat = 1 + c.offset i
  dataLen_eq : packet.dataLen.toNat = (c.piece i).length
  payload_eq : packet.payload = c.piece i
  fin_iff : packet.fin = true ↔ c.IsLast i

/-- The segment is among the arrivals that get past the loss pattern. -/
def Received (f : LossFilter) (arrivals : List Arrival) (i : ℕ) : Prop :=
  ∃ a ∈ f.undropped arrivals, c.Carries i a.packet

/-- How a segment is kept while it is early. -/
def entry (i : ℕ) : List UInt8 × Bool := (c.piece i, decide (c.IsLast i))

theorem length_piece_le {i : ℕ} (h : i < c.count) : (c.piece i).length ≤ 100 := by
  apply c.fits
  rw [Cutting.piece, List.getD_eq_getElem?_getD, List.getElem?_eq_getElem h, Option.getD_some]
  exact List.getElem_mem h

variable {c} {i : ℕ} {packet : Packet}

theorem Carries.fin_eq (h : c.Carries i packet) : packet.fin = decide (c.IsLast i) := by
  rw [Bool.eq_iff_iff, decide_eq_true_iff]
  exact h.fin_iff

theorem Carries.dataLen_le (h : c.Carries i packet) : packet.dataLen.toNat ≤ 100 :=
  h.dataLen_eq ▸ c.length_piece_le h.index_lt

/-- Two segments do not share a packet. -/
theorem Carries.unique {j : ℕ} (h : c.Carries i packet) (h' : c.Carries j packet) : i = j := by
  have hoffset : 1 + c.offset i = 1 + c.offset j := h.seqNum_eq.symm.trans h'.seqNum_eq
  exact c.offset_inj h.index_lt h'.index_lt (Nat.add_left_cancel hoffset)

end Segmentation

namespace ReceiverStateMachine

variable {c : Segmentation file} {received received' : ℕ → Prop} {run i : ℕ}
  {s : ReceiverStateMachine} {packet : Packet} {early : List UInt8 × Bool}

/-- The segments below `run` are stored and the received ones from there on are
buffered. -/
structure Assembled (c : Segmentation file) (received : ℕ → Prop) (run : ℕ)
    (s : ReceiverStateMachine) : Prop where
  run_le : run ≤ c.count
  received_lt : ∀ i, received i → i < c.count
  below : ∀ i < run, received i
  position : s.ackedPosition = c.offset run
  stored : s.recvData = (c.pieces.take run).flatten
  closed : s.fin = true ↔ 0 < run ∧ run = c.count
  buffered : ∀ (key : ℤ) (early : List UInt8 × Bool), s.buffer[key]? = some early ↔
    ∃ i, received i ∧ run ≤ i ∧ key = 1 + c.offset i ∧ early = c.entry i

theorem assembled_construct (c : Segmentation file) (pattern : LossPattern) :
    Assembled c (fun _ => False) 0 (construct pattern) where
  run_le := Nat.zero_le _
  received_lt := by simp
  below := by simp
  position := by simp [construct]
  stored := by simp [construct]
  closed := by simp [construct]
  buffered := by simp [construct]

theorem Assembled.congr (h : Assembled c received run s) (same : ∀ i, received i ↔ received' i) :
    Assembled c received' run s := by
  obtain rfl : received = received' := funext fun i => propext (same i)
  exact h

theorem Assembled.receivePacket (h : Assembled c received run s) (a : Arrival) :
    Assembled c received run (s.receivePacket a).1 :=
  ⟨h.run_le, h.received_lt, h.below, h.position, h.stored, h.closed, h.buffered⟩

/-- An entry under the next position is the segment that comes next. -/
theorem Assembled.find (h : Assembled c received run s)
    (hfind : s.buffer[s.ackedPosition + 1]? = some early) :
    received run ∧ early = c.entry run := by
  obtain ⟨i, hi, hle, hkey, rfl⟩ := (h.buffered _ _).mp hfind
  have hlt := h.received_lt i hi
  have hoffset : c.offset run = c.offset i := by
    have := h.position
    omega
  obtain rfl : run = i := c.offset_inj (hle.trans_lt hlt) hlt hoffset
  exact ⟨hi, rfl⟩

/-- While a segment is missing the stream is open. -/
theorem Assembled.open_of_lt (h : Assembled c received run s) (hlt : run < c.count) :
    s.fin = false := by
  rw [← Bool.not_eq_true, h.closed]
  exact fun hall => absurd hall.2 hlt.ne

theorem Assembled.takeEarly (h : Assembled c received run s) (bound : file.length < 2 ^ 31 - 1)
    (hfind : s.buffer[s.ackedPosition + 1]? = some early) :
    Assembled c received (run + 1) (s.takeEarly early) := by
  obtain ⟨hrun, rfl⟩ := h.find hfind
  have hlt := h.received_lt run hrun
  have hpos := h.position
  have hnext := c.offset_succ hlt
  have hle : c.offset (run + 1) ≤ file.length := c.offset_le
  refine ⟨hlt, h.received_lt, ?_, ?_, ?_, ?_, ?_⟩
  · intro i hi
    rcases Nat.lt_succ_iff_lt_or_eq.mp hi with hi | rfl
    · exact h.below i hi
    · exact hrun
  · rw [takeEarly_ackedPosition, narrow_of_mem] <;>
      simp only [Segmentation.entry] <;> omega
  · rw [takeEarly_recvData, h.stored, c.flatten_take_succ hlt]
    rfl
  · rw [takeEarly_fin, h.open_of_lt hlt, Bool.false_or, Segmentation.entry, decide_eq_true_iff]
    exact ⟨fun hlast => ⟨Nat.succ_pos _, hlast⟩, fun hlast => hlast.2⟩
  · intro key early
    rw [getElem?_takeEarly]
    split_ifs with hkey
    · obtain rfl := hkey
      constructor
      · intro hnone
        cases hnone
      · rintro ⟨i, hi, hafter, heq, -⟩
        have := c.offset_lt hafter (h.received_lt i hi)
        omega
    · have hkey' : key ≠ 1 + c.offset run := by
        rintro rfl
        exact hkey (by simp [hpos, add_comm])
      rw [h.buffered]
      constructor
      · rintro ⟨i, hi, hle, rfl, rfl⟩
        have hne : run ≠ i := by
          rintro rfl
          exact hkey' rfl
        exact ⟨i, hi, by omega, rfl, rfl⟩
      · rintro ⟨i, hi, hafter, rfl, rfl⟩
        exact ⟨i, hi, by omega, rfl, rfl⟩

/-- After draining, the stored run is the initial run of what has been received. -/
theorem Assembled.checkEarlyData (h : Assembled c received run s)
    (bound : file.length < 2 ^ 31 - 1) :
    ∃ run', Assembled c received run' s.checkEarlyData ∧ InitialRun received run' := by
  obtain ⟨⟨run', hdone⟩, hnone⟩ :=
    checkEarlyData_rule (P := fun s => ∃ run, Assembled c received run s) ⟨run, h⟩
      fun _ _ ⟨run, hs⟩ hfind => ⟨run + 1, hs.takeEarly bound hfind⟩
  refine ⟨run', hdone, hdone.below, fun hrun => ?_⟩
  have hfound := (hdone.buffered (s.checkEarlyData.ackedPosition + 1) (c.entry run')).mpr
    ⟨run', hrun, le_rfl, by rw [hdone.position, add_comm], rfl⟩
  rw [hnone] at hfound
  cases hfound

theorem Assembled.processPacket (h : Assembled c received run s) (gap : ¬ received run)
    (carries : c.Carries run packet) (behind : List UInt8) :
    Assembled c (fun j => received j ∨ j = run) (run + 1) (s.processPacket packet behind) := by
  have hlt := carries.index_lt
  have hdata : (s.processPacket packet behind).recvData = s.recvData ++ c.piece run := by
    rw [← carries.payload_eq, ← Packet.bytesAt_data carries.dataLen_le behind]
    rfl
  refine ⟨hlt, ?_, ?_, ?_, ?_, ?_, ?_⟩
  · rintro j (hj | rfl)
    · exact h.received_lt j hj
    · exact hlt
  · intro j hj
    rcases Nat.lt_succ_iff_lt_or_eq.mp hj with hj | rfl
    · exact Or.inl (h.below j hj)
    · exact Or.inr rfl
  · change s.ackedPosition + packet.dataLen.toNat = _
    rw [h.position, carries.dataLen_eq, c.offset_succ hlt, Nat.cast_add]
  · rw [hdata, h.stored, c.flatten_take_succ hlt]
  · change (s.fin || packet.fin) = true ↔ _
    rw [h.open_of_lt hlt, Bool.false_or, carries.fin_iff]
    exact ⟨fun hlast => ⟨Nat.succ_pos _, hlast⟩, fun hlast => hlast.2⟩
  · intro key early
    change s.buffer[key]? = some early ↔ _
    rw [h.buffered]
    constructor
    · rintro ⟨j, hj, hle, rfl, rfl⟩
      have hne : run ≠ j := by
        rintro rfl
        exact gap hj
      exact ⟨j, Or.inl hj, by omega, rfl, rfl⟩
    · rintro ⟨j, hj | rfl, hle, rfl, rfl⟩
      · exact ⟨j, hj, by omega, rfl, rfl⟩
      · omega

theorem Assembled.storeEarlyData (h : Assembled c received run s) (noNul : NoNul file)
    (bound : file.length < 2 ^ 31 - 1) (carries : c.Carries i packet) (ahead : run < i)
    (behind : List UInt8) :
    Assembled c (fun j => received j ∨ j = i) run
      (s.storeEarlyData (asInt packet.seqNum) (packet.data ++ behind) packet.dataLen.toNat
        packet.fin) := by
  have hlt := carries.index_lt
  have hkey : asInt packet.seqNum = 1 + c.offset i := by
    have hoffset : c.offset i ≤ file.length := c.offset_le
    have hseq := carries.seqNum_eq
    rw [asInt_of_lt (by omega), hseq, Nat.cast_add, Nat.cast_one]
  have hpayload : NoNul packet.payload := by
    rw [carries.payload_eq]
    have hpiece : (c.piece i).Sublist file := by
      have hsucc := (c.flatten_take_isPrefix (i := i + 1)).sublist
      rw [c.flatten_take_succ hlt] at hsucc
      exact (List.sublist_append_right _ _).trans hsucc
    exact noNul.sublist hpiece
  refine ⟨h.run_le, ?_, fun j hj => Or.inl (h.below j hj), h.position, h.stored, h.closed, ?_⟩
  · rintro j (hj | rfl)
    · exact h.received_lt j hj
    · exact hlt
  · intro key early
    change (s.buffer.insert _ _)[key]? = some early ↔ _
    rw [Std.ExtTreeMap.getElem?_insert, Packet.bytesAt_cString_data carries.dataLen_le hpayload,
      carries.payload_eq, carries.fin_eq, hkey]
    split_ifs with hsame
    · obtain rfl : 1 + (c.offset i : ℤ) = key := by simpa using hsame
      constructor
      · intro heq
        exact ⟨i, Or.inr rfl, ahead.le, rfl, (Option.some.inj heq).symm⟩
      · rintro ⟨j, hj, -, heq, rfl⟩
        have hj' : j < c.count := by
          rcases hj with hj | rfl
          · exact h.received_lt j hj
          · exact hlt
        obtain rfl : i = j := c.offset_inj hlt hj' (by omega)
        rfl
    · rw [h.buffered]
      constructor
      · rintro ⟨j, hj, hle, rfl, rfl⟩
        exact ⟨j, Or.inl hj, hle, rfl, rfl⟩
      · rintro ⟨j, hj | rfl, hle, rfl, rfl⟩
        · exact ⟨j, hj, hle, rfl, rfl⟩
        · simp at hsame

/-- Handling a segment adds it to what has been received, and the stored run is
again the initial run. -/
theorem Assembled.handle (h : Assembled c received run s) (gap : ¬ received run)
    (running : s.fin = false) (noNul : NoNul file) (bound : file.length < 2 ^ 31 - 1)
    (carries : c.Carries i packet) (behind : List UInt8) :
    ∃ run', Assembled c (fun j => received j ∨ j = i) run' (s.handle packet behind).1 ∧
      InitialRun (fun j => received j ∨ j = i) run' := by
  have hseq := carries.seqNum_eq
  have hlt := carries.index_lt
  have hle : c.offset run ≤ file.length := c.offset_le
  have hpos := h.position
  have hnext : (toWord (s.ackedPosition + 1)).toNat = 1 + c.offset run := by
    rw [toNat_toWord_of_lt (by omega) (by omega)]
    omega
  -- offsets grow with the index, so the three cases compare indices
  rcases s.handle_cases packet behind with ⟨hearly, heq⟩ | ⟨hold, heq⟩ | ⟨hexpected, heq⟩ <;>
    rw [heq]
  · have hahead : run < i := by
      rw [gt_iff_lt, UInt32.lt_iff_toNat_lt] at hearly
      by_contra hle
      have := c.offset_mono (Nat.not_lt.mp hle)
      omega
    refine ⟨run, h.storeEarlyData noNul bound carries hahead behind,
      fun j hj => Or.inl (h.below j hj), ?_⟩
    rintro (hrun | rfl)
    · exact gap hrun
    · exact lt_irrefl _ hahead
  · have hbehind : i < run := by
      rw [UInt32.lt_iff_toNat_lt] at hold
      by_contra hle
      have := c.offset_mono (Nat.not_lt.mp hle)
      omega
    have same : ∀ j, received j ↔ received j ∨ j = i := fun j =>
      ⟨Or.inl, fun hj => hj.elim id fun heq => heq ▸ h.below i hbehind⟩
    exact ⟨run, h.congr same, fun j hj => Or.inl (h.below j hj),
      fun hrun => gap ((same run).mpr hrun)⟩
  · rw [← hexpected] at hnext
    -- an empty last segment shares its offset with the end, which is not expected any more
    have hshort : run < c.count := by
      have hopen := h.closed.not.mp (by simp [running])
      have := h.run_le
      omega
    obtain rfl : i = run := c.offset_inj hlt hshort (by omega)
    exact (h.processPacket gap carries behind).checkEarlyData bound

theorem toLossFilter_handle (s : ReceiverStateMachine) (packet : Packet) (behind : List UInt8) :
    (s.handle packet behind).1.toLossFilter = s.toLossFilter :=
  handle_rule (P := fun t => t.toLossFilter = s.toLossFilter) packet behind rfl rfl rfl
    fun _ _ ht _ => ht

/-- The whole loop: what has been received grows by the arrivals that get past the
loss pattern. Those that come after the end add nothing, everything being there. -/
theorem Assembled.receive (h : Assembled c received run s) (gap : ¬ received run)
    (noNul : NoNul file) (bound : file.length < 2 ^ 31 - 1) {arrivals : List Arrival}
    (carried : ∀ a ∈ arrivals, ∃ i, c.Carries i a.packet) :
    ∃ run', Assembled c (fun i => received i ∨ c.Received s.toLossFilter arrivals i) run'
        (s.receive arrivals) ∧
      InitialRun (fun i => received i ∨ c.Received s.toLossFilter arrivals i) run' := by
  induction arrivals generalizing s received run with
  | nil =>
    have same : ∀ i, received i ↔ received i ∨ c.Received s.toLossFilter [] i := by
      simp [Segmentation.Received, LossFilter.undropped]
    exact ⟨run, h.congr same, fun i hi => Or.inl (h.below i hi),
      fun hrun => gap ((same run).mpr hrun)⟩
  | cons a as ih =>
    rw [ReceiverStateMachine.receive]
    split_ifs with hfin
    · have hall := (h.closed.mp hfin).2
      have same : ∀ i, received i ↔ received i ∨ c.Received s.toLossFilter (a :: as) i := by
        refine fun i => ⟨Or.inl, fun hi => hi.elim id ?_⟩
        rintro ⟨_, -, hcarries⟩
        exact h.below i (hall ▸ hcarries.index_lt)
      exact ⟨run, h.congr same, fun i hi => Or.inl (h.below i hi),
        fun hrun => gap ((same run).mpr hrun)⟩
    · have hrest : ∀ b ∈ as, ∃ i, c.Carries i b.packet := fun b hb =>
        carried b (List.mem_cons_of_mem a hb)
      simp only [Segmentation.Received]
      by_cases hdrop : (s.toLossFilter.count a).2 = -1
      · rw [receiveStep_of_drop hdrop, LossFilter.undropped_of_drop hdrop]
        exact ih (h.receivePacket a) gap hrest
      · rw [receiveStep_of_pass hdrop, LossFilter.undropped_of_pass hdrop]
        obtain ⟨i, hcarries⟩ := carried a (by simp)
        obtain ⟨run₁, h₁, initial₁⟩ := (h.receivePacket a).handle gap (by simpa using hfin)
          noNul bound hcarries a.behind
        obtain ⟨run₂, h₂, initial₂⟩ := ih h₁ initial₁.gap hrest
        have hfilter := toLossFilter_handle (s.receivePacket a).1 a.packet a.behind
        have same : ∀ j, ((received j ∨ j = i) ∨
            c.Received ((s.receivePacket a).1.handle a.packet a.behind).1.toLossFilter as j) ↔
            (received j ∨ ∃ b ∈ a :: (s.toLossFilter.count a).1.undropped as,
              c.Carries j b.packet) := by
          intro j
          rw [hfilter, Segmentation.Received, or_assoc]
          refine or_congr_right ?_
          simp only [List.mem_cons, exists_eq_or_imp]
          refine or_congr_left ?_
          exact ⟨fun heq => heq ▸ hcarries, fun hj => hj.unique hcarries⟩
        exact ⟨run₂, h₂.congr same, fun j hj => (same j).mp (initial₂.below j hj),
          fun hrun => initial₂.gap ((same run₂).mpr hrun)⟩

/-- Two receivers that hold what the same set of segments determines agree. -/
theorem Assembled.agree {t : ReceiverStateMachine} {run' : ℕ} (h : Assembled c received run s)
    (h' : Assembled c received' run' t) (initial : InitialRun received run)
    (initial' : InitialRun received' run') (same : ∀ i, received i ↔ received' i) :
    s.recvData = t.recvData ∧ s.ackedPosition = t.ackedPosition ∧ s.fin = t.fin ∧
      s.buffer = t.buffer := by
  obtain rfl := initial.unique initial' same
  replace h' := h'.congr fun i => (same i).symm
  refine ⟨h.stored.trans h'.stored.symm, h.position.trans h'.position.symm, ?_, ?_⟩
  · rw [Bool.eq_iff_iff, h.closed, h'.closed]
  · apply Std.ExtTreeMap.ext_getElem?
    intro key
    apply Option.ext
    intro early
    rw [h.buffered, h'.buffered]

/-- **Confluence.** Sequences of arrivals of segments of one cutting that bring the
same set of segments past the loss patterns leave the receiver with the same
data, position, flag and buffer. The position is the length of the initial run of
the set, the buffer holds the rest of the set, and nothing sits under the next
position. -/
theorem receive_confluent (c : Segmentation file) (noNul : NoNul file)
    (bound : file.length < 2 ^ 31 - 1) (pattern pattern' : LossPattern)
    (arrivals arrivals' : List Arrival)
    (carried : ∀ a ∈ arrivals, ∃ i, c.Carries i a.packet)
    (carried' : ∀ a ∈ arrivals', ∃ i, c.Carries i a.packet)
    (same : ∀ i, c.Received (construct pattern).toLossFilter arrivals i ↔
      c.Received (construct pattern').toLossFilter arrivals' i) :
    let s := (construct pattern).receive arrivals
    let t := (construct pattern').receive arrivals'
    let received := c.Received (construct pattern).toLossFilter arrivals
    (s.recvData = t.recvData ∧ s.ackedPosition = t.ackedPosition ∧ s.fin = t.fin ∧
      s.buffer = t.buffer) ∧
    ∃ run, InitialRun received run ∧ s.ackedPosition = c.offset run ∧
      s.recvData = file.take (c.offset run) ∧ (s.fin = true ↔ 0 < run ∧ run = c.count) ∧
      (∀ (key : ℤ) (early : List UInt8 × Bool), s.buffer[key]? = some early ↔
        ∃ i, received i ∧ run < i ∧ key = 1 + c.offset i ∧ early = c.entry i) ∧
      s.buffer[s.ackedPosition + 1]? = none := by
  intro s t received
  have fresh : ∀ (f : LossFilter) (as : List Arrival) (i : ℕ),
      (False ∨ c.Received f as i) ↔ c.Received f as i := fun f as i => by rw [false_or]
  obtain ⟨run, h, initial⟩ :=
    (assembled_construct c pattern).receive not_false noNul bound carried
  obtain ⟨run', h', initial'⟩ :=
    (assembled_construct c pattern').receive not_false noNul bound carried'
  have hagree := h.agree h' initial initial' fun i => by
    rw [fresh, fresh]
    exact same i
  replace h : Assembled c received run s := h.congr (fresh _ _)
  replace initial : InitialRun received run :=
    ⟨h.below, fun hrun => initial.gap ((fresh _ _ _).mpr hrun)⟩
  refine ⟨hagree, run, initial, h.position, h.stored.trans c.flatten_take, h.closed, ?_, ?_⟩
  · intro key early
    rw [h.buffered]
    refine exists_congr fun i => and_congr_right fun hi => and_congr_left' ?_
    have hne : run ≠ i := fun heq => initial.gap (heq ▸ hi)
    omega
  · by_contra hsome
    obtain ⟨early, hearly⟩ := Option.ne_none_iff_exists'.mp hsome
    exact initial.gap (h.find hearly).1

/-- A three byte file in two segments. -/
def twoSegments : Segmentation [97, 98, 99] where
  pieces := [[97, 98], [99]]
  flatten_pieces := rfl
  nonempty := by decide
  fits := by decide

def firstSegment : Arrival := .ofPacket (.segment 1 [97, 98] false)

def secondSegment : Arrival := .ofPacket (.segment 3 [99] true)

theorem receive_confluent_swapped :
    ((construct .none).receive [secondSegment, firstSegment]).recvData =
      ((construct .none).receive [firstSegment, firstSegment, secondSegment]).recvData := by
  have first : twoSegments.Carries 0 firstSegment.packet := by
    constructor <;> decide
  have second : twoSegments.Carries 1 secondSegment.packet := by
    constructor <;> decide
  refine (receive_confluent twoSegments (by decide) (by decide) .none .none _ _ ?_ ?_ ?_).1.1
  · simp only [List.mem_cons, List.not_mem_nil, or_false, forall_eq_or_imp, forall_eq]
    exact ⟨⟨1, second⟩, ⟨0, first⟩⟩
  · simp only [List.mem_cons, List.not_mem_nil, or_false, forall_eq_or_imp, forall_eq]
    exact ⟨⟨0, first⟩, ⟨0, first⟩, ⟨1, second⟩⟩
  · have inOrder : (construct .none).toLossFilter.undropped
        [firstSegment, firstSegment, secondSegment] =
          [firstSegment, firstSegment, secondSegment] := rfl
    have swapped : (construct .none).toLossFilter.undropped [secondSegment, firstSegment] =
        [secondSegment, firstSegment] := rfl
    intro i
    rw [Segmentation.Received, Segmentation.Received, inOrder, swapped]
    simp [or_comm]

end ReceiverStateMachine

end Comnet.MP2
