/-
# Losses that are listed

The numbers of the packets to lose are compared one at a time with the number of the arrival,
the next one after the one before has come. So the list is followed as long as it
rises, as far as its line was read, and behind its last number what is compared is no
number of the list any more.
-/

import Comnet.Foundations.Cursor
import Comnet.MP2.Datagram
import Comnet.MP2.LossFile

set_option autoImplicit false

namespace Comnet.MP2

open Foundations

/-- The loss pattern and how far the receiver is in it after some datagrams. -/
def filterAfter (pattern : LossPattern) (ds : List Datagram) : LossFilter :=
  ds.foldl (fun filter d => (filter.count d.arrival).1)
    (ReceiverStateMachine.construct pattern).toLossFilter

/-- The arrivals that are dropped are those that are listed, and every number that is looked
at is one of the list. -/
structure FollowsList (numbers : List ℕ) (pattern : LossPattern) (ds : List Datagram) : Prop where
  drops : ∀ (i : ℕ) (h : i < ds.length),
    ((filterAfter pattern (ds.take i)).count ds[i].arrival).2 = -1 ↔ i + 1 ∈ numbers
  inRange : ∀ i < ds.length, (filterAfter pattern (ds.take i)).specific = true →
    (filterAfter pattern (ds.take i)).specificPosition <
      (filterAfter pattern (ds.take i)).specificPackets.length

/-- The entries of a line that lists numbers. -/
structure Listing (entries : List UInt8) (numbers : List ℕ) : Prop where
  begins : ∀ byte, entries.head? = some byte → byte = 32
  characters : ∀ byte ∈ entries, isDigit byte = true ∨ byte = 32
  words : (tokens entries).map digitsValue = numbers
  positive : ∀ number ∈ numbers, 0 < number

/-- The numbers that are read from the entries of a line, of which the kind takes one
character of the array and the end of the string another. -/
def listed (entries : List UInt8) : List ℤ :=
  ((tokens (entries.take (fileBufLen - 2))).map atoiInt).filter (0 < ·)

/-- Up to a number of arrivals the numbers are those of the rising run of what was read, and
either nothing was read or the arrivals do not go behind the end of the list: it does
not rise all the way, or its last number has not passed. -/
def Honoured (numbers : List ℕ) (packets : List ℤ) (arrivals : ℕ) : Prop :=
  (∀ i < arrivals, i + 1 ∈ numbers ↔ ((i + 1 : ℕ) : ℤ) ∈ rising 0 packets) ∧
    (packets = [] ∨ rising 0 packets ≠ packets ∨ ∃ number ∈ packets, arrivals ≤ number)

/-- The pattern that loses the packets of a list. -/
def LossPattern.losing (packets : List ℤ) : LossPattern :=
  if packets = [] then .none
  else { LossPattern.none with specificPackets := packets, specific := true }

/-- The receiver is in a list behind a number of arrivals. -/
structure InList (packets : List ℤ) (filter : LossFilter) (arrivals : ℕ) : Prop where
  periodic : filter.periodic = false
  specific : filter.specific = true
  list : filter.specificPackets = packets
  rsn : filter.rsn = arrivals
  cursor : Cursor 0 packets (packets.take filter.specificPosition)
    (packets.drop filter.specificPosition) arrivals

variable {packets : List ℤ} {filter : LossFilter} {arrivals : ℕ} {numbers : List ℕ}
  {ds : List Datagram} {entries rest : List UInt8}

theorem bytesRead_ne (d : Datagram) : d.arrival.bytesRead ≠ -1 := by
  change ((min d.bytes.length packetSize : ℕ) : ℤ) ≠ -1
  omega

/-- Counting an arrival against a list, where there is a number to look at. -/
theorem InList.count_eq (h : InList packets filter arrivals) (few : arrivals + 1 < 2 ^ 31)
    (range : filter.specificPosition < packets.length) (d : Datagram) :
    filter.count d.arrival =
      if (arrivals + 1 : ℤ) = packets[filter.specificPosition] then
        ({ filter with
          rsn := arrivals + 1
          specificPosition := filter.specificPosition + 1 }, -1)
      else ({ filter with rsn := arrivals + 1 }, d.arrival.bytesRead) := by
  have hrsn : narrow (filter.rsn + 1) = arrivals + 1 := by
    rw [h.rsn]
    exact narrow_of_mem (by omega) (by omega)
  have hget : filter.specificPackets.getD filter.specificPosition d.arrival.stray =
      packets[filter.specificPosition] := by
    rw [h.list, List.getD_eq_getElem?_getD, List.getElem?_eq_getElem range, Option.getD_some]
  unfold LossFilter.count
  dsimp only
  rw [hget, h.periodic, h.specific, hrsn]
  simp only [Bool.false_and, Bool.false_eq_true, if_false, Bool.true_and, beq_iff_eq]

/-- Where there is a number to look at, an arrival is dropped exactly when its own number is one of
the rising run. -/
theorem InList.step (h : InList packets filter arrivals) (few : arrivals + 1 < 2 ^ 31)
    (range : filter.specificPosition < packets.length) (d : Datagram) :
    InList packets (filter.count d.arrival).1 (arrivals + 1) ∧
      ((filter.count d.arrival).2 = -1 ↔ ((arrivals + 1 : ℕ) : ℤ) ∈ rising 0 packets) := by
  have hdrop : packets.drop filter.specificPosition =
      packets[filter.specificPosition] :: packets.drop (filter.specificPosition + 1) :=
    List.drop_eq_getElem_cons range
  have hhead := h.cursor.head?_iff
  rw [hdrop, List.head?_cons, Option.some_inj] at hhead
  rw [h.count_eq few range d]
  by_cases hhit : (arrivals + 1 : ℤ) = packets[filter.specificPosition]
  · have hcursor := h.cursor
    rw [hdrop, ← hhit] at hcursor
    rw [if_pos hhit]
    refine ⟨⟨h.periodic, h.specific, h.list, ?_, ?_⟩, iff_of_true rfl ?_⟩
    · exact (Nat.cast_succ arrivals).symm
    · have hnext := hcursor.hit
      rw [hhit, List.take_append_getElem range, ← hhit] at hnext
      exact_mod_cast hnext
    · exact_mod_cast hhead.mp hhit.symm
  · rw [if_neg hhit]
    refine ⟨⟨h.periodic, h.specific, h.list, ?_, ?_⟩, iff_of_false (bytesRead_ne d) ?_⟩
    · exact (Nat.cast_succ arrivals).symm
    · have hnext := h.cursor.miss (by
        rw [hdrop, List.head?_cons, Ne, Option.some_inj]
        exact fun heq => hhit heq.symm)
      exact_mod_cast hnext
    · exact_mod_cast fun hmem => hhit (hhead.mpr hmem).symm

/-! ## Following a list -/

theorem toLossPattern_count (filter : LossFilter) (a : Arrival) :
    (filter.count a).1.toLossPattern = filter.toLossPattern := by
  unfold LossFilter.count
  dsimp only
  split_ifs <;> rfl

theorem filterAfter_succ (pattern : LossPattern) {i : ℕ} (h : i < ds.length) :
    filterAfter pattern (ds.take (i + 1)) =
      ((filterAfter pattern (ds.take i)).count ds[i].arrival).1 := by
  rw [List.take_succ_eq_append_getElem h, filterAfter, List.foldl_append]
  rfl

/-- Arrivals change nothing of the pattern. -/
theorem toLossPattern_filterAfter (pattern : LossPattern) (ds : List Datagram) :
    (filterAfter pattern ds).toLossPattern = pattern := by
  induction ds using List.reverseRecOn with
  | nil => rfl
  | append_singleton ds d ih =>
    rw [filterAfter, List.foldl_append, ← filterAfter]
    exact (toLossPattern_count _ _).trans ih

theorem inList_start (ne : packets ≠ []) :
    InList packets (filterAfter (.losing packets) []) 0 := by
  have hpattern : (filterAfter (.losing packets) []).toLossPattern =
      { LossPattern.none with specificPackets := packets, specific := true } := by
    rw [toLossPattern_filterAfter, LossPattern.losing, if_neg ne]
  refine ⟨?_, ?_, ?_, rfl, ?_⟩
  · rw [hpattern]
    rfl
  · rw [hpattern]
  · rw [hpattern]
  · exact Cursor.atStart 0 packets

/-- As long as there was a number to look at the receiver is in its list. -/
theorem inList_after (ne : packets ≠ []) (few : ds.length < 2 ^ 31) {i : ℕ} (hi : i ≤ ds.length)
    (range : ∀ j < i, (filterAfter (.losing packets) (ds.take j)).specificPosition <
      packets.length) : InList packets (filterAfter (.losing packets) (ds.take i)) i := by
  induction i with
  | zero => exact inList_start ne
  | succ i ih =>
    have hlist := ih (by omega) fun j hj => range j (by omega)
    rw [filterAfter_succ _ (by omega)]
    exact (hlist.step (by omega) (range i (by omega)) _).1

/-- There is a number to look at unless all numbers rise and have passed. -/
theorem InList.inRange_iff (h : InList packets filter arrivals) :
    filter.specificPosition < packets.length ↔
      rising 0 packets ≠ packets ∨ ∃ number ∈ packets, (arrivals : ℤ) < number := by
  have hrest := h.cursor.rest_eq_nil_iff
  rw [List.drop_eq_nil_iff] at hrest
  rw [← not_le, hrest, not_and_or]
  simp

/-- Without a list nothing is dropped. -/
theorem followsList_nil : FollowsList numbers (.losing []) ds ↔ Honoured numbers [] ds.length := by
  have hnone : ∀ ds, (filterAfter (.losing []) ds).toLossPattern = LossPattern.none :=
    toLossPattern_filterAfter _
  have hpass : ∀ i (h : i < ds.length),
      ¬ ((filterAfter (.losing []) (ds.take i)).count ds[i].arrival).2 = -1 := by
    intro i h
    unfold LossFilter.count
    dsimp only
    rw [hnone, LossPattern.none]
    exact bytesRead_ne _
  constructor
  · intro h
    refine ⟨fun i hi => ?_, Or.inl rfl⟩
    rw [← h.drops i hi]
    exact iff_of_false (hpass i hi) List.not_mem_nil
  · rintro ⟨hnumbers, -⟩
    refine ⟨fun i hi => ?_, fun i hi hspecific => ?_⟩
    · rw [hnumbers i hi]
      exact iff_of_false (hpass i hi) List.not_mem_nil
    · rw [hnone] at hspecific
      exact absurd hspecific Bool.false_ne_true

/-- As many arrivals as the code can number are dropped as a list says exactly when it is
honoured. -/
theorem followsList_iff (few : ds.length < 2 ^ 31) (positive : ∀ number ∈ packets, 0 < number) :
    FollowsList numbers (.losing packets) ds ↔ Honoured numbers packets ds.length := by
  by_cases ne : packets = []
  · rw [ne]
    exact followsList_nil
  have hspecific : ∀ ds, (filterAfter (.losing packets) ds).specific = true ∧
      (filterAfter (.losing packets) ds).specificPackets = packets := by
    intro ds
    rw [toLossPattern_filterAfter, LossPattern.losing, if_neg ne]
    exact ⟨rfl, rfl⟩
  constructor
  · intro h
    have hrange : ∀ i < ds.length,
        (filterAfter (.losing packets) (ds.take i)).specificPosition < packets.length := by
      intro i hi
      have := h.inRange i hi (hspecific _).1
      rwa [(hspecific _).2] at this
    have hlist : ∀ i < ds.length, InList packets (filterAfter (.losing packets) (ds.take i)) i :=
      fun i hi => inList_after ne few hi.le fun j hj => hrange j (hj.trans hi)
    refine ⟨fun i hi => ?_, Or.inr ?_⟩
    · rw [← h.drops i hi]
      exact ((hlist i hi).step (by omega) (hrange i hi) _).2
    · rcases Nat.eq_zero_or_pos ds.length with hnone | hsome
      · obtain ⟨number, hnumber⟩ := List.exists_mem_of_ne_nil packets ne
        exact Or.inr ⟨number, hnumber, by simpa [hnone] using (positive number hnumber).le⟩
      · have hlast : ds.length - 1 < ds.length := Nat.sub_one_lt_of_lt hsome
        refine ((hlist _ hlast).inRange_iff.mp (hrange _ hlast)).imp_right ?_
        rintro ⟨number, hnumber, hlater⟩
        exact ⟨number, hnumber, by omega⟩
  · rintro ⟨hnumbers, hend⟩
    have hrange : ∀ i < ds.length,
        (filterAfter (.losing packets) (ds.take i)).specificPosition < packets.length := by
      intro i hi
      induction i using Nat.strong_induction_on with
      | _ i ih =>
        have hlist := inList_after ne few hi.le fun j hj => ih j hj (hj.trans hi)
        refine hlist.inRange_iff.mpr ((hend.resolve_left ne).imp_right ?_)
        rintro ⟨number, hnumber, hlater⟩
        exact ⟨number, hnumber, by omega⟩
    refine ⟨fun i hi => ?_, fun i hi _ => ?_⟩
    · have hlist := inList_after ne few hi.le fun j hj => hrange j (hj.trans hi)
      rw [hnumbers i hi]
      exact (hlist.step (by omega) (hrange i hi) _).2
    · rw [(hspecific _).2]
      exact hrange i hi

/-! ## The line of a list -/

/-- A line that begins with the kind and goes on with a blank, if it goes on. -/
theorem tokens_kind (h : ∀ byte, entries.head? = some byte → byte = 32) :
    tokens (50 :: entries) = [50] :: tokens entries := by
  have hkind : tokens [50] = [[50]] := tokens_of_not_mem (by decide) (List.cons_ne_nil _ _)
  cases entries with
  | nil => exact hkind
  | cons byte entries =>
    obtain rfl : byte = 32 := h byte rfl
    have hline : tokens (50 :: 32 :: entries) = tokens [50] ++ tokens entries :=
      tokens_append_blank [50] entries
    have hblank : tokens (32 :: entries) = tokens entries := tokens_append_blank [] entries
    rw [hline, hkind, hblank]
    rfl

theorem parsePattern_kind (words : List (List UInt8)) : ∃ result,
    parsePattern ([50] :: words) =
      .returns (.losing ((words.map atoiInt).filter (0 < ·))) result := by
  have hkind : atoiInt [50] = 2 := by decide
  unfold parsePattern LossPattern.losing
  dsimp only
  rw [hkind, if_neg (by decide), if_neg (by decide), if_pos rfl]
  split_ifs <;> exact ⟨_, rfl⟩

/-- A file with blank lines and a line that lists numbers is opened with those that are read. -/
theorem openLossPatern_listing (listing : Listing entries numbers) (ends : LineRest rest)
    (blank : ℕ) : ∃ fuel result,
      openLossPatern fuel (some (List.replicate blank 10 ++ (50 :: entries ++ rest))) =
        some (.returns (.losing (listed entries)) result) := by
  have hbytes : ∀ byte ∈ 50 :: entries, isDigit byte = true ∨ byte = 32 := by
    rintro byte (_ | ⟨_, hbyte⟩)
    · exact Or.inl (by decide)
    · exact listing.characters byte hbyte
  have whole : (10 : UInt8) ∉ 50 :: entries := fun hmem =>
    absurd (hbytes 10 hmem) (by decide)
  have hnul : NoNul ((50 :: entries).take (fileBufLen - 1)) := fun hmem =>
    absurd (hbytes 0 (List.mem_of_mem_take hmem)) (by decide)
  have htake : (50 :: entries).take (fileBufLen - 1) = 50 :: entries.take (fileBufLen - 2) := rfl
  have hfirst : FirstText (50 :: entries ++ rest) (50 :: entries.take (fileBufLen - 2)) := by
    have text : cString ((50 :: entries).take (fileBufLen - 1)) ≠ [] := by
      rw [cString_eq_self hnul, htake]
      exact List.cons_ne_nil _ _
    have := FirstText.here whole ends text
    rwa [cString_eq_self hnul, htake] at this
  have hfile : FirstText (List.replicate blank 10 ++ (50 :: entries ++ rest))
      (50 :: entries.take (fileBufLen - 2)) := by
    induction blank with
    | zero => exact hfirst
    | succ blank ih => exact FirstText.blank List.not_mem_nil (by decide) rfl ih
  obtain ⟨fuel, data, hfound, hdata⟩ := skipEmpty_of_firstText hfile
  obtain ⟨result, hparse⟩ := parsePattern_kind (tokens (entries.take (fileBufLen - 2)))
  refine ⟨fuel, result, ?_⟩
  have hbegins : ∀ byte, (entries.take (fileBufLen - 2)).head? = some byte → byte = 32 := by
    intro byte hbyte
    refine listing.begins byte ?_
    rwa [List.head?_take, if_neg (by decide)] at hbyte
  rw [openLossPatern_eq, TextStream.openFile, hfound, Option.map_some, hdata, tokens_kind hbegins,
    hparse]
  rfl

/-- A line that fits into the array, with numbers that an integer can hold, is read as it is. -/
theorem listed_eq (listing : Listing entries numbers) (fits : entries.length ≤ fileBufLen - 2)
    (bound : ∀ number ∈ numbers, number < 2 ^ 31) :
    listed entries = numbers.map (Nat.cast : ℕ → ℤ) := by
  rw [listed, List.take_of_length_le fits, ← listing.words, List.map_map]
  have hread : ∀ word ∈ tokens entries, atoiInt word = ((digitsValue word : ℕ) : ℤ) := by
    intro word hword
    obtain ⟨hne, hbytes⟩ := mem_tokens hword
    refine atoiInt_digits (fun byte hbyte => ?_) hne
      (bound _ (listing.words ▸ List.mem_map_of_mem hword))
    obtain ⟨hmem, hblank⟩ := hbytes byte hbyte
    exact (listing.characters byte hmem).resolve_right hblank
  rw [List.map_congr_left hread]
  refine List.filter_eq_self.mpr fun number hnumber => ?_
  obtain ⟨word, hword, rfl⟩ := List.mem_map.mp hnumber
  have hpositive := listing.positive _ (listing.words ▸ List.mem_map_of_mem hword)
  exact decide_eq_true (by exact_mod_cast hpositive)

/-- For every file whose first line that is not empty lists numbers and as many arrivals as the
code can number, the pattern is read, and the arrivals dropped are those listed, with a number to
look at in each, exactly when the numbers up to the last arrival are the rising run of what was
read, and the arrivals do not go behind its end. -/
theorem followsList_listing (listing : Listing entries numbers) (ends : LineRest rest)
    (blank : ℕ) (ds : List Datagram) (few : ds.length < 2 ^ 31) : ∃ fuel pattern result,
      openLossPatern fuel (some (List.replicate blank 10 ++ (50 :: entries ++ rest))) =
          some (.returns pattern result) ∧
        (FollowsList numbers pattern ds ↔ Honoured numbers (listed entries) ds.length) := by
  obtain ⟨fuel, result, hopen⟩ := openLossPatern_listing listing ends blank
  refine ⟨fuel, _, result, hopen, followsList_iff few fun number hnumber => ?_⟩
  exact of_decide_eq_true (List.mem_filter.mp hnumber).2

/-- The second packet is to be lost. -/
theorem listing_two : Listing [32, 50] [2] where
  begins := by simp
  characters := List.forall_mem_cons.mpr
    ⟨Or.inr rfl, List.forall_mem_singleton.mpr (Or.inl rfl)⟩
  words := by decide
  positive := by decide

/-- Three datagrams with nothing in them. -/
def threeArrivals : List Datagram := List.replicate 3 ⟨[], [], 0, false⟩

theorem followsList_listing_two : ∃ fuel pattern result,
    openLossPatern fuel (some (List.replicate 1 10 ++ (50 :: [32, 50] ++ [10]))) =
        some (.returns pattern result) ∧
      (FollowsList [2] pattern threeArrivals ↔ Honoured [2] (listed [32, 50]) 3) :=
  followsList_listing listing_two (by simp [LineRest]) 1 threeArrivals (by decide)

/-- The third arrival looks behind the end of the list. -/
theorem followsList_behind : ¬ ∀ (entries rest : List UInt8) (numbers : List ℕ) (blank fuel : ℕ)
    (pattern : LossPattern) (result : ℤ) (ds : List Datagram),
    Listing entries numbers → LineRest rest →
      openLossPatern fuel (some (List.replicate blank 10 ++ (50 :: entries ++ rest))) =
        some (.returns pattern result) → FollowsList numbers pattern ds := by
  intro h
  have hopen : openLossPatern 2 (some (List.replicate 1 10 ++ (50 :: [32, 50] ++ [10]))) =
      some (.returns (.losing [2]) 0) := rfl
  have hrange := (h [32, 50] [10] [2] 1 2 _ _ threeArrivals listing_two (by simp [LineRest])
    hopen).inRange 2 (by decide)
  revert hrange
  decide +kernel

end Comnet.MP2
