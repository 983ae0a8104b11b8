/-
# The file of the loss pattern

The first line that is not blank gives the pattern: a kind and, behind it, the numbers of
the kind. Blank lines are skipped by reading on until a line is found, also when the file has
none: a stream that is exhausted gives empty lines for ever. A word that is missing is
looked at all the same, both for the kind and for the period.
-/

import Comnet.Foundations.CString
import Comnet.Foundations.Decimal
import Comnet.Foundations.Text
import Comnet.MP2.Receiver

set_option autoImplicit false

namespace Comnet.MP2

open Foundations

/-- The size of the array that a line is read into. -/
abbrev fileBufLen : ℕ := 512

/-- How opening a loss pattern ends. -/
inductive Opening where
  | returns (pattern : LossPattern) (result : ℤ)
  /-- A null pointer has been passed to `atoi`. -/
  | undefined

/-- The loop that reads lines while they are empty, with the last line read. -/
def skipEmpty : ℕ → TextStream → List UInt8 → Option (List UInt8)
  | 0, _, _ => none
  | fuel + 1, ifs, data =>
    if strlen data = 0 then
      let (data, ifs) := ifs.getline fileBufLen
      skipEmpty fuel ifs data
    else some data

/-- What a line says. -/
def parsePattern (words : List (List UInt8)) : Opening :=
  match words with
  | [] => .undefined
  | pch :: words =>
    let temp := atoiInt pch
    if temp = 0 then .returns .none 0
    else if temp = 1 then
      -- the first word is tested again, not the second
      match words with
      | [] => .undefined
      | pch :: _ =>
        let lossPeriod := atoiInt pch
        -- losing every packet is not allowed
        if lossPeriod < 2 then .returns { LossPattern.none with lossPeriod := lossPeriod } (-1)
        else .returns { LossPattern.none with lossPeriod := lossPeriod, periodic := true } 0
    else if temp = 2 then
      let specificPackets := (words.map atoiInt).filter (0 < ·)
      if specificPackets = [] then .returns .none (-1)
      else .returns { LossPattern.none with
        specificPackets := specificPackets
        specific := true } 0
    else .returns .none (-1)

/-- Read the loss pattern from a file, if the file can be opened. -/
def openLossPatern (fuel : ℕ) (file : Option (List UInt8)) : Option Opening :=
  let (data, ifs) := (TextStream.openFile file).getline fileBufLen
  (skipEmpty fuel ifs data).map fun data => parsePattern (tokens (cString data))

/-- The pattern can be used, or there is none. -/
def Usable (pattern : LossPattern) (result : ℤ) : Prop :=
  (result = -1 ∧ pattern.periodic = false ∧ pattern.specific = false) ∨
    (result = 0 ∧ (pattern.periodic = true → 2 ≤ pattern.lossPeriod) ∧
      (pattern.specific = true → pattern.specificPackets ≠ []) ∧
      ¬ (pattern.periodic = true ∧ pattern.specific = true))

/-- Opening the pattern ends, without having looked at a word that is missing, and with a
result that the caller can rely on. -/
def Robust (file : Option (List UInt8)) : Prop :=
  ∃ fuel pattern result, openLossPatern fuel file = some (.returns pattern result) ∧
    Usable pattern result

/-- The text that the first line which is not blank leaves in the array. Blank is also a line that
begins with a zero byte, and the lines in front of the first must fit into the array. -/
inductive FirstText : List UInt8 → List UInt8 → Prop
  | here {line rest : List UInt8} (whole : (10 : UInt8) ∉ line) (ends : LineRest rest)
      (text : cString (line.take (fileBufLen - 1)) ≠ []) :
      FirstText (line ++ rest) (cString (line.take (fileBufLen - 1)))
  | blank {line rest text : List UInt8} (whole : (10 : UInt8) ∉ line)
      (fits : line.length < fileBufLen) (empty : cString line = [])
      (behind : FirstText rest text) : FirstText (line ++ 10 :: rest) text

/-- The words that are looked at are there. -/
def Complete (words : List (List UInt8)) : Prop :=
  ∃ first others, words = first :: others ∧ (atoiInt first = 1 → others ≠ [])

variable {fuel : ℕ} {ifs : TextStream} {data content text line rest : List UInt8}
  {words : List (List UInt8)} {pattern : LossPattern} {result : ℤ}

/-! ## Looking for a line -/

/-- A line that holds the empty string is read over whatever else it holds. -/
theorem skipEmpty_of_empty (h : strlen data = 0) :
    skipEmpty fuel ifs data = skipEmpty fuel ifs [] := by
  cases fuel with
  | zero => rfl
  | succ fuel =>
    have hnil : strlen [] = 0 := rfl
    rw [skipEmpty, skipEmpty, if_pos h, if_pos hnil]

theorem skipEmpty_of_text (h : strlen data ≠ 0) : skipEmpty (fuel + 1) ifs data = some data :=
  if_neg h

theorem skipEmpty_next : skipEmpty (fuel + 1) ifs [] =
    skipEmpty fuel (ifs.getline fileBufLen).2 (ifs.getline fileBufLen).1 := rfl

/-- Once the stream is not good any more no line is found. -/
theorem skipEmpty_failed (fuel : ℕ) (rest : List UInt8) :
    skipEmpty fuel ⟨rest, false⟩ [] = none := by
  induction fuel with
  | zero => rfl
  | succ fuel ih =>
    rw [skipEmpty_next, TextStream.getline_failed]
    exact ih

/-- A text in the last array that is filled is the last chance. -/
theorem skipEmpty_last (h : skipEmpty fuel ⟨rest, false⟩ line = some data) :
    data = line ∧ cString line ≠ [] := by
  by_cases hempty : strlen line = 0
  · rw [skipEmpty_of_empty hempty, skipEmpty_failed] at h
    exact nomatch h
  · cases fuel with
    | zero => exact nomatch h
    | succ fuel =>
      rw [skipEmpty_of_text hempty] at h
      exact ⟨(Option.some.inj h).symm, fun hnil => hempty (strlen_eq_zero_iff.mpr hnil)⟩

theorem take_of_fits (fits : line.length < fileBufLen) : line.take (fileBufLen - 1) = line :=
  List.take_of_length_le (by unfold fileBufLen at fits ⊢; omega)

/-- The loop ends with the first text. -/
theorem firstText_of_skipEmpty (h : skipEmpty fuel ⟨content, true⟩ [] = some data) :
    FirstText content (cString data) := by
  induction fuel generalizing content with
  | zero => exact nomatch h
  | succ fuel ih =>
    obtain ⟨line, rest, rfl, whole, ends⟩ := exists_line content
    rw [skipEmpty_next] at h
    by_cases fits : line.length < fileBufLen
    · cases rest with
      | nil =>
        rw [List.append_nil, TextStream.getline_last whole fits] at h
        obtain ⟨rfl, text⟩ := skipEmpty_last h
        rw [← take_of_fits fits] at text
        have := FirstText.here whole ends text
        rwa [take_of_fits fits] at this
      | cons byte rest =>
        obtain rfl : byte = 10 := ends byte rfl
        rw [TextStream.getline_line whole fits] at h
        by_cases hempty : strlen line = 0
        · rw [skipEmpty_of_empty hempty] at h
          exact .blank whole fits (strlen_eq_zero_iff.mp hempty) (ih h)
        · cases fuel with
          | zero => exact nomatch h
          | succ fuel =>
            rw [skipEmpty_of_text hempty] at h
            obtain rfl := Option.some.inj h
            have text : cString (line.take (fileBufLen - 1)) ≠ [] := fun hnil =>
              hempty (strlen_eq_zero_iff.mpr (take_of_fits fits ▸ hnil))
            have := FirstText.here whole ends text
            rwa [take_of_fits fits] at this
    · obtain ⟨left, hline⟩ := TextStream.getline_long whole ends (not_lt.mp fits)
      rw [hline] at h
      obtain ⟨rfl, text⟩ := skipEmpty_last h
      exact .here whole ends text

/-- Where there is a first text the loop ends. -/
theorem skipEmpty_of_firstText (h : FirstText content text) :
    ∃ fuel data, skipEmpty (fuel + 1) ⟨content, true⟩ [] = some data ∧ cString data = text := by
  induction h with
  | @here line rest whole ends text =>
    have hread : ∃ ifs, TextStream.getline ⟨line ++ rest, true⟩ fileBufLen =
        (line.take (fileBufLen - 1), ifs) := by
      by_cases fits : line.length < fileBufLen
      · rw [take_of_fits fits]
        cases rest with
        | nil => exact ⟨_, by rw [List.append_nil, TextStream.getline_last whole fits]⟩
        | cons byte rest =>
          obtain rfl : byte = 10 := ends byte rfl
          exact ⟨_, TextStream.getline_line whole fits⟩
      · obtain ⟨left, hline⟩ := TextStream.getline_long whole ends (not_lt.mp fits)
        exact ⟨_, hline⟩
    obtain ⟨ifs, hline⟩ := hread
    refine ⟨1, line.take (fileBufLen - 1), ?_, rfl⟩
    rw [skipEmpty_next, hline]
    exact skipEmpty_of_text fun hzero => text (strlen_eq_zero_iff.mp hzero)
  | @blank line rest text whole fits empty behind ih =>
    obtain ⟨fuel, data, hfound, htext⟩ := ih
    refine ⟨fuel + 1, data, ?_, htext⟩
    rw [skipEmpty_next, TextStream.getline_line whole fits,
      skipEmpty_of_empty (strlen_eq_zero_iff.mpr empty)]
    exact hfound

/-! ## What a line says -/

/-- A result is one that the caller can rely on. -/
theorem usable_of_returns (h : parsePattern words = .returns pattern result) :
    Usable pattern result := by
  unfold parsePattern at h
  cases words with
  | nil => exact nomatch h
  | cons pch words =>
    dsimp only at h
    split_ifs at h with hzero hone htwo hempty
    · obtain ⟨rfl, rfl⟩ := Opening.returns.inj h
      exact Or.inr ⟨rfl, by simp [LossPattern.none], by simp [LossPattern.none],
        by simp [LossPattern.none]⟩
    · cases words with
      | nil => exact nomatch h
      | cons pch words =>
        dsimp only at h
        split_ifs at h with hless
        · obtain ⟨rfl, rfl⟩ := Opening.returns.inj h
          exact Or.inl ⟨rfl, rfl, rfl⟩
        · obtain ⟨rfl, rfl⟩ := Opening.returns.inj h
          exact Or.inr ⟨rfl, fun _ => not_lt.mp hless, by simp [LossPattern.none],
            by simp [LossPattern.none]⟩
    · obtain ⟨rfl, rfl⟩ := Opening.returns.inj h
      exact Or.inl ⟨rfl, rfl, rfl⟩
    · obtain ⟨rfl, rfl⟩ := Opening.returns.inj h
      exact Or.inr ⟨rfl, by simp [LossPattern.none], fun _ => hempty, by simp [LossPattern.none]⟩
    · obtain ⟨rfl, rfl⟩ := Opening.returns.inj h
      exact Or.inl ⟨rfl, rfl, rfl⟩

/-- A period is a value that `atoi` gives. -/
theorem lossPeriod_lt_of_returns (h : parsePattern words = .returns pattern result) :
    pattern.lossPeriod < 2 ^ 31 := by
  unfold parsePattern at h
  cases words with
  | nil => exact nomatch h
  | cons pch words =>
    have hnone : LossPattern.none.lossPeriod < 2 ^ 31 := by decide
    dsimp only at h
    split_ifs at h with hzero hone htwo hempty
    · exact (Opening.returns.inj h).1 ▸ hnone
    · cases words with
      | nil => exact nomatch h
      | cons pch words =>
        have hread : atoiInt pch < 2 ^ 31 := (fitsInt_narrow _).upper
        dsimp only at h
        split_ifs at h with hless
        · exact (Opening.returns.inj h).1 ▸ hread
        · exact (Opening.returns.inj h).1 ▸ hread
    · exact (Opening.returns.inj h).1 ▸ hnone
    · exact (Opening.returns.inj h).1 ▸ hnone
    · exact (Opening.returns.inj h).1 ▸ hnone

/-- There is a result exactly when the words that are looked at are there. -/
theorem returns_iff : (∃ pattern result, parsePattern words = .returns pattern result) ↔
    Complete words := by
  unfold parsePattern Complete
  cases words with
  | nil => simp
  | cons pch words =>
    dsimp only
    by_cases hone : atoiInt pch = 1
    · cases words with
      | nil => simp [hone]
      | cons other words =>
        refine iff_of_true ?_ ⟨pch, other :: words, rfl, fun _ => List.cons_ne_nil _ _⟩
        rw [hone, if_neg (by decide), if_pos rfl]
        dsimp only
        split_ifs <;> exact ⟨_, _, rfl⟩
    · refine iff_of_true ?_ ⟨pch, words, rfl, fun heq => absurd heq hone⟩
      rw [if_neg hone]
      split_ifs <;> exact ⟨_, _, rfl⟩

theorem openLossPatern_eq (fuel : ℕ) (file : Option (List UInt8)) : openLossPatern fuel file =
    (skipEmpty (fuel + 1) (TextStream.openFile file) []).map
      fun data => parsePattern (tokens (cString data)) := rfl

/-- Opening a loss pattern ends well exactly when the file can be opened, has a first text, and the
text has the words that are looked at. -/
theorem robust_iff (file : Option (List UInt8)) : Robust file ↔
    ∃ content text, file = some content ∧ FirstText content text ∧ Complete (tokens text) := by
  constructor
  · rintro ⟨fuel, pattern, result, hopen, -⟩
    rw [openLossPatern_eq] at hopen
    obtain ⟨data, hfound, hparse⟩ := Option.map_eq_some_iff.mp hopen
    cases file with
    | none =>
      rw [TextStream.openFile, skipEmpty_failed] at hfound
      exact nomatch hfound
    | some content =>
      exact ⟨content, cString data, rfl, firstText_of_skipEmpty hfound,
        returns_iff.mp ⟨pattern, result, hparse⟩⟩
  · rintro ⟨content, text, rfl, hfirst, hcomplete⟩
    obtain ⟨fuel, data, hfound, rfl⟩ := skipEmpty_of_firstText hfirst
    obtain ⟨pattern, result, hparse⟩ := returns_iff.mpr hcomplete
    refine ⟨fuel, pattern, result, ?_, usable_of_returns hparse⟩
    rw [openLossPatern_eq, TextStream.openFile, hfound, Option.map_some, hparse]

/-- On an empty file the loop never ends. -/
theorem robust_empty : ¬ ∀ file : Option (List UInt8), Robust file := by
  intro h
  obtain ⟨fuel, pattern, result, hopen, -⟩ := h (some [])
  have hnever : openLossPatern fuel (some []) = none := by
    rw [openLossPatern_eq, TextStream.openFile, skipEmpty_next,
      @TextStream.getline_last [] fileBufLen List.not_mem_nil (by decide), skipEmpty_failed]
    rfl
  exact nomatch hopen.symm.trans hnever

end Comnet.MP2
