/-
# Lines and words of a text file

A line is read into an array of a fixed size. The end of the file inside of a line ends
the line too, but leaves a stream that is no longer good; a line that does not fit is cut
and is a failure. From a stream that is not good nothing is read: the array holds the empty
string from then on. Words are what stands between blanks.
-/

import Comnet.Foundations.CString

set_option autoImplicit false

namespace Comnet.Foundations

/-- A text file that is read by lines. -/
structure TextStream where
  /-- What has not been read. -/
  rest : List UInt8
  good : Bool

namespace TextStream

def openFile : Option (List UInt8) → TextStream
  | some content => ⟨content, true⟩
  | none => ⟨[], false⟩

/-- Read a line into an array; the characters it then holds in front of the end of the string. -/
def getline (s : TextStream) (size : ℕ) : List UInt8 × TextStream :=
  if s.good then
    let line := s.rest.takeWhile (· ≠ 10)
    if line.length < size then
      match s.rest.dropWhile (· ≠ 10) with
      | [] => (line, ⟨[], false⟩)
      | _ :: rest => (line, ⟨rest, true⟩)
    else (line.take (size - 1), ⟨s.rest.drop (size - 1), false⟩)
  else ([], s)

end TextStream

/-- The words that `strtok` finds between blanks. -/
def tokens (text : List UInt8) : List (List UInt8) := (text.splitOn 32).filter (· ≠ [])

/-- The rest of a text behind a line: nothing, or the end of the line and what follows. -/
def LineRest (rest : List UInt8) : Prop := ∀ byte, rest.head? = some byte → byte = 10

variable {line rest content : List UInt8} {size : ℕ}

/-- Every text begins with a line. -/
theorem exists_line (content : List UInt8) :
    ∃ line rest, content = line ++ rest ∧ (10 : UInt8) ∉ line ∧ LineRest rest := by
  refine ⟨content.takeWhile (· ≠ 10), content.dropWhile (· ≠ 10),
    List.takeWhile_append_dropWhile.symm, fun hmem => ?_, fun byte hbyte => ?_⟩
  · exact absurd (List.mem_takeWhile_imp hmem) (by decide)
  · have := List.head?_dropWhile_not (fun byte : UInt8 => decide (byte ≠ 10)) content
    rw [hbyte] at this
    simpa using this

theorem takeWhile_line (h : (10 : UInt8) ∉ line) (hrest : LineRest rest) :
    (line ++ rest).takeWhile (· ≠ 10) = line ∧ (line ++ rest).dropWhile (· ≠ 10) = rest := by
  have hline : ∀ byte ∈ line, decide (byte ≠ 10) = true := by
    intro byte hmem
    exact decide_eq_true fun heq => h (heq ▸ hmem)
  rw [List.takeWhile_append_of_pos hline, List.dropWhile_append_of_pos hline]
  cases rest with
  | nil => simp
  | cons byte rest => simp [hrest byte rfl]

/-! ## Words -/

theorem tokens_append_blank (front text : List UInt8) :
    tokens (front ++ 32 :: text) = tokens front ++ tokens text := by
  rw [tokens, List.splitOn_append_cons_self, List.filter_append]
  rfl

theorem tokens_of_not_mem {word : List UInt8} (h : (32 : UInt8) ∉ word) (ne : word ≠ []) :
    tokens word = [word] := by
  simp [tokens, List.splitOn_eq_singleton h, ne]

theorem mem_of_mem_splitOn {text word : List UInt8} (h : word ∈ text.splitOn 32) :
    ∀ byte ∈ word, byte ∈ text ∧ byte ≠ 32 := by
  induction text generalizing word with
  | nil =>
    rw [List.splitOn_nil, List.mem_singleton] at h
    simp [h]
  | cons first text ih =>
    intro byte hbyte
    rw [List.splitOn_cons_eq_if_modifyHead] at h
    obtain ⟨head, tail, hsplit⟩ := List.exists_cons_of_ne_nil (List.splitOn_ne_nil 32 text)
    split_ifs at h with hblank
    · rcases List.mem_cons.mp h with rfl | hmem
      · exact absurd hbyte List.not_mem_nil
      · exact (ih hmem byte hbyte).imp_left (List.mem_cons_of_mem _)
    · rw [hsplit, List.modifyHead_cons] at h
      rcases List.mem_cons.mp h with rfl | hmem
      · rcases List.mem_cons.mp hbyte with rfl | hbyte
        · exact ⟨List.mem_cons_self, by simpa using hblank⟩
        · have hhead : head ∈ text.splitOn 32 := hsplit ▸ List.mem_cons_self
          exact (ih hhead byte hbyte).imp_left (List.mem_cons_of_mem _)
      · have htail : word ∈ text.splitOn 32 := hsplit ▸ List.mem_cons_of_mem _ hmem
        exact (ih htail byte hbyte).imp_left (List.mem_cons_of_mem _)

/-- A word has characters, and they are characters of the text and no blanks. -/
theorem mem_tokens {text word : List UInt8} (h : word ∈ tokens text) :
    word ≠ [] ∧ ∀ byte ∈ word, byte ∈ text ∧ byte ≠ 32 := by
  obtain ⟨hmem, hne⟩ := List.mem_filter.mp h
  exact ⟨of_decide_eq_true hne, mem_of_mem_splitOn hmem⟩

/-! ## Reading a line -/

namespace TextStream

theorem getline_failed (rest : List UInt8) (size : ℕ) :
    getline ⟨rest, false⟩ size = ([], ⟨rest, false⟩) := rfl

/-- A line that fits is read with its end. -/
theorem getline_line (h : (10 : UInt8) ∉ line) (fits : line.length < size) :
    getline ⟨line ++ 10 :: rest, true⟩ size = (line, ⟨rest, true⟩) := by
  obtain ⟨htake, hdrop⟩ := @takeWhile_line line (10 :: rest) h (by simp [LineRest])
  simp only [getline, if_true, htake, hdrop, fits]

/-- The last line of a file that does not end with one. -/
theorem getline_last (h : (10 : UInt8) ∉ line) (fits : line.length < size) :
    getline ⟨line, true⟩ size = (line, ⟨[], false⟩) := by
  obtain ⟨htake, hdrop⟩ := @takeWhile_line line [] h (by simp [LineRest])
  rw [List.append_nil] at htake hdrop
  simp only [getline, if_true, htake, hdrop, fits]

/-- A line that does not fit is cut. -/
theorem getline_long (h : (10 : UInt8) ∉ line) (hrest : LineRest rest) (long : size ≤ line.length) :
    ∃ left, getline ⟨line ++ rest, true⟩ size = (line.take (size - 1), ⟨left, false⟩) := by
  obtain ⟨htake, -⟩ := takeWhile_line h hrest
  refine ⟨(line ++ rest).drop (size - 1), ?_⟩
  simp only [getline, if_true, htake, not_lt.mpr long, if_false]

end TextStream

end Comnet.Foundations
