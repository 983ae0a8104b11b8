/-
# The client's side of a response

The client reads lines until one of a single character, takes the response code from
the first and the length of the content from the second, and then receives as many
bytes as announced. A header that lacks the character that a number is looked for
behind makes it read through a null pointer, and a line that does not fit its buffer is
written over what lies behind.
-/

import Comnet.ClientServer.Network

set_option autoImplicit false

namespace Comnet.ClientServer

open Foundations

/-- The client's `BUFSIZE`. -/
def requestSize : ℕ := 1024

/-- How the client ends. -/
inductive ClientEnd where
  | badRequest
  | notFound
  | failed
  /-- The client has read through a null pointer, or written or read behind its buffer. -/
  | undefined
  | received (contentLength readLength : ℤ) (content : List UInt8)
  deriving DecidableEq

/-- How the loop over the header ends. -/
inductive HeaderEnd where
  | body (c : Incoming) (contentLength : ℤ)
  | exit (result : ClientEnd)

/-- The client in the loop over the header. -/
structure HeaderState where
  c : Incoming
  buf : List UInt8
  count : ℕ
  contentLength : ℤ

/-- One round of the loop over the header: the loop goes on or ends. -/
def headerRound (s : HeaderState) : HeaderState ⊕ HeaderEnd :=
  let (c, buf, bytesRead) := s.c.recvLine s.buf
  -- every line is printed, as a string
  if s.c.overruns requestSize c buf then .inr (.exit .undefined)
  else if bytesRead = 1 then .inr (.body c s.contentLength)
  else
    let count := s.count + 1
    if count = 1 then
      match strchr buf 32 with
      -- a status line without a blank: the null pointer is moved on and read
      | none => .inr (.exit .undefined)
      | some blank =>
        let responseCode := atoiInt blank.tail
        if responseCode = 400 then .inr (.exit .badRequest)
        else if responseCode = 404 then .inr (.exit .notFound)
        else .inl ⟨c, buf, count, s.contentLength⟩
    else if count = 2 then
      match strchr buf 58 with
      | none => .inr (.exit .undefined)
      | some colon => .inl ⟨c, buf, count, atoiInt colon.tail⟩
    else .inl ⟨c, buf, count, s.contentLength⟩

/-- The loop over the header. -/
def headerLoop : ℕ → HeaderState → Option HeaderEnd
  | 0, _ => none
  | fuel + 1, s =>
    match headerRound s with
    | .inl s => headerLoop fuel s
    | .inr result => some result

/-- The client after it has sent its request; its buffer holds the request and
`contentLength` is not initialised. -/
def client (fuel : ℕ) (c : Incoming) (buf : List UInt8) (contentLength : ℤ) :
    Option ClientEnd :=
  match headerLoop fuel ⟨c, buf, 0, contentLength⟩ with
  | none => none
  | some (.exit result) => some result
  | some (.body c contentLength) =>
    if !malloc contentLength then some .failed
    else
      match c.recvStream fuel contentLength.toNat with
      | none => none
      | some (_, content, readLength) =>
        if readLength < 0 then some .failed
        else some (.received contentLength readLength content)

variable {s next : HeaderState} {result : HeaderEnd} {fuel : ℕ}

theorem headerLoop_of_round (h : headerRound s = .inl next) :
    headerLoop (fuel + 1) s = headerLoop fuel next := by
  simp only [headerLoop, h]

theorem headerLoop_of_end (h : headerRound s = .inr result) :
    headerLoop (fuel + 1) s = some result := by
  simp only [headerLoop, h]

/-- More fuel does not change a header loop that has ended. -/
theorem headerLoop_mono (h : headerLoop fuel s = some result) {fuel' : ℕ} (hle : fuel ≤ fuel') :
    headerLoop fuel' s = some result := by
  induction fuel generalizing s fuel' with
  | zero => simp [headerLoop] at h
  | succ fuel ih =>
    obtain ⟨fuel', rfl⟩ : ∃ n, fuel' = n + 1 := ⟨fuel' - 1, by omega⟩
    cases hround : headerRound s with
    | inl next =>
      rw [headerLoop_of_round hround] at h ⊢
      exact ih h (by omega)
    | inr other =>
      rw [headerLoop_of_end hround] at h ⊢
      exact h

/-! ## One round

What a round does depends on the string that the call leaves in the buffer, and on the number
behind a character in it. -/

/-- The number behind the first occurrence of a character in a string. -/
def numberBehind (text : List UInt8) (char : UInt8) : Option ℤ :=
  if char ∈ text then some (atoiInt (text.dropWhile (· ≠ char)).tail) else none

/-- The string in the buffer after a call: the line, or where none ends all that has come and
what stands behind it in the buffer. -/
def lineText (stream buf : List UInt8) : List UInt8 :=
  match cutLine stream with
  | some (line, _) => cString line
  | none => cString (overwrite buf stream)

/-- The result of a call that reads a line. -/
def lineResult (stream : List UInt8) : ℕ :=
  match cutLine stream with
  | some (line, _) => strlen line
  | none => 0

variable {c : Incoming} {memory text value : List UInt8} {char : UInt8}

theorem numberBehind_append {front : List UInt8} (h : char ∉ front) :
    numberBehind (front ++ char :: value) char = some (atoiInt value) := by
  rw [numberBehind, if_pos (by simp), dropWhile_append_char h]
  rfl

theorem mem_of_numberBehind {number : ℤ} (h : numberBehind text char = some number) :
    char ∈ text := by
  by_contra hmem
  rw [numberBehind, if_neg hmem] at h
  exact nomatch h

/-- What is read behind a character in memory depends on the string there alone. -/
theorem strchr_atoi (memory : List UInt8) (char : UInt8) :
    (strchr memory char).map (fun found => atoiInt found.tail) =
      numberBehind (cString memory) char := by
  by_cases hmem : char ∈ cString memory
  · obtain ⟨front, value, hsplit, hfront⟩ := List.eq_append_cons_of_mem hmem
    rw [strchr, if_pos hmem, hsplit, numberBehind_append hfront, Option.map_some]
    rcases eq_cString_or memory with hmemory | ⟨behind, hmemory⟩
    · rw [hmemory, hsplit, dropWhile_append_char hfront]
      rfl
    · rw [hmemory, hsplit, List.append_assoc, List.cons_append, dropWhile_append_char hfront]
      exact congrArg some (atoiInt_append_zero value behind)
  · rw [strchr, if_neg hmem, numberBehind, if_neg hmem]
    rfl

/-- What a call leaves on the connection and in the buffer. -/
theorem recvLine_text (h : Reliable c.outcomes) (buffer : List UInt8) :
    ∃ c' memory, c.recvLine buffer = (c', memory, (lineResult c.pending : ℤ)) ∧
      cString memory = lineText c.pending buffer ∧ c'.pending = (readLine c.pending).2.1 ∧
      c'.outcomes = c.outcomes := by
  unfold lineResult lineText readLine
  cases hcut : cutLine c.pending with
  | none =>
    obtain ⟨c', hrecv, hrest, houtcomes⟩ := Incoming.recvLine_of_no_cut h hcut buffer
    exact ⟨c', _, hrecv, rfl, hrest, houtcomes⟩
  | some cut =>
    obtain ⟨line, rest⟩ := cut
    obtain ⟨c', hrecv, hrest, houtcomes⟩ := Incoming.recvLine_of_cut h hcut buffer
    exact ⟨c', _, hrecv, cString_append_zero_cons line _, hrest, houtcomes⟩

/-- A line that does not fit the buffer ends the loop. -/
theorem headerRound_of_overrun (h : Reliable s.c.outcomes)
    (hover : ¬ LineFits requestSize s.c.pending s.buf) :
    headerRound s = .inr (.exit .undefined) := by
  rw [← Incoming.overruns_recvLine h, Bool.not_eq_false] at hover
  simp only [headerRound, hover, if_true]

/-- What a round does about a line that fits, told from the string that the call leaves in the
buffer. -/
theorem headerRound_eq (h : Reliable s.c.outcomes)
    (fits : LineFits requestSize s.c.pending s.buf) :
    ∃ c memory, c.pending = (readLine s.c.pending).2.1 ∧ c.outcomes = s.c.outcomes ∧
      headerRound s =
        if lineResult s.c.pending = 1 then .inr (.body c s.contentLength)
        else if s.count = 0 then
          match numberBehind (lineText s.c.pending s.buf) 32 with
          | none => .inr (.exit .undefined)
          | some responseCode =>
            if responseCode = 400 then .inr (.exit .badRequest)
            else if responseCode = 404 then .inr (.exit .notFound)
            else .inl ⟨c, memory, 1, s.contentLength⟩
        else if s.count = 1 then
          match numberBehind (lineText s.c.pending s.buf) 58 with
          | none => .inr (.exit .undefined)
          | some length => .inl ⟨c, memory, 2, length⟩
        else .inl ⟨c, memory, s.count + 1, s.contentLength⟩ := by
  obtain ⟨c, memory, hrecv, htext, hpending, houtcomes⟩ := recvLine_text h s.buf
  refine ⟨c, memory, hpending, houtcomes, ?_⟩
  have hinside := (Incoming.overruns_recvLine h requestSize s.buf).mpr fits
  rw [← htext, ← strchr_atoi, ← strchr_atoi]
  simp only [hrecv] at hinside
  simp only [headerRound, hrecv, hinside, Bool.false_eq_true, if_false, Nat.cast_eq_one]
  by_cases hresult : lineResult s.c.pending = 1
  · rw [if_pos hresult, if_pos hresult]
  · rw [if_neg hresult, if_neg hresult]
    by_cases hfirst : s.count = 0
    · simp only [hfirst, Nat.zero_add, if_true]
      cases strchr memory 32 <;> rfl
    · by_cases hsecond : s.count = 1
      · simp only [hsecond, Nat.reduceAdd, Nat.reduceEqDiff, if_false, if_true]
        cases strchr memory 58 <;> rfl
      · rw [if_neg (by omega), if_neg (by omega), if_neg hfirst, if_neg hsecond]

/-! ## The header of a file -/

/-- A line without a carriage return is cut off up to its end. -/
theorem cutLine_eol {line rest : List UInt8} (h : 13 ∉ line) :
    cutLine (line ++ eol ++ rest) = some (line, rest) := by
  rw [show eol = [13, 10] by decide]
  exact cutLine_line_iff.mpr (noLineEnd_of_not_mem h)

/-- The line with the response code is read over. -/
theorem headerRound_status (h : Reliable s.c.outcomes) {rest : List UInt8}
    (hpending : s.c.pending = bytes "HTTP 200 OK" ++ eol ++ rest) (hcount : s.count = 0) :
    ∃ next, headerRound s = .inl next ∧ next.c.pending = rest ∧
      next.c.outcomes = s.c.outcomes ∧ next.count = 1 := by
  have hcut : cutLine s.c.pending = some (bytes "HTTP 200 OK", rest) := by
    rw [hpending]
    exact cutLine_eol (by decide)
  have hresult : lineResult s.c.pending ≠ 1 := by
    simp only [lineResult, hcut]
    decide
  have hcode : numberBehind (lineText s.c.pending s.buf) 32 = some 200 := by
    simp only [lineText, hcut]
    decide
  obtain ⟨c, memory, hrest, houtcomes, hround⟩ :=
    headerRound_eq h ((lineFits_of_cut hcut).mpr (by decide))
  rw [if_neg hresult, if_pos hcount, hcode] at hround
  simp only [readLine, hcut] at hrest
  exact ⟨⟨c, memory, 1, s.contentLength⟩, hround, hrest, houtcomes, rfl⟩

/-- The line with the length gives the length. -/
theorem headerRound_length (h : Reliable s.c.outcomes) {length : ℕ} (bound : length < 2 ^ 31)
    {rest : List UInt8}
    (hpending : s.c.pending = (bytes "Content-Length:" ++ decimal length) ++ eol ++ rest)
    (hcount : s.count = 1) :
    ∃ next, headerRound s = .inl next ∧ next.c.pending = rest ∧
      next.c.outcomes = s.c.outcomes ∧ next.contentLength = length := by
  have hdigits : ∀ byte : UInt8, isDigit byte = false → byte ∉ decimal length := by
    intro byte hbyte hmem
    exact absurd ((isDigit_of_mem_decimal hmem).symm.trans hbyte) (by decide)
  have hcut : cutLine s.c.pending = some (bytes "Content-Length:" ++ decimal length, rest) := by
    rw [hpending]
    exact cutLine_eol fun hmem =>
      (List.mem_append.mp hmem).elim (by decide) (hdigits 13 (by decide))
  have hline : cString (bytes "Content-Length:" ++ decimal length) =
      bytes "Content-Length" ++ 58 :: decimal length := by
    rw [cString_eq_self (NoNul.append (by decide) (hdigits 0 (by decide)))]
    have hname : bytes "Content-Length:" = bytes "Content-Length" ++ [58] := by decide
    rw [hname, List.append_assoc, List.singleton_append]
  have hnumber : numberBehind (lineText s.c.pending s.buf) 58 = some (length : ℤ) := by
    simp only [lineText, hcut]
    rw [hline, numberBehind_append (by decide), atoiInt_decimal bound]
  have hresult : lineResult s.c.pending ≠ 1 := by
    have hname : (bytes "Content-Length").length = 14 := by decide
    simp only [lineResult, hcut, strlen, hline, List.length_append, hname]
    omega
  have hfits : LineFits requestSize s.c.pending s.buf := by
    have hdigits : (decimal length).length ≤ 10 := length_decimal_le (by omega) (by decide)
    have hname : (bytes "Content-Length:").length = 15 := by decide
    have heol : eol.length = 2 := by decide
    rw [lineFits_of_cut hcut, List.length_append, hname, heol]
    unfold requestSize
    omega
  obtain ⟨c, memory, hrest, houtcomes, hround⟩ := headerRound_eq h hfits
  rw [if_neg hresult, if_neg (by omega), if_pos hcount, hnumber] at hround
  simp only [readLine, hcut] at hrest
  exact ⟨⟨c, memory, 2, length⟩, hround, hrest, houtcomes, rfl⟩

/-- The line of one character ends the header. -/
theorem headerRound_empty (h : Reliable s.c.outcomes) {rest : List UInt8}
    (hpending : s.c.pending = [10] ++ eol ++ rest) :
    ∃ c, headerRound s = .inr (.body c s.contentLength) ∧ c.pending = rest ∧
      c.outcomes = s.c.outcomes := by
  have hcut : cutLine s.c.pending = some ([10], rest) := by
    rw [hpending]
    exact cutLine_eol (by decide)
  have hresult : lineResult s.c.pending = 1 := by
    simp only [lineResult, hcut]
    decide
  obtain ⟨c, memory, hrest, houtcomes, hround⟩ :=
    headerRound_eq h ((lineFits_of_cut hcut).mpr (by decide))
  rw [if_pos hresult] at hround
  simp only [readLine, hcut] at hrest
  exact ⟨c, hround, hrest, houtcomes⟩

/-- The header of a file is read to its end in three rounds, whatever was in the buffer and however
the connection splits it: the length is that of the file, and what comes next is what was sent
behind the header. -/
theorem headerLoop_header {outcomes : ℕ → Option ℕ} (h : Reliable outcomes) {file : List UInt8}
    (bound : file.length < 2 ^ 31) (body buf : List UInt8) (contentLength : ℤ) :
    ∃ c, headerLoop 3 ⟨.fresh (Outgoing.header file ++ body) outcomes, buf, 0, contentLength⟩ =
        some (.body c file.length) ∧ c.pending = body ∧ c.outcomes = outcomes := by
  have hheader : Outgoing.header file ++ body = bytes "HTTP 200 OK" ++ eol ++
      ((bytes "Content-Length:" ++ decimal file.length) ++ eol ++ ([10] ++ eol ++ body)) := by
    have hstatus : bytes "HTTP 200 OK\r\n" = bytes "HTTP 200 OK" ++ eol := by decide
    have hend : bytes "\r\n\n\r\n" = eol ++ ([10] ++ eol) := by decide
    rw [Outgoing.header, hstatus, hend]
    simp only [List.append_assoc]
  rw [hheader]
  obtain ⟨s₁, hround₁, hpending₁, houtcomes₁, hcount₁⟩ :=
    headerRound_status (s := ⟨.fresh _ outcomes, buf, 0, contentLength⟩) h rfl rfl
  obtain ⟨s₂, hround₂, hpending₂, houtcomes₂, hlength⟩ :=
    headerRound_length (houtcomes₁ ▸ h) bound hpending₁ hcount₁
  have houtcomes : s₂.c.outcomes = outcomes := houtcomes₂.trans houtcomes₁
  obtain ⟨c, hround₃, hpending₃, houtcomes₃⟩ := headerRound_empty (houtcomes ▸ h) hpending₂
  refine ⟨c, ?_, hpending₃, houtcomes₃.trans houtcomes⟩
  rw [headerLoop_of_round hround₁, headerLoop_of_round hround₂, headerLoop_of_end hround₃,
    hlength]

end Comnet.ClientServer
