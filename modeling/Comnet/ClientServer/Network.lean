/-
# Lines, streams and files over a connection

A connection carries bytes in order. How many of them a call moves is up to the
system: a call to `send` takes at least one of the bytes it is offered, a call to
`recv` delivers at least one while any are to come, or none once the peer has
closed, and either can fail. The choices are part of the two ends of a connection,
one for each call. A call that fails returns its error: the signal that may end a
program in a call to `send` is left out.

Loops whose end depends on these choices run on fuel, and `none` stands for a loop
that has not ended yet.
-/

import Comnet.Foundations.CString
import Comnet.Foundations.Decimal
import Comnet.Foundations.InputStream
import Comnet.Foundations.Lines
import Comnet.Foundations.MachineInt

set_option autoImplicit false

namespace Comnet.ClientServer

open Foundations

/-- The receiving end of a connection: the bytes that the peer sends before it closes
and have not been received, and how each call turns out. -/
structure Incoming where
  pending : List UInt8
  /-- How many bytes a call would deliver; `none` where it fails. -/
  outcomes : ℕ → Option ℕ
  calls : ℕ

/-- The sending end of a connection: what has been sent, and how each call turns out. -/
structure Outgoing where
  sent : List UInt8
  /-- How many bytes a call would take; `none` where it fails. -/
  outcomes : ℕ → Option ℕ
  calls : ℕ

/-- No call fails. -/
def Reliable (outcomes : ℕ → Option ℕ) : Prop := ∀ call, (outcomes call).isSome

/-- The bytes of a text. -/
def bytes (text : String) : List UInt8 := text.toList.map fun char => UInt8.ofNat char.toNat

/-- `malloc` grants what fits in memory; a negative number asks for more than that. -/
def malloc (size : ℤ) : Bool := 0 ≤ size

/-- The end of a line. -/
def eol : List UInt8 := bytes "\r\n"

namespace Incoming

/-- The end of a connection on which everything is still to come. -/
def fresh (pending : List UInt8) (outcomes : ℕ → Option ℕ) : Incoming := ⟨pending, outcomes, 0⟩

/-- A call to `recv` for at most `size` bytes. -/
def recv (c : Incoming) (size : ℕ) : Option (List UInt8) × Incoming :=
  match c.outcomes c.calls with
  | none => (none, { c with calls := c.calls + 1 })
  | some count =>
    let count := min size (max 1 count)
    (some (c.pending.take count),
      { c with pending := c.pending.drop count, calls := c.calls + 1 })

/-- A call to `recv` that waits for all `size` bytes or the end of the connection. -/
def recvAll (c : Incoming) (size : ℕ) : Option (List UInt8) × Incoming :=
  match c.outcomes c.calls with
  | none => (none, { c with calls := c.calls + 1 })
  | some _ =>
    (some (c.pending.take size), { c with pending := c.pending.drop size, calls := c.calls + 1 })

/-- The loop of `recvLine`, with the bytes read so far. -/
def recvLineLoop : ℕ → Incoming → List UInt8 → ℕ → Incoming × List UInt8 × Bool
  | 0, c, got, _ => (c, got, false)
  | fuel + 1, c, got, eolMatched =>
    match c.recv 1 with
    | (some [byte], c) =>
      -- a carriage return after a carriage return starts no new match
      if some byte = eol[eolMatched]? then
        if eolMatched + 1 = eol.length then (c, got ++ [byte], true)
        else recvLineLoop fuel c (got ++ [byte]) (eolMatched + 1)
      else recvLineLoop fuel c (got ++ [byte]) 0
    -- the call failed or the peer has closed
    | (_, c) => (c, got, false)

/-- Read up to the end of a line into a buffer. Every round takes a byte off the
connection, so there are no more rounds than bytes. -/
def recvLine (c : Incoming) (buffer : List UInt8) : Incoming × List UInt8 × ℤ :=
  let (c, got, found) := recvLineLoop (c.pending.length + 1) c [] 0
  if found then
    -- the end of the string takes the place of the end of the line
    let buffer := (overwrite buffer got).set (got.length - eol.length) 0
    (c, buffer, strlen buffer)
  else (c, overwrite buffer got, 0)

/-- Whether reading a line has written behind an array of `size` bytes, or has left no end of a
string in it. -/
def overruns (size : ℕ) (c c' : Incoming) (buffer : List UInt8) : Bool :=
  size < c.pending.length - c'.pending.length || !(buffer.take size).contains 0

/-- Receive while `more` says so of the number of bytes read, asking for `ask` of
them; the result tells whether no call failed. -/
def recvWhile (more : ℕ → Bool) (ask : ℕ → ℕ) : ℕ → Incoming → List UInt8 →
    Option (Incoming × List UInt8 × Bool)
  | 0, _, _ => none
  | fuel + 1, c, got =>
    if more got.length then
      match c.recv (ask got.length) with
      | (none, c) => some (c, got, false)
      | (some temp, c) => recvWhile more ask fuel c (got ++ temp)
    else some (c, got, true)

/-- The number of bytes that is received in one call. -/
abbrev blockSize : ℕ := 5 * 1024

/-- The first loop of `recvStream` goes on while more than a block is missing. -/
def blockMissing (size read : ℕ) : Bool := blockSize < size - read

/-- The second loop goes on until nothing is missing. -/
def missing (size read : ℕ) : Bool := read ≠ size

/-- Receive `size` bytes: what the destination holds from its start on and the result. -/
def recvStream (fuel : ℕ) (c : Incoming) (size : ℕ) : Option (Incoming × List UInt8 × ℤ) :=
  if size < blockSize then
    -- the only place that waits for all at once; a short read is no failure here
    match c.recvAll size with
    | (none, c) => some (c, [], -1)
    | (some got, c) => some (c, got, got.length)
  else
    match recvWhile (blockMissing size) (fun _ => blockSize) fuel c [] with
    | none => none
    | some (c, got, false) => some (c, got, -1)
    | some (c, got, true) =>
      match recvWhile (missing size) (size - ·) fuel c got with
      | none => none
      | some (c, got, false) => some (c, got, -1)
      | some (c, got, true) => some (c, got, got.length)

end Incoming

namespace Outgoing

/-- The end of a connection on which nothing has been sent. -/
def fresh (outcomes : ℕ → Option ℕ) : Outgoing := ⟨[], outcomes, 0⟩

/-- A call to `send`, with the number of bytes it took. -/
def send (c : Outgoing) (buf : List UInt8) : Option ℕ × Outgoing :=
  match c.outcomes c.calls with
  | none => (none, { c with calls := c.calls + 1 })
  | some count =>
    let count := min buf.length (max 1 count)
    (some count, { c with sent := c.sent ++ buf.take count, calls := c.calls + 1 })

/-- The loop of `sendString`, with the bytes left to send. -/
def sendLoop : ℕ → Outgoing → List UInt8 → Outgoing × ℤ
  | 0, c, _ => (c, 1)
  | fuel + 1, c, buf =>
    if buf = [] then (c, 1)
    else
      match c.send buf with
      | (none, c) => (c, 0)
      | (some count, c) => sendLoop fuel c (buf.drop count)

/-- Send the string at `buf`. Every round takes a byte off it. -/
def sendString (c : Outgoing) (buf : List UInt8) : Outgoing × ℤ :=
  sendLoop (strlen buf) c (cString buf)

/-- The size of a file, `-1` when it cannot be opened. -/
def getFileSize (file : Option (List UInt8)) : ℤ :=
  let stream := InputStream.openFile file
  narrow (stream.seekg stream.content.length).tellg

/-- Send a file with its header. There is no result where the size of the memory for
it is out of the range of the type it is computed in, which leaves the rest of the
program undefined. -/
def sendFile (c : Outgoing) (file : Option (List UInt8)) : Option (Outgoing × ℤ) :=
  let length := getFileSize file
  if length = -1 then some (c, -1)
  else if 2 ^ 31 ≤ length + 1 then none
  else if !malloc (length + 1) then some (c, 0)
  else
    let header := bytes "Content-Length:" ++ toDecimal length ++ bytes "\r\n\n\r\n"
    let (c, sentStatus) := c.sendString (bytes "HTTP 200 OK\r\n")
    let (c, sentHeader) := c.sendString header
    let (page, _) := (InputStream.openFile file).read length.toNat
    -- the bytes of the page go out as a string
    let (c, sentPage) := c.sendString (bytesAt page length.toNat ++ [0])
    some (c, if sentStatus + sentHeader + sentPage ≠ 3 then 0 else 1)

end Outgoing

/-! ## Sending -/

namespace Outgoing

variable {c : Outgoing} {buf : List UInt8}

/-- A call takes some of the bytes it is offered and leaves the others. -/
theorem send_of_reliable (h : Reliable c.outcomes) (hbuf : buf ≠ []) :
    ∃ count c', c.send buf = (some count, c') ∧ 0 < count ∧
      c'.sent = c.sent ++ buf.take count ∧ c'.outcomes = c.outcomes := by
  obtain ⟨count, hcount⟩ := Option.isSome_iff_exists.mp (h c.calls)
  have hpos : 0 < buf.length := List.length_pos_iff.mpr hbuf
  refine ⟨min buf.length (max 1 count), { c with
    sent := c.sent ++ buf.take (min buf.length (max 1 count))
    calls := c.calls + 1 }, ?_, ?_, rfl, rfl⟩
  · simp only [send, hcount]
  · omega

theorem sendLoop_of_reliable (h : Reliable c.outcomes) {fuel : ℕ} (hfuel : buf.length ≤ fuel) :
    ∃ c', sendLoop fuel c buf = (c', 1) ∧ c'.sent = c.sent ++ buf ∧ c'.outcomes = c.outcomes := by
  induction fuel generalizing c buf with
  | zero =>
    obtain rfl : buf = [] := List.eq_nil_of_length_eq_zero (by omega)
    exact ⟨c, rfl, by simp, rfl⟩
  | succ fuel ih =>
    by_cases hbuf : buf = []
    · exact ⟨c, by simp [sendLoop, hbuf], by simp [hbuf], rfl⟩
    · obtain ⟨count, c₁, hsend, hpos, hsent, houtcomes⟩ := send_of_reliable h hbuf
      have hlen : 0 < buf.length := List.length_pos_iff.mpr hbuf
      have hshort : (buf.drop count).length ≤ fuel := by
        rw [List.length_drop]
        omega
      obtain ⟨c₂, hloop, hsent₂, houtcomes₂⟩ := ih (houtcomes ▸ h) hshort
      refine ⟨c₂, ?_, ?_, houtcomes₂.trans houtcomes⟩
      · simp only [sendLoop, hbuf, if_false, hsend, hloop]
      · rw [hsent₂, hsent, List.append_assoc, List.take_append_drop]

/-- On a connection that does not fail the whole string is sent. -/
theorem sendString_of_reliable (h : Reliable c.outcomes) (buf : List UInt8) :
    ∃ c', c.sendString buf = (c', 1) ∧ c'.sent = c.sent ++ cString buf ∧
      c'.outcomes = c.outcomes :=
  sendLoop_of_reliable h le_rfl

theorem getFileSize_some {file : List UInt8} (bound : file.length < 2 ^ 31) :
    getFileSize (some file) = file.length := by
  have htell : ((InputStream.openFile (some file)).seekg file.length).tellg = file.length :=
    InputStream.tellg_seekg (by rw [InputStream.good_seekg_natCast]; rfl)
  unfold getFileSize
  dsimp only
  rw [InputStream.openFile_some] at htell ⊢
  rw [htell]
  exact narrow_of_mem (by omega) (by omega)

/-- What is sent in front of a file. -/
def header (file : List UInt8) : List UInt8 :=
  bytes "HTTP 200 OK\r\n" ++
    (bytes "Content-Length:" ++ decimal file.length ++ bytes "\r\n\n\r\n")

theorem noNul_decimal (value : ℕ) : NoNul (decimal value) := fun h =>
  absurd (isDigit_of_mem_decimal h) (by decide)

/-- A file whose size leaves room for the end of a string is sent as a string. -/
theorem sendFile_of_reliable (h : Reliable c.outcomes) {file : List UInt8}
    (bound : file.length + 1 < 2 ^ 31) :
    ∃ c', c.sendFile (some file) = some (c', 1) ∧
      c'.sent = c.sent ++ header file ++ cString file := by
  have hlength : getFileSize (some file) = file.length := getFileSize_some (by omega)
  have hdecimal : toDecimal file.length = decimal file.length := by
    simp [toDecimal]
  have hpage : ((InputStream.openFile (some file)).read file.length).1 = file := by
    simp [InputStream.read]
  have hblock : bytesAt file file.length ++ [0] = file ++ [0] := by
    rw [bytesAt_eq_take le_rfl, List.take_length]
  have hheader : NoNul (bytes "Content-Length:" ++ decimal file.length ++ bytes "\r\n\n\r\n") :=
    NoNul.append (NoNul.append (by decide) (noNul_decimal _)) (by decide)
  obtain ⟨c₁, hcall₁, hsent₁, houtcomes₁⟩ := sendString_of_reliable h (bytes "HTTP 200 OK\r\n")
  obtain ⟨c₂, hcall₂, hsent₂, houtcomes₂⟩ := sendString_of_reliable (houtcomes₁ ▸ h)
    (bytes "Content-Length:" ++ decimal file.length ++ bytes "\r\n\n\r\n")
  obtain ⟨c₃, hcall₃, hsent₃, -⟩ := sendString_of_reliable (c := c₂)
    (by rw [houtcomes₂, houtcomes₁]; exact h) (file ++ [0])
  rw [cString_eq_self (by decide)] at hsent₁
  rw [cString_eq_self hheader, hsent₁] at hsent₂
  rw [cString_append_zero, hsent₂] at hsent₃
  refine ⟨c₃, ?_, ?_⟩
  · unfold sendFile
    simp only [hlength, hdecimal, Int.toNat_natCast, hpage, hblock, hcall₁, hcall₂, hcall₃]
    rw [if_neg (by omega), if_neg (by omega), if_neg (by simp [malloc]; omega)]
    rfl
  · rw [hsent₃, header]
    simp only [List.append_assoc]

/-- The memory for the longest file there may be cannot be computed. -/
theorem sendFile_of_overflow {file : List UInt8} (bound : file.length + 1 = 2 ^ 31) :
    c.sendFile (some file) = none := by
  have hlength : getFileSize (some file) = file.length := getFileSize_some (by omega)
  unfold sendFile
  simp only [hlength]
  rw [if_neg (by omega), if_pos (by omega)]

end Outgoing

/-! ## Receiving -/

/-- What comes fits an array up to the end of its first line, or, where it has no line, whole with
the end of a string behind it. -/
def LineFits (size : ℕ) (stream buffer : List UInt8) : Prop :=
  match cutLine stream with
  | some (line, _) => line.length + eol.length ≤ size
  | none => stream.length ≤ size ∧ 0 ∈ (overwrite buffer stream).take size

instance (size : ℕ) (stream buffer : List UInt8) : Decidable (LineFits size stream buffer) :=
  match hcut : cutLine stream with
  | some (line, _) =>
    decidable_of_iff (line.length + eol.length ≤ size) (by rw [LineFits, hcut])
  | none =>
    decidable_of_iff (stream.length ≤ size ∧ 0 ∈ (overwrite buffer stream).take size)
      (by rw [LineFits, hcut])

theorem lineFits_of_cut {size : ℕ} {stream buffer line rest : List UInt8}
    (hcut : cutLine stream = some (line, rest)) :
    LineFits size stream buffer ↔ line.length + eol.length ≤ size := by
  rw [LineFits, hcut]

namespace Incoming

variable {c c' : Incoming} {got temp : List UInt8} {size fuel : ℕ}

/-- A call moves bytes from the front of what is pending and nothing else. -/
theorem recv_append (h : c.recv size = (some temp, c')) :
    temp ++ c'.pending = c.pending ∧ c'.outcomes = c.outcomes := by
  unfold recv at h
  split at h
  · simp at h
  · obtain ⟨htemp, rfl⟩ := Prod.mk.inj h
    obtain rfl := Option.some.inj htemp
    exact ⟨List.take_append_drop _ _, rfl⟩

/-- A call delivers no more than it is asked for, and at least one byte of those that are to
come. -/
theorem recv_length (h : c.recv size = (some temp, c')) :
    temp.length ≤ size ∧ (0 < size → c.pending ≠ [] → 0 < temp.length) := by
  unfold recv at h
  split at h
  · simp at h
  · obtain rfl := Option.some.inj (Prod.mk.inj h).1
    rw [List.length_take]
    refine ⟨by omega, fun hsize hpending => ?_⟩
    have hpos : 0 < c.pending.length := List.length_pos_iff.mpr hpending
    omega

theorem recv_calls (h : c.recv size = (some temp, c')) :
    (c.outcomes c.calls).isSome ∧ c'.calls = c.calls + 1 := by
  unfold recv at h
  split at h
  · simp at h
  · next count hcount =>
    obtain ⟨-, rfl⟩ := Prod.mk.inj h
    exact ⟨by rw [hcount]; rfl, rfl⟩

theorem outcome_of_failed (h : c.recv size = (none, c')) : c.outcomes c.calls = none := by
  unfold recv at h
  split at h
  · assumption
  · simp at h

/-- A call for bytes that are to come delivers at least one, and no more than it is
asked for. -/
theorem recv_of_reliable (h : Reliable c.outcomes) (size : ℕ) (hsize : 0 < size)
    (hpending : c.pending ≠ []) :
    ∃ temp c', c.recv size = (some temp, c') ∧ 0 < temp.length ∧ temp.length ≤ size := by
  rcases hrecv : c.recv size with ⟨_ | temp, c'⟩
  · have hcall := h c.calls
    rw [outcome_of_failed hrecv] at hcall
    exact nomatch hcall
  · obtain ⟨hle, hpos⟩ := recv_length hrecv
    exact ⟨temp, c', rfl, hpos hsize hpending, hle⟩

/-- A call for one byte takes the next one. -/
theorem recv_one (h : Reliable c.outcomes) {byte : UInt8} {rest : List UInt8}
    (hpending : c.pending = byte :: rest) :
    ∃ c', c.recv 1 = (some [byte], c') ∧ c'.pending = rest ∧ c'.outcomes = c.outcomes := by
  obtain ⟨temp, c', hrecv, hpos, hle⟩ := recv_of_reliable h 1 (by decide)
    (by rw [hpending]; exact List.cons_ne_nil _ _)
  obtain ⟨happend, houtcomes⟩ := recv_append hrecv
  obtain ⟨first, rfl⟩ := List.length_eq_one_iff.mp (show temp.length = 1 by omega)
  rw [hpending, List.singleton_append, List.cons.injEq] at happend
  obtain ⟨rfl, hrest⟩ := happend
  exact ⟨c', hrecv, hrest, houtcomes⟩

/-- Once everything has been received a call delivers nothing. -/
theorem recv_nil (h : Reliable c.outcomes) (hpending : c.pending = []) :
    ∃ c', c.recv 1 = (some [], c') ∧ c'.pending = [] ∧ c'.outcomes = c.outcomes := by
  obtain ⟨count, hcount⟩ := Option.isSome_iff_exists.mp (h c.calls)
  refine ⟨{ c with pending := [], calls := c.calls + 1 }, ?_, rfl, rfl⟩
  simp only [recv, hcount, hpending, List.take_nil, List.drop_nil]

theorem recvLineLoop_other {byte : UInt8} (hrecv : c.recv 1 = (some [byte], c'))
    (hbyte : byte ≠ 13) :
    recvLineLoop (fuel + 1) c got 0 = recvLineLoop fuel c' (got ++ [byte]) 0 := by
  have heol : eol[0]? = some 13 := by decide
  simp only [recvLineLoop, hrecv, heol, Option.some.injEq, hbyte, if_false]

/-- A carriage return takes the byte behind it along. -/
theorem recvLineLoop_pair {c₁ : Incoming} {second : UInt8} (hfirst : c.recv 1 = (some [13], c₁))
    (hsecond : c₁.recv 1 = (some [second], c')) :
    recvLineLoop (fuel + 2) c got 0 =
      if second = 10 then (c', got ++ eol, true)
      else recvLineLoop fuel c' (got ++ [13, second]) 0 := by
  have heol : eol = [13, 10] := by decide
  by_cases h : second = 10
  · simp [recvLineLoop, hfirst, hsecond, heol, h]
  · simp [recvLineLoop, hfirst, hsecond, heol, h]

/-- On a connection that does not fail the loop reads a line off what is to come. -/
theorem recvLineLoop_eq (h : Reliable c.outcomes) (hfuel : c.pending.length < fuel)
    (got : List UInt8) :
    ∃ c', recvLineLoop fuel c got 0 =
        (c', got ++ (readLine c.pending).1, (readLine c.pending).2.2) ∧
      c'.pending = (readLine c.pending).2.1 ∧ c'.outcomes = c.outcomes := by
  induction hpending : c.pending using cutLine.induct generalizing c got fuel with
  | case1 =>
    obtain ⟨fuel, rfl⟩ : ∃ n, fuel = n + 1 := ⟨fuel - 1, by omega⟩
    obtain ⟨c', hrecv, hend, houtcomes⟩ := recv_nil h hpending
    exact ⟨c', by simp [recvLineLoop, hrecv, readLine, cutLine], hend, houtcomes⟩
  | case2 byte =>
    rw [hpending] at hfuel
    obtain ⟨fuel, rfl⟩ : ∃ n, fuel = n + 2 := ⟨fuel - 2, by simp at hfuel; omega⟩
    obtain ⟨c₁, hrecv, hpending₁, houtcomes₁⟩ := recv_one h hpending
    obtain ⟨c', hrecv', hend, houtcomes⟩ := recv_nil (houtcomes₁ ▸ h) hpending₁
    refine ⟨c', ?_, hend, houtcomes.trans houtcomes₁⟩
    by_cases hbyte : byte = 13 <;>
      simp [recvLineLoop, hrecv, hrecv', readLine, cutLine, hbyte, show eol = [13, 10] by decide]
  | case3 tail =>
    rw [hpending] at hfuel
    obtain ⟨fuel, rfl⟩ : ∃ n, fuel = n + 2 := ⟨fuel - 2, by simp at hfuel; omega⟩
    obtain ⟨c₁, hrecv, hpending₁, houtcomes₁⟩ := recv_one h hpending
    obtain ⟨c', hrecv', hend, houtcomes⟩ := recv_one (houtcomes₁ ▸ h) hpending₁
    refine ⟨c', ?_, hend, houtcomes.trans houtcomes₁⟩
    rw [recvLineLoop_pair hrecv hrecv', if_pos rfl]
    rfl
  | case4 second tail hsecond ih =>
    rw [hpending] at hfuel
    obtain ⟨fuel, rfl⟩ : ∃ n, fuel = n + 2 := ⟨fuel - 2, by simp at hfuel; omega⟩
    obtain ⟨c₁, hrecv, hpending₁, houtcomes₁⟩ := recv_one h hpending
    obtain ⟨c₂, hrecv', hpending₂, houtcomes₂⟩ := recv_one (houtcomes₁ ▸ h) hpending₁
    obtain ⟨c', hloop, hend, houtcomes⟩ := ih (houtcomes₂.trans houtcomes₁ ▸ h)
      (by rw [hpending₂]; simp at hfuel; omega) (got ++ [13, second]) hpending₂
    refine ⟨c', ?_, ?_, houtcomes.trans (houtcomes₂.trans houtcomes₁)⟩
    · rw [recvLineLoop_pair hrecv hrecv', if_neg hsecond, hloop, readLine_pair hsecond,
        List.append_assoc]
      rfl
    · rw [hend, readLine_pair hsecond]
  | case5 first second tail hfirst ih =>
    rw [hpending] at hfuel
    obtain ⟨fuel, rfl⟩ : ∃ n, fuel = n + 1 := ⟨fuel - 1, by omega⟩
    obtain ⟨c₁, hrecv, hpending₁, houtcomes₁⟩ := recv_one h hpending
    obtain ⟨c', hloop, hend, houtcomes⟩ := ih (houtcomes₁ ▸ h)
      (by rw [hpending₁]; simp at hfuel ⊢; omega) (got ++ [first]) hpending₁
    refine ⟨c', ?_, ?_, houtcomes.trans houtcomes₁⟩
    · rw [recvLineLoop_other hrecv hfirst, hloop, readLine_cons hfirst, List.append_assoc]
      rfl
    · rw [hend, readLine_cons hfirst]

/-- Reading a line leaves it as a string in the buffer. -/
theorem recvLine_of_cut (h : Reliable c.outcomes) {line rest : List UInt8}
    (hcut : cutLine c.pending = some (line, rest)) (buffer : List UInt8) :
    ∃ c', c.recvLine buffer =
        (c', line ++ 0 :: 10 :: buffer.drop (line.length + 2), (strlen line : ℤ)) ∧
      c'.pending = rest ∧ c'.outcomes = c.outcomes := by
  obtain ⟨c', hloop, hpending, houtcomes⟩ := recvLineLoop_eq h (Nat.lt_succ_self _) []
  have heol : eol = [13, 10] := by decide
  simp only [readLine, hcut, List.nil_append] at hloop hpending
  have hbuffer : (overwrite buffer (line ++ [13, 10])).set
      ((line ++ [13, 10]).length - eol.length) 0 =
        line ++ 0 :: 10 :: buffer.drop (line.length + 2) := by
    rw [overwrite, heol]
    simp
  refine ⟨c', ?_, hpending, houtcomes⟩
  unfold recvLine
  simp only [hloop, if_true, hbuffer, strlen, cString_append_zero_cons]

/-- Where no line ends, all that comes is left in the buffer, without the end of a
string. -/
theorem recvLine_of_no_cut (h : Reliable c.outcomes) (hcut : cutLine c.pending = none)
    (buffer : List UInt8) :
    ∃ c', c.recvLine buffer = (c', overwrite buffer c.pending, 0) ∧ c'.pending = [] ∧
      c'.outcomes = c.outcomes := by
  obtain ⟨c', hloop, hpending, houtcomes⟩ := recvLineLoop_eq h (Nat.lt_succ_self _) []
  simp only [readLine, hcut, List.nil_append] at hloop hpending
  refine ⟨c', ?_, hpending, houtcomes⟩
  unfold recvLine
  simp only [hloop, if_false, Bool.false_eq_true]

/-- Reading a line stays inside of the array exactly when what comes fits it. -/
theorem overruns_recvLine (h : Reliable c.outcomes) (size : ℕ) (buffer : List UInt8) :
    overruns size c (c.recvLine buffer).1 (c.recvLine buffer).2.1 = false ↔
      LineFits size c.pending buffer := by
  have heol : eol.length = 2 := by decide
  rw [overruns, Bool.or_eq_false_iff, decide_eq_false_iff_not, Nat.not_lt, Bool.not_eq_false',
    List.contains_iff_mem]
  unfold LineFits
  cases hcut : cutLine c.pending with
  | none =>
    obtain ⟨c', hrecv, hpending, -⟩ := recvLine_of_no_cut h hcut buffer
    simp only [hrecv, hpending, List.length_nil, Nat.sub_zero]
  | some cut =>
    obtain ⟨line, rest⟩ := cut
    obtain ⟨c', hrecv, hpending, -⟩ := recvLine_of_cut h hcut buffer
    have hlength := congrArg List.length (cutLine_append hcut)
    simp only [List.length_append, List.length_cons, List.length_nil] at hlength
    simp only [hrecv, hpending, heol]
    constructor
    · rintro ⟨hstored, -⟩
      omega
    · intro hfits
      refine ⟨by omega, ?_⟩
      obtain ⟨behind, hbehind⟩ : ∃ behind, size - line.length = behind + 1 :=
        ⟨size - line.length - 1, by omega⟩
      rw [List.take_append, hbehind, List.take_succ_cons]
      exact List.mem_append_right _ List.mem_cons_self

theorem pending_of_failed (h : c.recv size = (none, c')) : c'.pending = c.pending := by
  unfold recv at h
  split at h
  · obtain rfl := (Prod.mk.inj h).2
    rfl
  · simp at h

/-- Receiving in a loop moves bytes from the front of what is pending to the end of
what has been read. -/
theorem recvWhile_append {more : ℕ → Bool} {ask : ℕ → ℕ} {got' : List UInt8} {ok : Bool}
    (h : recvWhile more ask fuel c got = some (c', got', ok)) :
    got' ++ c'.pending = got ++ c.pending := by
  induction fuel generalizing c got with
  | zero => simp [recvWhile] at h
  | succ fuel ih =>
    unfold recvWhile at h
    split_ifs at h with hmore
    · rcases hrecv : c.recv (ask got.length) with ⟨_ | temp, c₁⟩
      · simp only [hrecv, Option.some.injEq, Prod.mk.injEq] at h
        obtain ⟨rfl, rfl, -⟩ := h
        rw [pending_of_failed hrecv]
      · simp only [hrecv] at h
        rw [ih h, List.append_assoc, (recv_append hrecv).1]
    · simp only [Option.some.injEq, Prod.mk.injEq] at h
      obtain ⟨rfl, rfl, -⟩ := h
      rfl

/-- What every call keeps holds where a loop ends, whether nothing more is wanted or a call has
failed. -/
theorem recvWhile_invariant {more : ℕ → Bool} {ask : ℕ → ℕ} {got' : List UInt8} {ok : Bool}
    (Inv : Incoming → ℕ → Prop)
    (keeps : ∀ c read temp c', more read → Inv c read → c.recv (ask read) = (some temp, c') →
      Inv c' (read + temp.length))
    (init : Inv c got.length) (h : recvWhile more ask fuel c got = some (c', got', ok)) :
    if ok then more got'.length = false ∧ Inv c' got'.length
    else ∃ c₁, more got'.length ∧ Inv c₁ got'.length ∧ c₁.recv (ask got'.length) = (none, c') := by
  induction fuel generalizing c got with
  | zero => simp [recvWhile] at h
  | succ fuel ih =>
    unfold recvWhile at h
    split_ifs at h with hmore
    · rcases hrecv : c.recv (ask got.length) with ⟨_ | temp, c₁⟩
      · simp only [hrecv, Option.some.injEq, Prod.mk.injEq] at h
        obtain ⟨rfl, rfl, rfl⟩ := h
        exact ⟨c, hmore, init, hrecv⟩
      · simp only [hrecv] at h
        have hnext := keeps c got.length temp c₁ hmore init hrecv
        rw [← List.length_append] at hnext
        exact ih hnext h
    · simp only [Option.some.injEq, Prod.mk.injEq] at h
      obtain ⟨rfl, rfl, rfl⟩ := h
      exact ⟨by simpa using hmore, init⟩

/-- A loop ends whose calls make something smaller. -/
theorem recvWhile_ends {more : ℕ → Bool} {ask : ℕ → ℕ} (Inv : Incoming → ℕ → Prop)
    (variant : Incoming → ℕ)
    (keeps : ∀ c read temp c', more read → Inv c read → c.recv (ask read) = (some temp, c') →
      Inv c' (read + temp.length))
    (decreases : ∀ c read temp c', more read → Inv c read →
      c.recv (ask read) = (some temp, c') → variant c' < variant c)
    (init : Inv c got.length) : ∃ fuel result, recvWhile more ask fuel c got = some result := by
  induction hleft : variant c using Nat.strongRecOn generalizing c got with
  | ind left ih =>
    by_cases hmore : more got.length = true
    · rcases hrecv : c.recv (ask got.length) with ⟨_ | temp, c₁⟩
      · exact ⟨1, (c₁, got, false), by simp [recvWhile, hmore, hrecv]⟩
      · have hnext := keeps c got.length temp c₁ hmore init hrecv
        have hless := decreases c got.length temp c₁ hmore init hrecv
        rw [← List.length_append] at hnext
        obtain ⟨fuel, result, hloop⟩ := ih (variant c₁) (hleft ▸ hless) hnext rfl
        exact ⟨fuel + 1, result, by simp only [recvWhile, hmore, if_true, hrecv, hloop]⟩
    · exact ⟨1, (c, got, true), by simp [recvWhile, hmore]⟩

/-- More fuel does not change a loop that has ended. -/
theorem recvWhile_mono {more : ℕ → Bool} {ask : ℕ → ℕ} {result : Incoming × List UInt8 × Bool}
    (h : recvWhile more ask fuel c got = some result) {fuel' : ℕ} (hle : fuel ≤ fuel') :
    recvWhile more ask fuel' c got = some result := by
  induction fuel generalizing c got fuel' with
  | zero => simp [recvWhile] at h
  | succ fuel ih =>
    obtain ⟨fuel', rfl⟩ : ∃ n, fuel' = n + 1 := ⟨fuel' - 1, by omega⟩
    unfold recvWhile at h ⊢
    split_ifs at h ⊢ with hmore
    · rcases hrecv : c.recv (ask got.length) with ⟨_ | temp, c₁⟩
      · simp only [hrecv] at h ⊢
        exact h
      · simp only [hrecv] at h ⊢
        exact ih h (by omega)
    · exact h

theorem recvStream_mono {result : Incoming × List UInt8 × ℤ}
    (h : c.recvStream fuel size = some result) {fuel' : ℕ} (hle : fuel ≤ fuel') :
    c.recvStream fuel' size = some result := by
  unfold recvStream at h ⊢
  split_ifs at h ⊢ with hsmall
  · exact h
  · cases hfirst : recvWhile (blockMissing size) (fun _ => blockSize) fuel c [] with
    | none => simp [hfirst] at h
    | some first =>
      obtain ⟨c₁, got₁, ok₁⟩ := first
      rw [hfirst] at h
      rw [recvWhile_mono hfirst hle]
      cases ok₁ with
      | false => exact h
      | true =>
        dsimp only at h ⊢
        cases hsecond : recvWhile (missing size) (size - ·) fuel c₁ got₁ with
        | none => simp [hsecond] at h
        | some second =>
          rw [hsecond] at h
          rw [recvWhile_mono hsecond hle]
          exact h

/-- Whatever the result, what is at the destination are the first bytes that were to
come. -/
theorem recvStream_append {result : ℤ} (h : c.recvStream fuel size = some (c', got, result)) :
    got <+: c.pending := by
  unfold recvStream at h
  split_ifs at h with hsmall
  · unfold recvAll at h
    cases hcall : c.outcomes c.calls with
    | none =>
      simp only [hcall, Option.some.injEq, Prod.mk.injEq] at h
      exact h.2.1 ▸ List.nil_prefix
    | some count =>
      simp only [hcall, Option.some.injEq, Prod.mk.injEq] at h
      exact h.2.1 ▸ List.take_prefix _ _
  · rcases hfirst : recvWhile (blockMissing size) (fun _ => blockSize) fuel c []
      with _ | ⟨c₁, got₁, _ | _⟩
    · simp [hfirst] at h
    · simp only [hfirst, Option.some.injEq, Prod.mk.injEq] at h
      obtain ⟨rfl, rfl, -⟩ := h
      exact ⟨_, recvWhile_append hfirst⟩
    · rcases hsecond : recvWhile (missing size) (size - ·) fuel c₁ got₁
        with _ | ⟨c₂, got₂, _ | _⟩
      · simp [hfirst, hsecond] at h
      · simp only [hfirst, hsecond, Option.some.injEq, Prod.mk.injEq] at h
        obtain ⟨rfl, rfl, -⟩ := h
        exact ⟨_, (recvWhile_append hsecond).trans (recvWhile_append hfirst)⟩
      · simp only [hfirst, hsecond, Option.some.injEq, Prod.mk.injEq] at h
        obtain ⟨rfl, rfl, -⟩ := h
        exact ⟨_, (recvWhile_append hsecond).trans (recvWhile_append hfirst)⟩

/-- A call of the first loop asks for bytes that are missing. -/
theorem ask_of_blockMissing {read : ℕ} (h : blockMissing size read) :
    0 < blockSize ∧ read + blockSize ≤ size := by
  have hroom : blockSize < size - read := of_decide_eq_true h
  exact ⟨by decide, by omega⟩

/-- A call of the second loop asks for all that is missing. -/
theorem ask_of_missing {read : ℕ} (h : missing size read) (hread : read ≤ size) :
    0 < size - read ∧ read + (size - read) ≤ size := by
  have hne : read ≠ size := of_decide_eq_true h
  omega

/-- A call for no more than is missing keeps what holds of the connection and the number of bytes
read. -/
def Keeps (size : ℕ) (Inv : Incoming → ℕ → Prop) : Prop :=
  ∀ c read ask temp c', 0 < ask → read + ask ≤ size → Inv c read →
    c.recv ask = (some temp, c') → Inv c' (read + temp.length)

/-- A call for no more than is missing makes something smaller. -/
def Decreases (size : ℕ) (Inv : Incoming → ℕ → Prop) (variant : Incoming → ℕ) : Prop :=
  ∀ c read ask temp c', 0 < ask → read + ask ≤ size → Inv c read →
    c.recv ask = (some temp, c') → variant c' < variant c

variable {Inv : Incoming → ℕ → Prop}

/-- What a call of the first loop keeps; it writes within the stream. -/
theorem Keeps.block (keeps : Keeps size Inv) :
    ∀ c read temp c', blockMissing size read → read ≤ size ∧ Inv c read →
      c.recv blockSize = (some temp, c') →
      read + temp.length ≤ size ∧ Inv c' (read + temp.length) := by
  rintro c read temp c' hmore ⟨-, hInv⟩ hrecv
  obtain ⟨hask, hroom⟩ := ask_of_blockMissing hmore
  exact ⟨Nat.le_trans (Nat.add_le_add_left (recv_length hrecv).1 read) hroom,
    keeps c read _ temp c' hask hroom hInv hrecv⟩

/-- What a call of the second loop keeps; it writes within the stream. -/
theorem Keeps.rest (keeps : Keeps size Inv) :
    ∀ c read temp c', missing size read → read ≤ size ∧ Inv c read →
      c.recv (size - read) = (some temp, c') →
      read + temp.length ≤ size ∧ Inv c' (read + temp.length) := by
  rintro c read temp c' hmore ⟨hread, hInv⟩ hrecv
  obtain ⟨hask, hroom⟩ := ask_of_missing hmore hread
  exact ⟨Nat.le_trans (Nat.add_le_add_left (recv_length hrecv).1 read) hroom,
    keeps c read _ temp c' hask hroom hInv hrecv⟩

/-- What every call keeps holds at the end of both loops, unless a call fails. -/
theorem recvStream_invariant (keeps : Keeps size Inv) (hsize : blockSize ≤ size) (init : Inv c 0)
    {result : ℤ} (h : c.recvStream fuel size = some (c', got, result)) :
    (result = size ∧ got.length = size ∧ Inv c' size) ∨
      (result = -1 ∧ got.length ≤ size ∧
        ∃ c₁ ask, Inv c₁ got.length ∧ c₁.recv ask = (none, c')) := by
  unfold recvStream at h
  rw [if_neg (by omega)] at h
  rcases hfirst : recvWhile (blockMissing size) (fun _ => blockSize) fuel c []
    with _ | ⟨c₁, got₁, _ | _⟩
  · rw [hfirst] at h
    exact nomatch h
  · have hend := recvWhile_invariant _ keeps.block ⟨Nat.zero_le _, init⟩ hfirst
    simp only [hfirst, Option.some.injEq, Prod.mk.injEq] at h
    obtain ⟨rfl, rfl, rfl⟩ := h
    obtain ⟨c₂, -, ⟨hle, hInv⟩, hfailed⟩ := hend
    exact .inr ⟨rfl, hle, c₂, _, hInv, hfailed⟩
  · obtain ⟨-, hmid⟩ := recvWhile_invariant _ keeps.block ⟨Nat.zero_le _, init⟩ hfirst
    rcases hsecond : recvWhile (missing size) (size - ·) fuel c₁ got₁
      with _ | ⟨c₂, got₂, _ | _⟩
    · simp [hfirst, hsecond] at h
    · have hend := recvWhile_invariant _ keeps.rest hmid hsecond
      simp only [hfirst, hsecond, Option.some.injEq, Prod.mk.injEq] at h
      obtain ⟨rfl, rfl, rfl⟩ := h
      obtain ⟨c₃, -, ⟨hle, hInv⟩, hfailed⟩ := hend
      exact .inr ⟨rfl, hle, c₃, _, hInv, hfailed⟩
    · obtain ⟨hdone, -, hInv⟩ := recvWhile_invariant _ keeps.rest hmid hsecond
      simp only [hfirst, hsecond, Option.some.injEq, Prod.mk.injEq] at h
      obtain ⟨rfl, rfl, rfl⟩ := h
      have hfull : got₂.length = size := by simpa [missing] using hdone
      exact .inl ⟨by rw [hfull], hfull, hfull ▸ hInv⟩

/-- Both loops end when every call makes something smaller. -/
theorem recvStream_ends (keeps : Keeps size Inv) {variant : Incoming → ℕ}
    (decreases : Decreases size Inv variant) (hsize : blockSize ≤ size) (init : Inv c 0) :
    ∃ fuel result, c.recvStream fuel size = some result := by
  have hinit : ([] : List UInt8).length ≤ size ∧ Inv c ([] : List UInt8).length :=
    ⟨Nat.zero_le _, init⟩
  obtain ⟨fuel₁, ⟨c₁, got₁, ok₁⟩, hfirst⟩ := recvWhile_ends _ variant keeps.block
    (fun c read temp c' hmore hInv =>
      decreases c read _ temp c' (ask_of_blockMissing hmore).1 (ask_of_blockMissing hmore).2 hInv.2)
    hinit
  cases ok₁ with
  | false =>
    refine ⟨fuel₁, (c₁, got₁, -1), ?_⟩
    unfold recvStream
    simp only [if_neg (Nat.not_lt.mpr hsize), hfirst]
  | true =>
    obtain ⟨-, hmid⟩ := recvWhile_invariant _ keeps.block hinit hfirst
    obtain ⟨fuel₂, ⟨c₂, got₂, ok₂⟩, hsecond⟩ := recvWhile_ends _ variant keeps.rest
      (fun c read temp c' hmore hInv =>
        decreases c read _ temp c' (ask_of_missing hmore hInv.1).1 (ask_of_missing hmore hInv.1).2
          hInv.2)
      hmid
    refine ⟨max fuel₁ fuel₂, (c₂, got₂, if ok₂ then got₂.length else -1), ?_⟩
    unfold recvStream
    simp only [if_neg (Nat.not_lt.mpr hsize), recvWhile_mono hfirst (le_max_left _ _),
      recvWhile_mono hsecond (le_max_right _ _)]
    cases ok₂ <;> rfl

/-- What holds of a connection off which some bytes have been read. -/
structure ReadOff (c c' : Incoming) (read : ℕ) : Prop where
  outcomes : c'.outcomes = c.outcomes
  calls : c.calls ≤ c'.calls
  total : read + c'.pending.length = c.pending.length

theorem readOff_self (c : Incoming) : ReadOff c c 0 := ⟨rfl, le_rfl, Nat.zero_add _⟩

theorem keeps_readOff (c : Incoming) (size : ℕ) : Keeps size (ReadOff c) := by
  rintro c₁ read ask temp c₂ - - ⟨houtcomes, hcalls, htotal⟩ hrecv
  obtain ⟨happend, houtcomes₂⟩ := recv_append hrecv
  rw [← happend, List.length_append] at htotal
  have hnext := (recv_calls hrecv).2
  exact ⟨houtcomes₂.trans houtcomes, by omega, by omega⟩

/-- A stream of which all is going to come is received whole, unless a call fails. -/
theorem recvStream_of_enough (hsize : blockSize ≤ size) (henough : size ≤ c.pending.length) :
    ∃ fuel c' got result, c.recvStream fuel size = some (c', got, result) ∧ got.length ≤ size ∧
      (result = size ∧ got = c.pending.take size ∨
        result = -1 ∧ ∃ call, c.outcomes call = none) := by
  have decreases : Decreases size (ReadOff c) fun c₁ => c₁.pending.length := by
    rintro c₁ read ask temp c₂ hask hroom ⟨-, -, htotal⟩ hrecv
    have hpos : 0 < temp.length :=
      (recv_length hrecv).2 hask (List.length_pos_iff.mp (by omega))
    have hlength := congrArg List.length (recv_append hrecv).1
    rw [List.length_append] at hlength
    change c₂.pending.length < c₁.pending.length
    omega
  obtain ⟨fuel, ⟨c', got, result⟩, hrun⟩ :=
    recvStream_ends (keeps_readOff c size) decreases hsize (readOff_self c)
  have hgot := recvStream_append hrun
  refine ⟨fuel, c', got, result, hrun, ?_⟩
  rcases recvStream_invariant (keeps_readOff c size) hsize (readOff_self c) hrun with
    ⟨hresult, hfull, -⟩ | ⟨hresult, hle, c₁, ask, hread, hfailed⟩
  · refine ⟨hfull.le, .inl ⟨hresult, ?_⟩⟩
    rw [← hfull]
    exact List.prefix_iff_eq_take.mp hgot
  · exact ⟨hle, .inr ⟨hresult, c₁.calls, hread.outcomes ▸ outcome_of_failed hfailed⟩⟩

/-- On a connection that does not fail a stream that is going to come is received
whole, however it is split. -/
theorem recvStream_returns (h : Reliable c.outcomes) (hsize : size ≤ c.pending.length) :
    ∃ fuel c', c.recvStream fuel size = some (c', c.pending.take size, (size : ℤ)) := by
  by_cases hsmall : size < blockSize
  · obtain ⟨count, hcount⟩ := Option.isSome_iff_exists.mp (h c.calls)
    refine ⟨0, { c with pending := c.pending.drop size, calls := c.calls + 1 }, ?_⟩
    simp [recvStream, hsmall, recvAll, hcount, hsize]
  · obtain ⟨fuel, c', got, result, hrun, -, ⟨rfl, rfl⟩ | ⟨-, call, hfailed⟩⟩ :=
      recvStream_of_enough (Nat.not_lt.mp hsmall) hsize
    · exact ⟨fuel, c', hrun⟩
    · have hcall := h call
      rw [hfailed] at hcall
      exact nomatch hcall

end Incoming

end Comnet.ClientServer
