/-
# A file in one message

The server puts the number of characters in front of the characters and sends both as one
text; the client reads digits as long as there are any and prints what is behind them as a
string. Nothing separates the number from the characters, so a file that begins with a digit
is read into its number, and a zero byte ends it in both programs.
-/

import Comnet.Foundations.CString
import Comnet.Foundations.Decimal
import Comnet.Foundations.MachineInt

set_option autoImplicit false

namespace Comnet.MP0

open Foundations

/-- The server's `MAX_FILE_LENGTH`. -/
abbrev maxFileLength : ℕ := 100

/-- The server's `MAX_INT_LENGTH`. -/
abbrev maxIntLength : ℕ := 3

/-- The client's `MAXDATASIZE`. -/
abbrev maxDataSize : ℕ := 103

/-- The server's array for the message, before it is written. -/
abbrev Out := { out : List UInt8 // out.length = maxFileLength + maxIntLength }

/-- The client's array for the message, before it is written. -/
abbrev Buf := { buf : List UInt8 // buf.length = maxDataSize }

/-- What the server has done. -/
structure Served where
  /-- The array and what lies behind it as far as it was written to. -/
  out : List UInt8
  message : List UInt8

/-- What the client has done. -/
structure Printed where
  /-- The array and what lies behind it as far as it was written to. -/
  buf : List UInt8
  num : ℕ
  text : List UInt8

/-- `snprintf` to an array: no more than `size` bytes are written, and the result is the number
of characters that the whole text has. -/
def snprintf (array : List UInt8) (size : ℕ) (text : List UInt8) : List UInt8 × ℕ :=
  (overwrite array (text.take (size - 1) ++ [0]), text.length)

/-- The size of the file in a signed variable. -/
def getFileSize (file : List UInt8) : ℤ := narrow file.length

/-- The server up to its call to `send`. There is no message where the size is negative: the
server exits at `-1` and calls `read` with a count out of its range at the others. -/
def server (file : List UInt8) (out : Out) : Option Served :=
  let fLength := getFileSize file
  let fLength := if (maxFileLength : ℤ) - 1 < fLength then (maxFileLength : ℤ) - 1 else fLength
  if fLength < 0 then none
  else
    let fileData := overwrite (List.replicate maxFileLength 0) (file.take fLength.toNat)
    let (out, outLength) :=
      snprintf out.val (maxFileLength + maxIntLength) (toDecimal fLength ++ cString fileData)
    some ⟨out, bytesAt out outLength⟩

/-- The loop over the digits, with the number of bytes left. There is no result where the number
leaves the range of its type. -/
def digitLoop (num : ℕ) : ℕ → List UInt8 → Option (ℕ × List UInt8)
  | 0, memory => some (num, memory)
  | _ + 1, [] => some (num, [])
  | left + 1, byte :: memory =>
    if isDigit byte then
      let num := num * 10 + (byte.toNat - 48)
      if num < 2 ^ 31 then digitLoop num left memory else none
    else some (num, byte :: memory)

/-- The client from its call to `recv` on. -/
def client (message : List UInt8) (buf : Buf) : Option Printed :=
  let received := message.take (maxDataSize - 1)
  let buf := overwrite buf.val (received ++ [0])
  match digitLoop 0 received.length buf with
  | none => none
  | some (num, memory) => some ⟨buf, num, cString memory⟩

/-- The message for a file fits both arrays and one call, the number the client reads is that of
the characters, and it prints them. -/
def Conveys (file : List UInt8) (out : Out) (buf : Buf) : Prop :=
  ∃ served printed, server file out = some served ∧ client served.message buf = some printed ∧
    served.out.length = maxFileLength + maxIntLength ∧
    served.message.length ≤ maxDataSize - 1 ∧ printed.buf.length = maxDataSize ∧
    printed.num = min file.length (maxFileLength - 1) ∧
    printed.text = file.take (maxFileLength - 1)

/-- The size survives in a signed variable as far as it counts, the characters sent hold no zero
byte, and the first of them is no digit. -/
structure Conveyable (file : List UInt8) : Prop where
  size : min (narrow file.length) (maxFileLength - 1) = min (file.length : ℤ) (maxFileLength - 1)
  noNul : NoNul (file.take (maxFileLength - 1))
  first : ∀ byte, (file.take (maxFileLength - 1)).head? = some byte → isDigit byte = false

variable {file message memory : List UInt8} {out : Out} {buf : Buf} {count num : ℕ}

/-! ## The server -/

/-- The array for the file holds the characters read as a string. -/
theorem cString_fileData {chars : List UInt8} (h : chars.length ≤ maxFileLength - 1) :
    cString (overwrite (List.replicate maxFileLength 0) chars) = cString chars := by
  obtain ⟨rest, hrest⟩ : ∃ rest, maxFileLength - chars.length = rest + 1 :=
    ⟨maxFileLength - chars.length - 1, by unfold maxFileLength at h ⊢; omega⟩
  rw [overwrite_replicate, hrest, List.replicate_succ, cString_append_zero_cons]

/-- A text that fits is in the array as a whole, and what is read back from it is the text. -/
theorem snprintf_of_fits {text : List UInt8} (h : text.length < maxFileLength + maxIntLength)
    (out : Out) :
    ∃ array, snprintf out.val (maxFileLength + maxIntLength) text = (array, text.length) ∧
      array.length = maxFileLength + maxIntLength ∧ bytesAt array text.length = text := by
  have htake : text.take (maxFileLength + maxIntLength - 1) = text :=
    List.take_of_length_le (by omega)
  refine ⟨overwrite out.val (text ++ [0]), by rw [snprintf, htake], ?_, ?_⟩
  · rw [length_overwrite, out.property, List.length_append, List.length_singleton]
    omega
  · rw [overwrite, List.append_assoc]
    exact bytesAt_append rfl

/-- The text is made of the number of characters sent and of these. -/
theorem server_of_count (hcount : min (narrow file.length) (maxFileLength - 1) = count)
    {array : List UInt8} {length : ℕ}
    (hsent : snprintf out.val (maxFileLength + maxIntLength)
      (decimal count ++ cString (file.take count)) = (array, length)) :
    server file out = some ⟨array, bytesAt array length⟩ := by
  have hlength : (if (maxFileLength : ℤ) - 1 < narrow file.length then (maxFileLength : ℤ) - 1
      else narrow file.length) = count := by
    rw [← hcount]
    split_ifs <;> omega
  have hdecimal : toDecimal count = decimal count := by
    simp [toDecimal]
  have hle : (file.take count).length ≤ maxFileLength - 1 := by
    rw [List.length_take]
    unfold maxFileLength at hcount ⊢
    omega
  unfold server getFileSize
  dsimp only
  rw [hlength, if_neg (Int.not_lt.mpr (Int.natCast_nonneg count)), Int.toNat_natCast, hdecimal,
    cString_fileData hle, hsent]

/-- What the server sends where the size of the file is not negative. -/
theorem server_eq (hsize : 0 ≤ narrow file.length) (out : Out) :
    ∃ count : ℕ, (count : ℤ) = min (narrow file.length) (maxFileLength - 1) ∧
      ∃ served, server file out = some served ∧
        served.message = decimal count ++ cString (file.take count) ∧
        served.message.length < maxFileLength + maxIntLength ∧
        served.out.length = maxFileLength + maxIntLength := by
  obtain ⟨count, hcount⟩ := Int.eq_ofNat_of_zero_le
    (show 0 ≤ min (narrow file.length) (maxFileLength - 1) from le_min hsize (by decide))
  have hle : count ≤ 99 := by
    unfold maxFileLength at hcount
    omega
  have htake : (file.take count).length ≤ count := List.length_take_le _ _
  have hstring : (cString (file.take count)).length ≤ (file.take count).length := strlen_le _
  have hdigits : (decimal count).length ≤ 2 :=
    length_decimal_le (by omega) (by decide)
  have hfits : (decimal count ++ cString (file.take count)).length <
      maxFileLength + maxIntLength := by
    rw [List.length_append]
    unfold maxFileLength maxIntLength
    omega
  obtain ⟨array, hsent, harray, hmessage⟩ := snprintf_of_fits hfits out
  refine ⟨count, hcount.symm, _, server_of_count hcount hsent, hmessage, ?_, harray⟩
  rw [hmessage]
  exact hfits

/-! ## The client -/

/-- Digits are read into the number while it stays in the range of its type. -/
theorem digitLoop_digits (read digits : List UInt8) (h : ∀ byte ∈ digits, isDigit byte = true)
    (bound : digitsValue (read ++ digits) < 2 ^ 31) (count : ℕ) (memory : List UInt8) :
    digitLoop (digitsValue read) (digits.length + count) (digits ++ memory) =
      digitLoop (digitsValue (read ++ digits)) count memory := by
  induction digits generalizing read with
  | nil => rw [List.append_nil, List.length_nil, Nat.zero_add, List.nil_append]
  | cons byte digits ih =>
    have hsplit : read ++ byte :: digits = read ++ [byte] ++ digits := by simp
    rw [hsplit] at bound ⊢
    have hnext : digitsValue (read ++ [byte]) < 2 ^ 31 :=
      Nat.lt_of_le_of_lt (digitsValue_le_append _ digits) bound
    have hrest := ih (read ++ [byte]) (fun other hother => h other (List.mem_cons_of_mem _ hother))
      bound
    rw [← hrest, digitsValue_concat]
    rw [digitsValue_concat] at hnext
    rw [List.length_cons, Nat.succ_add, List.cons_append, digitLoop,
      if_pos (h byte List.mem_cons_self)]
    exact if_pos hnext

/-- The loop stops in front of the first byte that is no digit. -/
theorem digitLoop_memory {num' : ℕ} {memory' : List UInt8}
    (h : digitLoop num message.length (message ++ memory) = some (num', memory')) :
    memory' = message.dropWhile isDigit ++ memory := by
  induction message generalizing num with
  | nil =>
    obtain ⟨-, rfl⟩ := Prod.mk.inj (Option.some.inj h)
    rfl
  | cons byte message ih =>
    rw [List.length_cons, List.cons_append, digitLoop] at h
    by_cases hdigit : isDigit byte = true
    · rw [if_pos hdigit] at h
      dsimp only at h
      split_ifs at h
      rw [List.dropWhile_cons_of_pos hdigit]
      exact ih h
    · rw [if_neg hdigit] at h
      obtain ⟨-, rfl⟩ := Prod.mk.inj (Option.some.inj h)
      rw [List.dropWhile_cons_of_neg hdigit]
      rfl

/-- A message that fits is in the array with the end of a string behind it. -/
theorem client_of_fits (h : message.length ≤ maxDataSize - 1) (buf : Buf) :
    ∃ array behind, array.length = maxDataSize ∧ array = message ++ 0 :: behind ∧
      client message buf =
        (digitLoop 0 message.length array).map fun read => ⟨array, read.1, cString read.2⟩ := by
  have hpos : 0 < maxDataSize := by decide
  refine ⟨overwrite buf.val (message ++ [0]), buf.val.drop (message ++ [0]).length, ?_, ?_, ?_⟩
  · rw [length_overwrite, buf.property, List.length_append, List.length_singleton]
    omega
  · rw [overwrite, List.append_assoc, List.singleton_append]
  · simp only [client, List.take_of_length_le h]
    cases digitLoop 0 message.length (overwrite buf.val (message ++ [0])) <;> rfl

/-- The client prints what is behind the digits at the start of the message. -/
theorem text_of_client {printed : Printed} (h : message.length ≤ maxDataSize - 1)
    (hclient : client message buf = some printed) :
    printed.text = cString (message.dropWhile isDigit) := by
  obtain ⟨array, behind, -, harray, heq⟩ := client_of_fits h buf
  rw [heq] at hclient
  obtain ⟨⟨num, memory⟩, hloop, rfl⟩ := Option.map_eq_some_iff.mp hclient
  rw [harray] at hloop
  change cString memory = _
  rw [digitLoop_memory hloop, cString_append_zero_cons]

/-- A number at the start of the message is read, if no digit comes behind it. -/
theorem client_decimal {text : List UInt8} (hnum : num < 2 ^ 31)
    (hfirst : ∀ byte, text.head? = some byte → isDigit byte = false)
    (h : (decimal num ++ text).length ≤ maxDataSize - 1) (buf : Buf) :
    ∃ printed, client (decimal num ++ text) buf = some printed ∧ printed.num = num ∧
      printed.text = cString text ∧ printed.buf.length = maxDataSize := by
  obtain ⟨array, behind, hlength, harray, heq⟩ := client_of_fits h buf
  have hdigits : digitLoop 0 (decimal num ++ text).length array =
      digitLoop num text.length (text ++ 0 :: behind) := by
    have hread := digitLoop_digits [] (decimal num) (fun _ => isDigit_of_mem_decimal)
      (by rwa [List.nil_append, digitsValue_decimal]) text.length (text ++ 0 :: behind)
    rw [List.nil_append, digitsValue_decimal] at hread
    rw [harray, List.length_append, List.append_assoc]
    exact hread
  have hstop : digitLoop num text.length (text ++ 0 :: behind) =
      some (num, text ++ 0 :: behind) := by
    cases text with
    | nil => rfl
    | cons byte text =>
      rw [List.length_cons, List.cons_append, digitLoop, if_neg (by simp [hfirst byte rfl])]
  rw [hdigits, hstop] at heq
  exact ⟨_, heq, rfl, cString_append_zero_cons text behind, hlength⟩

/-! ## Both -/

/-- A size that is negative in a signed variable gives no message. -/
theorem size_nonneg_of_server {served : Served} (h : server file out = some served) :
    0 ≤ narrow file.length := by
  by_contra hneg
  have hclip : ¬ (maxFileLength : ℤ) - 1 < narrow file.length := by
    unfold maxFileLength
    omega
  unfold server getFileSize at h
  dsimp only at h
  rw [if_neg hclip, if_pos (Int.not_le.mp hneg)] at h
  exact nomatch h

theorem conveys_of_conveyable (h : Conveyable file) (out : Out) (buf : Buf) :
    Conveys file out buf := by
  obtain ⟨hsize, hnul, hfirst⟩ := h
  have hnonneg : 0 ≤ narrow file.length := by
    unfold maxFileLength at hsize
    omega
  obtain ⟨count, hcount, served, hserver, hmessage, hshort, hout⟩ := server_eq hnonneg out
  have hmin : count = min file.length (maxFileLength - 1) := by
    unfold maxFileLength at hsize hcount ⊢
    omega
  have htake : file.take count = file.take (maxFileLength - 1) := by
    rw [List.take_eq_take_iff, hmin]
    omega
  have hfits : served.message.length ≤ maxDataSize - 1 := Nat.le_sub_one_of_lt hshort
  rw [htake, cString_eq_self hnul] at hmessage
  obtain ⟨printed, hclient, hnum, htext, hbuf⟩ := client_decimal
    (show count < 2 ^ 31 by unfold maxFileLength at hmin; omega) hfirst (hmessage ▸ hfits) buf
  exact ⟨served, printed, hserver, hmessage ▸ hclient, hout, hfits, hbuf, hnum.trans hmin,
    htext.trans (cString_eq_self hnul)⟩

/-- Characters that are left whole when they are cut at the first zero byte and behind the digits at
their start have neither. -/
theorem whole_of_dropWhile {chars : List UInt8}
    (h : (cString chars).dropWhile isDigit = chars) :
    NoNul chars ∧ ∀ byte, chars.head? = some byte → isDigit byte = false := by
  have hsuffix : chars <:+ cString chars := by
    nth_rewrite 1 [← h]
    exact List.dropWhile_suffix _
  have hprefix := cString_isPrefix chars
  have hstring : cString chars = chars :=
    hprefix.eq_of_length (Nat.le_antisymm hprefix.length_le hsuffix.length_le)
  refine ⟨hstring ▸ noNul_cString chars, fun byte hbyte => ?_⟩
  rw [hstring] at h
  cases chars with
  | nil => exact nomatch hbyte
  | cons first others =>
    obtain rfl := Option.some.inj hbyte
    by_contra hdigit
    rw [List.dropWhile_cons_of_pos (by simpa using hdigit)] at h
    have hshort := (List.dropWhile_suffix (l := others) isDigit).length_le
    rw [h, List.length_cons] at hshort
    omega

/-- What is printed is the string that is sent without the digits at its start, so it has the
length of the characters only if nothing is cut off them. -/
theorem conveyable_of_conveys (h : Conveys file out buf) : Conveyable file := by
  obtain ⟨served, printed, hserver, hclient, -, hfits, -, -, htext⟩ := h
  have hnonneg := size_nonneg_of_server hserver
  obtain ⟨count, hcount, served', hserver', hmessage, -⟩ := server_eq hnonneg out
  obtain rfl := Option.some.inj (hserver.symm.trans hserver')
  have hsent : (cString (file.take count)).dropWhile isDigit = file.take (maxFileLength - 1) := by
    have hnul : NoNul ((cString (file.take count)).dropWhile isDigit) :=
      (noNul_cString _).sublist (List.dropWhile_sublist _)
    rw [← htext, text_of_client hfits hclient, hmessage,
      List.dropWhile_append_of_pos fun _ => isDigit_of_mem_decimal, cString_eq_self hnul]
  have hdrop : ((cString (file.take count)).dropWhile isDigit).length ≤
      (cString (file.take count)).length := (List.dropWhile_suffix _).length_le
  have hstring : (cString (file.take count)).length ≤ (file.take count).length := strlen_le _
  have hle := narrow_natCast_le file.length
  have hlength := congrArg List.length hsent
  rw [List.length_take] at hlength
  rw [List.length_take] at hstring
  have hmin : count = min file.length (maxFileLength - 1) := by
    unfold maxFileLength at hcount hlength ⊢
    omega
  have htake : file.take count = file.take (maxFileLength - 1) := by
    rw [List.take_eq_take_iff, hmin]
    omega
  rw [htake] at hsent
  obtain ⟨hnul, hfirst⟩ := whole_of_dropWhile hsent
  refine ⟨?_, hnul, hfirst⟩
  rw [← hcount, hmin]
  unfold maxFileLength
  omega

/-- A file gets there in its message exactly when its size survives in a signed variable as far as
it counts, and the characters sent hold no zero byte and do not begin with a digit. -/
theorem conveys_iff (file : List UInt8) (out : Out) (buf : Buf) :
    Conveys file out buf ↔ Conveyable file :=
  ⟨conveyable_of_conveys, fun h => conveys_of_conveyable h out buf⟩

/-- A file with the character `5` is read as a message of 15 characters. -/
theorem conveys_digit : ¬ ∀ (file : List UInt8) (out : Out) (buf : Buf), Conveys file out buf :=
  fun h => absurd
    ((conveyable_of_conveys (h [53] ⟨List.replicate 103 0, List.length_replicate⟩
      ⟨List.replicate 103 0, List.length_replicate⟩)).first 53 rfl) (by decide)

end Comnet.MP0
