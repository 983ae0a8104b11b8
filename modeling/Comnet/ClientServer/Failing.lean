/-
# Connections that fail

A call to `send` may fail while a string goes out. The server then gives up that string and
goes on with the next one, and counts how many of its three strings have gone out. A
connection that has failed once may stay so. Then a front of the response is all that goes
out, and the client ends with what it has received of the file only if the whole header is
in that front.
-/

import Comnet.ClientServer.Session

set_option autoImplicit false

namespace Comnet.ClientServer

open Foundations

/-- A connection on which a call has failed fails from then on. -/
def StaysBroken (outcomes : ℕ → Option ℕ) : Prop :=
  ∀ call later, call ≤ later → outcomes call = none → outcomes later = none

namespace Outgoing

/-- A string of which the first `count` bytes have gone out, with the result of the call. -/
structure Taken (c : Outgoing) (text : List UInt8) (count : ℕ) (c' : Outgoing) (result : ℤ) :
    Prop where
  sent : c'.sent = c.sent ++ text.take count
  outcomes : c'.outcomes = c.outcomes
  calls : c.calls ≤ c'.calls
  le : count ≤ text.length
  result : result = if count = text.length then 1 else 0
  /-- Only a call that fails keeps the rest of the string back. -/
  failed : count < text.length → ∃ call, call < c'.calls ∧ c.outcomes call = none
  broken : c.outcomes c.calls = none → count = 0

variable {c c' : Outgoing} {buf text file : List UInt8} {fuel count : ℕ} {result : ℤ}

/-- The loop sends a front of the string, and all of it unless a call fails. -/
theorem sendLoop_taken (hfuel : buf.length ≤ fuel) :
    ∃ count c' result, sendLoop fuel c buf = (c', result) ∧ Taken c buf count c' result := by
  induction fuel generalizing c buf with
  | zero =>
    obtain rfl : buf = [] := List.eq_nil_of_length_eq_zero (by omega)
    exact ⟨0, c, 1, rfl, by simp, rfl, le_rfl, le_rfl, rfl, fun h => absurd h (Nat.lt_irrefl 0),
      fun _ => rfl⟩
  | succ fuel ih =>
    by_cases hbuf : buf = []
    · exact ⟨0, c, 1, by simp [sendLoop, hbuf], by simp, rfl, le_rfl, Nat.zero_le _,
        by simp [hbuf], fun h => absurd h (by simp [hbuf]), fun _ => rfl⟩
    · have hpos : 0 < buf.length := List.length_pos_iff.mpr hbuf
      cases houtcome : c.outcomes c.calls with
      | none =>
        refine ⟨0, { c with calls := c.calls + 1 }, 0, ?_, by simp, rfl, Nat.le_succ _,
          Nat.zero_le _, by rw [if_neg (by omega)],
          fun _ => ⟨c.calls, Nat.lt_succ_self _, houtcome⟩, fun _ => rfl⟩
        simp only [sendLoop, hbuf, if_false, send, houtcome]
      | some offered =>
        obtain ⟨took, htook, hle⟩ : ∃ took, took = min buf.length (max 1 offered) ∧
            took ≤ buf.length := ⟨_, rfl, Nat.min_le_left _ _⟩
        have hshort : (buf.drop took).length ≤ fuel := by
          rw [List.length_drop]
          omega
        obtain ⟨count, c', result, hloop, taken⟩ := ih
          (c := { c with sent := c.sent ++ buf.take took, calls := c.calls + 1 }) hshort
        have hrest : (buf.drop took).length = buf.length - took := List.length_drop
        have hcount : count ≤ buf.length - took := hrest ▸ taken.le
        have hall : count = (buf.drop took).length ↔ took + count = buf.length := by
          rw [hrest]
          omega
        refine ⟨took + count, c', result, ?_, ?_, taken.outcomes,
          (Nat.le_succ _).trans taken.calls, by omega, ?_, fun h => taken.failed (by omega),
          fun hnone => absurd (houtcome.symm.trans hnone) (Option.some_ne_none _)⟩
        · simp only [sendLoop, hbuf, if_false, send, houtcome, ← htook, hloop]
        · rw [taken.sent, List.append_assoc, List.take_add]
        · rw [taken.result]
          exact if_congr hall rfl rfl

theorem sendString_taken (c : Outgoing) (buf : List UInt8) :
    ∃ count c' result, c.sendString buf = (c', result) ∧
      Taken c (cString buf) count c' result :=
  sendLoop_taken le_rfl

/-- The first string of a response. -/
def statusLine : List UInt8 := bytes "HTTP 200 OK\r\n"

/-- The second string of a response. -/
def lengthLine (file : List UInt8) : List UInt8 :=
  bytes "Content-Length:" ++ decimal file.length ++ bytes "\r\n\n\r\n"

theorem header_eq (file : List UInt8) : header file = statusLine ++ lengthLine file := rfl

/-- The three strings of a response go out one after another, each as far as its calls do not
fail, and the result tells whether all did. -/
theorem sendFile_taken (c : Outgoing) (bound : file.length + 1 < 2 ^ 31) :
    ∃ (first second third : ℕ) (c₁ c₂ c' : Outgoing) (result₁ result₂ result₃ : ℤ),
      c.sendFile (some file) =
        some (c', if result₁ + result₂ + result₃ ≠ 3 then 0 else 1) ∧
      Taken c statusLine first c₁ result₁ ∧ Taken c₁ (lengthLine file) second c₂ result₂ ∧
      Taken c₂ (cString file) third c' result₃ := by
  have hlength : getFileSize (some file) = file.length := getFileSize_some (by omega)
  have hdecimal : toDecimal file.length = decimal file.length := by
    simp [toDecimal]
  have hpage : ((InputStream.openFile (some file)).read file.length).1 = file := by
    simp [InputStream.read]
  have hblock : bytesAt file file.length ++ [0] = file ++ [0] := by
    rw [bytesAt_eq_take le_rfl, List.take_length]
  have hline : NoNul (lengthLine file) :=
    NoNul.append (NoNul.append (by decide) (noNul_decimal _)) (by decide)
  obtain ⟨first, c₁, result₁, hcall₁, taken₁⟩ := sendString_taken c statusLine
  obtain ⟨second, c₂, result₂, hcall₂, taken₂⟩ := sendString_taken c₁ (lengthLine file)
  obtain ⟨third, c₃, result₃, hcall₃, taken₃⟩ := sendString_taken c₂ (file ++ [0])
  rw [cString_eq_self (by decide)] at taken₁
  rw [cString_eq_self hline] at taken₂
  rw [cString_append_zero] at taken₃
  refine ⟨first, second, third, c₁, c₂, c₃, result₁, result₂, result₃, ?_, taken₁, taken₂, taken₃⟩
  rw [statusLine] at hcall₁
  rw [lengthLine] at hcall₂
  unfold sendFile
  simp only [hlength, hdecimal, Int.toNat_natCast, hpage, hblock, hcall₁, hcall₂, hcall₃]
  rw [if_neg (by omega), if_neg (by omega), if_neg (by simp [malloc]; omega)]

/-- However the calls turn out, the server sends a front of each of the three strings of its
response, and the result is one exactly when the response has gone out whole. -/
theorem sendFile_result_iff (c : Outgoing) (file : List UInt8) (bound : file.length + 1 < 2 ^ 31) :
    ∃ c' result, c.sendFile (some file) = some (c', result) ∧ (result = 0 ∨ result = 1) ∧
      (∃ first second third, first <+: statusLine ∧ second <+: lengthLine file ∧
        third <+: cString file ∧ c'.sent = c.sent ++ first ++ second ++ third) ∧
      (result = 1 ↔ c'.sent = c.sent ++ header file ++ cString file) := by
  obtain ⟨first, second, third, c₁, c₂, c', result₁, result₂, result₃, hcall, taken₁, taken₂,
    taken₃⟩ := sendFile_taken c bound
  have hsent : c'.sent = c.sent ++ statusLine.take first ++ (lengthLine file).take second ++
      (cString file).take third := by
    rw [taken₃.sent, taken₂.sent, taken₁.sent]
  refine ⟨c', _, hcall, by split_ifs <;> simp, ⟨_, _, _, List.take_prefix _ _,
    List.take_prefix _ _, List.take_prefix _ _, hsent⟩, ?_⟩
  have hle₁ := taken₁.le
  have hle₂ := taken₂.le
  have hle₃ := taken₃.le
  have hcount : (if result₁ + result₂ + result₃ ≠ 3 then 0 else 1 : ℤ) = 1 ↔
      first = statusLine.length ∧ second = (lengthLine file).length ∧
        third = (cString file).length := by
    rw [taken₁.result, taken₂.result, taken₃.result]
    split_ifs <;> omega
  rw [hcount, hsent, header_eq]
  constructor
  · rintro ⟨rfl, rfl, rfl⟩
    simp only [List.take_length, List.append_assoc]
  · intro heq
    have hlength := congrArg List.length heq
    simp only [List.length_append, List.length_take] at hlength
    omega

/-- Ten bytes go out in one call, and the next call fails. -/
theorem sendFile_result_iff_failed :
    ∃ c' result,
      (fresh fun call => if call = 0 then some 10 else none).sendFile (some [72]) =
        some (c', result) ∧ (result = 0 ∨ result = 1) ∧
      (∃ first second third, first <+: statusLine ∧ second <+: lengthLine [72] ∧
        third <+: cString [72] ∧ c'.sent = [] ++ first ++ second ++ third) ∧
      (result = 1 ↔ c'.sent = [] ++ header [72] ++ cString [72]) :=
  sendFile_result_iff (fresh fun call => if call = 0 then some 10 else none) [72] (by decide)

/-! ## Connections that stay broken -/

/-- Behind a string that has not gone out whole nothing more goes out. -/
theorem Taken.nothing {c₁ c₂ : Outgoing} {other : List UInt8} {later : ℕ} {result₂ : ℤ}
    (taken : Taken c text count c₁ result) (next : Taken c₁ other later c₂ result₂)
    (stays : StaysBroken c.outcomes) (hshort : count < text.length) :
    c₂.sent = c₁.sent ∧ c₁.outcomes c₁.calls = none := by
  obtain ⟨call, hcall, hfailed⟩ := taken.failed hshort
  have hbroken : c₁.outcomes c₁.calls = none := by
    rw [taken.outcomes]
    exact stays call _ hcall.le hfailed
  refine ⟨?_, hbroken⟩
  rw [next.sent, next.broken hbroken, List.take_zero, List.append_nil]

/-- Over a connection that stays broken a front of the response goes out. -/
theorem sendFile_isPrefix (stays : StaysBroken c.outcomes) (bound : file.length + 1 < 2 ^ 31) :
    ∃ c' result, c.sendFile (some file) = some (c', result) ∧ 0 ≤ result ∧
      c'.sent <+: c.sent ++ (header file ++ cString file) := by
  obtain ⟨first, second, third, c₁, c₂, c', result₁, result₂, result₃, hcall, taken₁, taken₂,
    taken₃⟩ := sendFile_taken c bound
  have stays₁ : StaysBroken c₁.outcomes := taken₁.outcomes ▸ stays
  have hpos : 0 < (lengthLine file).length := by
    have hname : (bytes "Content-Length:").length = 15 := by decide
    rw [lengthLine, List.length_append, List.length_append, hname]
    omega
  refine ⟨c', _, hcall, by split_ifs <;> decide, ?_⟩
  rw [header_eq, List.append_assoc]
  -- where one string is cut the others are empty; the case says which one is
  by_cases hshort₁ : first < statusLine.length
  · obtain ⟨hsent₂, hbroken⟩ := taken₁.nothing taken₂ stays hshort₁
    have hshort₂ : second < (lengthLine file).length := (taken₂.broken hbroken).trans_lt hpos
    rw [(taken₂.nothing taken₃ stays₁ hshort₂).1, hsent₂, taken₁.sent,
      List.prefix_append_right_inj]
    exact (List.take_prefix _ _).trans (List.prefix_append _ _)
  · have hall₁ : first = statusLine.length := Nat.le_antisymm taken₁.le (Nat.not_lt.mp hshort₁)
    by_cases hshort₂ : second < (lengthLine file).length
    · rw [(taken₂.nothing taken₃ stays₁ hshort₂).1, taken₂.sent, taken₁.sent, hall₁,
        List.take_length, List.append_assoc, List.prefix_append_right_inj,
        List.prefix_append_right_inj]
      exact (List.take_prefix _ _).trans (List.prefix_append _ _)
    · have hall₂ : second = (lengthLine file).length :=
        Nat.le_antisymm taken₂.le (Nat.not_lt.mp hshort₂)
      rw [taken₃.sent, taken₂.sent, taken₁.sent, hall₁, hall₂, List.take_length, List.take_length,
        List.append_assoc, List.append_assoc, List.prefix_append_right_inj,
        List.prefix_append_right_inj, List.prefix_append_right_inj]
      exact List.take_prefix _ _

end Outgoing

/-! ## A client with a front of a response -/

variable {file sent content buf : List UInt8} {recvs : ℕ → Option ℕ} {fuel : ℕ}
  {announced readLength contentLength : ℤ}

/-- The three lines of a header. -/
theorem header_cutLines (file body : List UInt8) :
    ∃ status length rest₁ rest₂, cutLine (Outgoing.header file ++ body) = some (status, rest₁) ∧
      cutLine rest₁ = some (length, rest₂) ∧ cutLine rest₂ = some ([10], body) ∧
      strlen status ≠ 1 ∧ strlen length ≠ 1 := by
  have hdigits : ∀ byte : UInt8, isDigit byte = false → byte ∉ decimal file.length := by
    intro byte hbyte hmem
    exact absurd ((isDigit_of_mem_decimal hmem).symm.trans hbyte) (by decide)
  have hheader : Outgoing.header file ++ body = bytes "HTTP 200 OK" ++ eol ++
      ((bytes "Content-Length:" ++ decimal file.length) ++ eol ++ ([10] ++ eol ++ body)) := by
    have hstatus : bytes "HTTP 200 OK\r\n" = bytes "HTTP 200 OK" ++ eol := by decide
    have hend : bytes "\r\n\n\r\n" = eol ++ ([10] ++ eol) := by decide
    rw [Outgoing.header, hstatus, hend]
    simp only [List.append_assoc]
  rw [hheader]
  refine ⟨_, _, _, _, cutLine_eol (by decide), cutLine_eol ?_, cutLine_eol (by decide),
    by decide, ?_⟩
  · exact fun hmem => (List.mem_append.mp hmem).elim (by decide) (hdigits 13 (by decide))
  · have hname : (bytes "Content-Length:").length = 15 := by decide
    rw [strlen_append (by decide), hname]
    omega

/-- Without the body the loop over the header ends at one of two response codes or with what is
undefined. -/
theorem exit_of_headerRound {s : HeaderState} {result : ClientEnd}
    (h : headerRound s = .inr (.exit result)) :
    result = .undefined ∨ result = .badRequest ∨ result = .notFound := by
  unfold headerRound at h
  dsimp only at h
  split_ifs at h
  · exact .inl (HeaderEnd.exit.inj (Sum.inr.inj h)).symm
  · exact nomatch Sum.inr.inj h
  · split at h
    · exact .inl (HeaderEnd.exit.inj (Sum.inr.inj h)).symm
    · split_ifs at h
      · exact .inr (.inl (HeaderEnd.exit.inj (Sum.inr.inj h)).symm)
      · exact .inr (.inr (HeaderEnd.exit.inj (Sum.inr.inj h)).symm)
  · split at h
    · exact .inl (HeaderEnd.exit.inj (Sum.inr.inj h)).symm
    · exact nomatch h

theorem exit_of_headerLoop {s : HeaderState} {result : ClientEnd}
    (h : headerLoop fuel s = some (.exit result)) :
    result = .undefined ∨ result = .badRequest ∨ result = .notFound := by
  induction fuel generalizing s with
  | zero => exact nomatch h
  | succ fuel ih =>
    cases hround : headerRound s with
    | inl next =>
      rw [headerLoop_of_round hround] at h
      exact ih h
    | inr last =>
      rw [headerLoop_of_end hround] at h
      exact exit_of_headerRound (hround.trans (congrArg Sum.inr (Option.some.inj h)))

/-- The loop over the header finds the line that ends it only in a whole header. -/
theorem length_le_of_body {c : Incoming} {more body : List UInt8} {length : ℤ}
    (h : Reliable recvs) (hall : sent ++ more = Outgoing.header file ++ body)
    (hloop : headerLoop fuel ⟨.fresh sent recvs, buf, 0, contentLength⟩ =
      some (.body c length)) : more.length ≤ body.length := by
  obtain ⟨status, line, rest₁, rest₂, hcut₁, hcut₂, hcut₃, hstatus, hline⟩ :=
    header_cutLines file body
  have hfits : LineFits requestSize sent buf :=
    (lineFits_of_headerLoop h hloop).resolve_left (by simp)
  have hresult : lineResult sent ≠ 1 := by
    intro hone
    obtain ⟨first, hfirst, hlength⟩ := cut_of_lineResult hone
    have hwhole := cutLine_append_right hfirst more
    rw [hall, hcut₁] at hwhole
    obtain ⟨rfl, -⟩ := Prod.mk.inj (Option.some.inj hwhole)
    exact hstatus hlength
  obtain ⟨next, hpending, houtcomes, hcount, hfirst⟩ :=
    headerLoop_first h hresult hfits contentLength
  cases fuel with
  | zero => exact nomatch hloop
  | succ fuel =>
    rw [hfirst] at hloop
    cases hcode : numberBehind (lineText sent buf) 32 with
    | none =>
      rw [hcode] at hloop
      exact nomatch Option.some.inj hloop
    | some responseCode =>
      rw [hcode] at hloop
      dsimp only at hloop
      split_ifs at hloop
      · exact nomatch Option.some.inj hloop
      · exact nomatch Option.some.inj hloop
      · rcases cutLines_of_second houtcomes hcount hloop with
          hundefined | ⟨c', second, others, length', hbody, hlines, hends⟩
        · exact nomatch hundefined
        · obtain ⟨rfl, -⟩ := HeaderEnd.body.inj hbody
          rw [hpending] at hlines
          obtain ⟨first, hcut⟩ := exists_cutLine_of_more hlines (List.cons_ne_nil _ _)
          have hwhole : CutLines (sent ++ more) (first :: second :: others) (c.pending ++ more) :=
            (CutLines.cons hcut hlines).append_right more
          rw [hall] at hwhole
          obtain ⟨rest, hcut, hwhole⟩ := cutLines_cons_iff.mp hwhole
          obtain ⟨-, rfl⟩ := Prod.mk.inj (Option.some.inj (hcut₁.symm.trans hcut))
          obtain ⟨rest, hcut, hwhole⟩ := cutLines_cons_iff.mp hwhole
          obtain ⟨rfl, rfl⟩ := Prod.mk.inj (Option.some.inj (hcut₂.symm.trans hcut))
          -- the second line gives the length, so a third one ends the loop at the earliest
          obtain ⟨third, others, rfl⟩ : ∃ third behind, others = third :: behind := by
            rcases hends with hshort | ⟨-, -, between, last, rfl, -⟩
            · exact absurd hshort hline
            · cases between <;> exact ⟨_, _, rfl⟩
          obtain ⟨rest, hcut, hwhole⟩ := cutLines_cons_iff.mp hwhole
          obtain ⟨-, rfl⟩ := Prod.mk.inj (Option.some.inj (hcut₃.symm.trans hcut))
          have hle := hwhole.length_le
          rw [List.length_append] at hle
          omega

/-- A client that has received content has come behind the header. -/
theorem header_isPrefix_of_received {more body : List UInt8} (h : Reliable recvs)
    (hall : sent ++ more = Outgoing.header file ++ body)
    (hclient : client fuel (.fresh sent recvs) buf contentLength =
      some (.received announced readLength content)) : Outgoing.header file <+: sent := by
  have hle : more.length ≤ body.length := by
    cases hloop : headerLoop fuel ⟨.fresh sent recvs, buf, 0, contentLength⟩ with
    | none => simp [client, hloop] at hclient
    | some last =>
      cases last with
      | exit result =>
        simp only [client, hloop, Option.some.injEq] at hclient
        rcases exit_of_headerLoop hloop with rfl | rfl | rfl <;> exact ClientEnd.noConfusion hclient
      | body c length => exact length_le_of_body h hall hloop
  have hlength := congrArg List.length hall
  simp only [List.length_append] at hlength
  exact List.prefix_of_prefix_length_le (List.prefix_append _ body)
    (hall ▸ List.prefix_append sent more) (by omega)

/-- Of a front of a response a client receives what stands behind the header, if the header is
whole and the file is short or whole. -/
theorem client_front_iff (h : Reliable recvs) (bound : file.length < 2 ^ 31)
    (hfront : sent <+: Outgoing.header file ++ cString file) :
    (∃ fuel, client fuel (.fresh sent recvs) buf contentLength =
      some (.received announced readLength content)) ↔
      announced = file.length ∧ readLength = content.length ∧
        sent = Outgoing.header file ++ content ∧
        (file.length ≤ content.length ∨ file.length < Incoming.blockSize) := by
  constructor
  · rintro ⟨fuel, hclient⟩
    obtain ⟨more, hall⟩ := hfront
    obtain ⟨body, rfl⟩ := header_isPrefix_of_received h hall hclient
    rw [List.append_assoc] at hall
    have hbody : body.length ≤ file.length := by
      have hstring := congrArg List.length (List.append_cancel_left hall)
      have hle := strlen_le file
      rw [List.length_append] at hstring
      unfold strlen at hle
      omega
    obtain ⟨hall, hresult⟩ := (client_body_iff h bound body buf contentLength).mp ⟨fuel, hclient⟩
    rw [List.take_of_length_le hbody] at hresult
    obtain ⟨rfl, rfl, rfl⟩ := ClientEnd.received.inj hresult
    exact ⟨rfl, rfl, rfl, hall⟩
  · rintro ⟨rfl, rfl, rfl, hall⟩
    have hcontent : content.length ≤ file.length :=
      ((List.prefix_append_right_inj _).mp hfront).length_le.trans (strlen_le file)
    exact (client_body_iff h bound content buf contentLength).mpr
      ⟨hall, by rw [List.take_of_length_le hcontent]⟩

/-- When the server's connection fails at some call and stays broken, a front of the response has
gone out, and the client receives content exactly when the header is in it and the file is short or
whole: then it receives what has gone out of the file. -/
theorem session_breaks {name : List UInt8} {calls : Calls}
    {files : List UInt8 → Option (List UInt8)} (hsends : Reliable calls.clientSends)
    (hrecvs : Reliable calls.serverRecvs) (hreads : Reliable calls.clientRecvs)
    (stays : StaysBroken calls.serverSends) (hname : NoNul name) (hline : NoLineEnd name)
    (hshort : name.length ≤ 506) (hfile : files name = some file)
    (bound : file.length + 1 < 2 ^ 31) (buf : List UInt8) :
    ∃ served, (handleConnection files (.fresh (bytes "GET " ++ name ++ eol) calls.serverRecvs)
        (.fresh calls.serverSends) buf).outgoing = some served ∧
      served.sent <+: Outgoing.header file ++ cString file ∧
      ∀ announced readLength content,
        (∃ fuel, session fuel files calls name buf contentLength =
          some (.received announced readLength content)) ↔
          announced = file.length ∧ readLength = content.length ∧
            served.sent = Outgoing.header file ++ content ∧
            (file.length ≤ content.length ∨ file.length < Incoming.blockSize) := by
  obtain ⟨served, result, hcall, hnonneg, hfront⟩ :=
    @Outgoing.sendFile_isPrefix (.fresh calls.serverSends) file stays bound
  have hpage : (Outgoing.fresh calls.serverSends).sendPage (files name) = some served := by
    rw [hfile, Outgoing.sendPage, hcall, Option.map_some]
    exact congrArg some (if_neg (by omega))
  refine ⟨served, (outgoing_asked hrecvs hname hline hshort files _ buf).trans hpage, hfront,
    fun announced readLength content => ?_⟩
  simp only [session_asked hsends hrecvs hname hline hshort files _ buf, hpage, Option.bind_some]
  exact client_front_iff hreads (by omega) hfront

/-- Of two bytes one goes out before the connection breaks. -/
theorem session_breaks_behind_header :
    ∃ fuel, session fuel (fun _ => some [72, 105])
      ⟨fun _ => some 1, fun _ => some 1,
        fun call => if call < 2 then some 100 else if call = 2 then some 1 else none,
        fun _ => some 1⟩ (bytes "a") (List.replicate lineSize 0) 0 =
      some (.received 2 1 [72]) := by
  obtain ⟨served, hserved, -, hends⟩ := @session_breaks [72, 105] 0
    (bytes "a")
    ⟨fun _ => some 1, fun _ => some 1,
      fun call => if call < 2 then some 100 else if call = 2 then some 1 else none,
      fun _ => some 1⟩ (fun _ => some [72, 105])
    (fun _ => rfl) (fun _ => rfl) (fun _ => rfl)
    (fun call later hle hnone => by
      dsimp only at hnone ⊢
      split_ifs at hnone
      rw [if_neg (by omega), if_neg (by omega)])
    (by decide) (by decide) (by decide) rfl (by decide) (List.replicate lineSize 0)
  have hsent : (handleConnection (fun _ => some [72, 105])
      (.fresh (bytes "GET " ++ bytes "a" ++ eol) fun _ => some 1)
      (.fresh fun call => if call < 2 then some 100 else if call = 2 then some 1 else none)
      (List.replicate lineSize 0)).outgoing.map Outgoing.sent =
        some (Outgoing.header [72, 105] ++ [72]) := by decide +kernel
  rw [hserved] at hsent
  exact (hends 2 1 [72]).mpr ⟨rfl, rfl, Option.some.inj hsent, .inr (by decide)⟩

end Comnet.ClientServer
