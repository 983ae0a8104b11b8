/-
# A session

A client asks for a file, the server answers, and the client reads the answer. Only what the
server finds in its buffer decides what it answers: whether that begins with `GET`, and what
file has the name behind it. The size of a file is a number of 32 bits here, so a longer file
is taken for another one. Over connections that do not fail the client then ends in one of
three ways, or waits for ever for the rest of a file that was announced and not sent.
-/

import Comnet.ClientServer.Header
import Comnet.ClientServer.Request
import Comnet.ClientServer.Stream

set_option autoImplicit false

namespace Comnet.ClientServer

open Foundations

/-! ## What the server answers -/

/-- The answer to a bad request. -/
def badRequest : List UInt8 := bytes "HTTP 400 Bad Request\r\n\n\r\n"

/-- The answer when a page cannot be found. -/
def notFound : List UInt8 := bytes "HTTP 404 Not Found\r\n\n\r\n"

/-- What a file is taken for: as many of its bytes as its size in 32 bits says. -/
def served (file : List UInt8) : List UInt8 := file.take (narrow file.length).toNat

/-- The answer to a request for a file, by its size in 32 bits; `none` where the memory for it
cannot be computed. -/
def answer : Option (List UInt8) → Option (List UInt8)
  | none => some notFound
  | some file =>
    if narrow file.length = -1 then some notFound
    else if narrow file.length < 0 then some []
    else if 2 ^ 31 ≤ narrow file.length + 1 then none
    else some (Outgoing.header (served file) ++ cString (served file))

/-- The answer to the string in the server's buffer. -/
def response (files : List UInt8 → Option (List UInt8)) (text : List UInt8) :
    Option (List UInt8) :=
  if bytes "GET " <+: text then answer (files (text.drop 4)) else some badRequest

variable {file name memory text : List UInt8} {files : List UInt8 → Option (List UInt8)}

/-- A text is first found at the start of a string exactly when the string begins with it. -/
theorem strstr_eq_zero_iff : strstr memory text = some 0 ↔ text <+: cString memory := by
  rw [strstr]
  generalize cString memory = string
  cases string <;> simp [List.findIdx?_cons]

/-- The path is the string in the buffer without its first four characters. -/
theorem cString_drop (h : bytes "GET " <+: cString memory) :
    cString (memory.drop 4) = (cString memory).drop 4 := by
  obtain ⟨path, hpath⟩ := h
  have hnul : NoNul path := by
    have hall := noNul_cString memory
    rw [← hpath] at hall
    exact hall.sublist (List.sublist_append_right _ _)
  have hdrop : ∀ behind, (bytes "GET " ++ behind).drop 4 = behind := fun _ => rfl
  rcases eq_cString_or memory with hmemory | ⟨behind, hmemory⟩
  · rw [hmemory, cString_eq_self (noNul_cString memory), ← hpath, hdrop, cString_eq_self hnul]
  · have hfront : memory.drop 4 = path ++ 0 :: behind := by
      rw [hmemory, ← hpath, List.append_assoc, hdrop]
    rw [hfront, cString_append_zero_cons, cString_eq_self hnul, ← hpath, hdrop]

namespace Outgoing

variable {c : Outgoing}

theorem sendBadRequest_sent (h : Reliable c.outcomes) :
    c.sendBadRequest.sent = c.sent ++ badRequest := by
  obtain ⟨c', hcall, hsent, -⟩ := sendString_of_reliable h badRequest
  rw [cString_eq_self (by decide)] at hsent
  rw [← hsent, sendBadRequest, ← badRequest, hcall]

theorem sendNotFound_sent (h : Reliable c.outcomes) :
    c.sendNotFound.sent = c.sent ++ notFound := by
  obtain ⟨c', hcall, hsent, -⟩ := sendString_of_reliable h notFound
  rw [cString_eq_self (by decide)] at hsent
  rw [← hsent, sendNotFound, ← notFound, hcall]

theorem getFileSize_eq (file : List UInt8) : getFileSize (some file) = narrow file.length := by
  have htell : ((InputStream.openFile (some file)).seekg file.length).tellg = file.length :=
    InputStream.tellg_seekg (by rw [InputStream.good_seekg_natCast]; rfl)
  exact congrArg narrow htell

theorem length_served (h : 0 ≤ narrow file.length) :
    ((served file).length : ℤ) = narrow file.length := by
  have hle := narrow_natCast_le file.length
  rw [served, List.length_take]
  omega

/-- A file goes out as what it is taken for. -/
theorem sendFile_served (h : 0 ≤ narrow file.length) (c : Outgoing) :
    c.sendFile (some file) = c.sendFile (some (served file)) := by
  have hserved := length_served h
  have hsize : getFileSize (some (served file)) = getFileSize (some file) := by
    rw [getFileSize_eq, getFileSize_eq, hserved]
    exact narrow_of_mem (by omega) (asInt_lt _)
  have hread : ((InputStream.openFile (some (served file))).read
      (getFileSize (some file)).toNat).1 =
        ((InputStream.openFile (some file)).read (getFileSize (some file)).toNat).1 := by
    rw [getFileSize_eq]
    simp [InputStream.read, served, List.take_take]
  unfold sendFile
  simp only [hsize, hread]

/-- What is sent about a page that is asked for. -/
def sendPage (c : Outgoing) (file : Option (List UInt8)) : Option Outgoing :=
  (c.sendFile file).map fun (c, result) => if result < 0 then c.sendNotFound else c

/-- The answer about a page goes out whole. -/
theorem sendPage_sent (h : Reliable c.outcomes) (file : Option (List UInt8)) :
    (c.sendPage file).map Outgoing.sent = (answer file).map (c.sent ++ ·) := by
  cases file with
  | none => exact congrArg some (sendNotFound_sent h)
  | some file =>
    have hsize := getFileSize_eq file
    by_cases hmissing : narrow file.length = -1
    · have hcall : c.sendFile (some file) = some (c, -1) := by
        simp only [sendFile, hsize, hmissing, if_true]
      rw [sendPage, hcall, answer, if_pos hmissing]
      exact congrArg some (sendNotFound_sent h)
    · by_cases hneg : narrow file.length < 0
      · have hgranted : malloc (narrow file.length + 1) = false := by
          rw [malloc, decide_eq_false_iff_not]
          omega
        have hcall : c.sendFile (some file) = some (c, 0) := by
          simp only [sendFile, hsize, if_neg hmissing, hgranted, Bool.not_false, if_true]
          rw [if_neg (by omega)]
        rw [sendPage, hcall, answer, if_neg hmissing, if_pos hneg]
        exact congrArg some (List.append_nil _).symm
      · have hserved := length_served (Int.not_lt.mp hneg)
        rw [answer, if_neg hmissing, if_neg hneg]
        by_cases hover : 2 ^ 31 ≤ narrow file.length + 1
        · have hcall : c.sendFile (some file) = none := by
            simp only [sendFile, hsize, if_neg hmissing, if_pos hover]
          rw [sendPage, hcall, if_pos hover]
          rfl
        · obtain ⟨c', hcall, hsent⟩ := @sendFile_of_reliable c h (served file) (by omega)
          rw [← sendFile_served (Int.not_lt.mp hneg)] at hcall
          rw [sendPage, hcall, if_neg hover]
          exact congrArg some (hsent.trans (List.append_assoc _ _ _))

end Outgoing

section Handled

variable {incoming : Incoming} {outgoing : Outgoing}

/-- The line is answered where what comes fits the buffer. -/
theorem outgoing_of_fits (h : Reliable incoming.outcomes) {buf : List UInt8}
    (fits : LineFits lineSize incoming.pending buf) (files : List UInt8 → Option (List UInt8))
    (outgoing : Outgoing) :
    ∃ memory, cString memory = lineText incoming.pending buf ∧
      (handleConnection files incoming outgoing buf).outgoing =
        (handleLine files outgoing memory).outgoing := by
  obtain ⟨c, memory, hrecv, htext, -⟩ := recvLine_text h buf
  have hinside := (Incoming.overruns_recvLine h lineSize buf).mpr fits
  simp only [hrecv] at hinside
  exact ⟨memory, htext, by simp only [handleConnection, hrecv, hinside, Bool.false_eq_true,
    if_false]⟩

/-- A string that begins with `GET` asks for the page behind it. -/
theorem outgoing_of_get (h : Reliable incoming.outcomes) {buf : List UInt8}
    (fits : LineFits lineSize incoming.pending buf)
    (hget : bytes "GET " <+: lineText incoming.pending buf)
    (files : List UInt8 → Option (List UInt8)) (outgoing : Outgoing) :
    (handleConnection files incoming outgoing buf).outgoing =
      outgoing.sendPage (files ((lineText incoming.pending buf).drop 4)) := by
  obtain ⟨memory, htext, hhandled⟩ := outgoing_of_fits h fits files outgoing
  rw [hhandled]
  rw [← htext] at hget ⊢
  have hfound := strstr_eq_zero_iff.mpr hget
  rw [← cString_drop hget]
  cases hcall : outgoing.sendFile (files (cString (memory.drop 4))) with
  | none => simp [handleLine, Outgoing.sendPage, hfound, hcall]
  | some sent => simp [handleLine, Outgoing.sendPage, hfound, hcall]

/-- Any other string is refused, also where a `GET` stands further behind. -/
theorem outgoing_of_other (h : Reliable incoming.outcomes) {buf : List UInt8}
    (fits : LineFits lineSize incoming.pending buf)
    (hother : ¬ bytes "GET " <+: lineText incoming.pending buf)
    (files : List UInt8 → Option (List UInt8)) (outgoing : Outgoing) :
    (handleConnection files incoming outgoing buf).outgoing = some outgoing.sendBadRequest := by
  obtain ⟨memory, htext, hhandled⟩ := outgoing_of_fits h fits files outgoing
  rw [hhandled]
  rw [← htext, ← strstr_eq_zero_iff] at hother
  cases hfound : strstr memory (bytes "GET ") with
  | none => simp [handleLine, hfound]
  | some offset =>
    have hoffset : offset ≠ 0 := fun heq => hother (heq ▸ hfound)
    simp [handleLine, hfound, hoffset]

/-- Over connections that do not fail the server sends one answer, as long as what comes fits its
buffer and leaves the end of a string there. The string decides which. -/
theorem handleConnection_response (hrecvs : Reliable incoming.outcomes)
    (hsends : Reliable outgoing.outcomes) (files : List UInt8 → Option (List UInt8))
    (buf : List UInt8) (fits : LineFits lineSize incoming.pending buf) :
    (handleConnection files incoming outgoing buf).outgoing.map Outgoing.sent =
      (response files (lineText incoming.pending buf)).map (outgoing.sent ++ ·) := by
  by_cases hget : bytes "GET " <+: lineText incoming.pending buf
  · rw [outgoing_of_get hrecvs fits hget, response, if_pos hget]
    exact Outgoing.sendPage_sent hsends _
  · rw [outgoing_of_other hrecvs fits hget, response, if_neg hget]
    exact congrArg some (Outgoing.sendBadRequest_sent hsends)

/-- A `GET` that does not stand at the start of the line, one byte at a time. -/
theorem handleConnection_response_behind :
    (handleConnection (fun _ => some []) (.fresh (bytes "A GET a\r\n") fun _ => some 1)
      (.fresh fun _ => some 1) []).outgoing.map Outgoing.sent = some badRequest :=
  (@handleConnection_response (.fresh (bytes "A GET a\r\n") fun _ => some 1)
    (.fresh fun _ => some 1) (fun _ => rfl) (fun _ => rfl) (fun _ => some []) []
    (by decide)).trans (by decide)

end Handled

/-! ## How the client ends -/

/-- How a client ends that has asked for a file, by what there is of it. -/
inductive SessionEnd : Option (List UInt8) → ClientEnd → Prop
  | missing : SessionEnd none .notFound
  | whole {file : List UInt8} (noNul : NoNul file) :
      SessionEnd (some file) (.received file.length file.length file)
  /-- What is announced and not sent is missed by a call that waits for all of it. -/
  | cut {file : List UInt8} (nul : ¬ NoNul file) (short : file.length < Incoming.blockSize) :
      SessionEnd (some file) (.received file.length (strlen file) (cString file))

variable {c : Incoming} {buf : List UInt8} {recvs : ℕ → Option ℕ} {contentLength : ℤ}
  {fuel fuel' : ℕ} {result result' : ClientEnd}

/-- More fuel does not change how a client ends. -/
theorem client_mono (h : client fuel c buf contentLength = some result) (hle : fuel ≤ fuel') :
    client fuel' c buf contentLength = some result := by
  unfold client at h ⊢
  cases hheader : headerLoop fuel ⟨c, buf, 0, contentLength⟩ with
  | none => simp [hheader] at h
  | some last =>
    rw [headerLoop_mono hheader hle]
    cases last with
    | exit result => simpa [hheader] using h
    | body c length =>
      rw [hheader] at h
      dsimp only at h ⊢
      split_ifs at h ⊢
      · exact h
      · cases hstream : c.recvStream fuel length.toNat with
        | none => simp [hstream] at h
        | some received =>
          rw [Incoming.recvStream_mono hstream hle]
          simpa [hstream] using h

theorem client_unique (h : client fuel c buf contentLength = some result)
    (h' : client fuel' c buf contentLength = some result') : result = result' := by
  have hmore := client_mono h (le_max_left fuel fuel')
  rw [client_mono h' (le_max_right fuel fuel')] at hmore
  exact (Option.some.inj hmore).symm

theorem client_notFound (h : Reliable recvs) (buf : List UInt8) (contentLength : ℤ) :
    client 1 (.fresh notFound recvs) buf contentLength = some .notFound := by
  have hcut : cutLine notFound = some (bytes "HTTP 404 Not Found", bytes "\n\r\n") := by decide
  have hresult : lineResult notFound ≠ 1 := by decide
  have hcode : numberBehind (lineText notFound buf) 32 = some 404 := by
    simp only [lineText, hcut]
    decide
  have hfits : LineFits requestSize notFound buf := (lineFits_of_cut hcut).mpr (by decide)
  obtain ⟨next, -, -, -, hfirst⟩ := headerLoop_first h hresult hfits contentLength
  rw [client, hfirst, hcode]
  rfl

/-- Behind the header of a file the client receives as many bytes as the file has. -/
theorem client_header (h : Reliable recvs) (bound : file.length < 2 ^ 31) (body buf : List UInt8)
    (contentLength : ℤ) :
    ∃ c : Incoming, c.pending = body ∧ Reliable c.outcomes ∧ ∀ fuel, 3 ≤ fuel →
      client fuel (.fresh (Outgoing.header file ++ body) recvs) buf contentLength =
        (c.recvStream fuel file.length).map fun (_, content, readLength) =>
          if readLength < 0 then .failed else .received file.length readLength content := by
  obtain ⟨c, hheader, hpending, houtcomes⟩ := headerLoop_header h bound body buf contentLength
  refine ⟨c, hpending, houtcomes ▸ h, fun fuel hfuel => ?_⟩
  have hgranted : malloc file.length = true := by simp [malloc]
  rw [client, headerLoop_mono hheader hfuel]
  simp only [hgranted, Bool.not_true, Bool.false_eq_true, if_false, Int.toNat_natCast]
  cases c.recvStream fuel file.length with
  | none => rfl
  | some received =>
    obtain ⟨c', content, readLength⟩ := received
    exact (apply_ite some _ _ _).symm

/-- Whatever comes behind the header, the client takes it up to the announced length, and only
where less comes of a long file does it wait for ever. -/
theorem client_body_iff (h : Reliable recvs) (bound : file.length < 2 ^ 31)
    (body buf : List UInt8) (contentLength : ℤ) :
    (∃ fuel, client fuel (.fresh (Outgoing.header file ++ body) recvs) buf contentLength =
      some result) ↔
      (file.length ≤ body.length ∨ file.length < Incoming.blockSize) ∧
        result = .received file.length (body.take file.length).length (body.take file.length) := by
  obtain ⟨c, hpending, hreliable, hclient⟩ := client_header h bound body buf contentLength
  have hends : ∀ {fuel c' readLength}, 3 ≤ fuel → c.recvStream fuel file.length =
      some (c', body.take file.length, readLength) → readLength = (body.take file.length).length →
      client fuel (.fresh (Outgoing.header file ++ body) recvs) buf contentLength =
        some (.received file.length (body.take file.length).length (body.take file.length)) := by
    rintro fuel c' - hfuel hstream rfl
    rw [hclient fuel hfuel, hstream, Option.map_some]
    exact congrArg some (if_neg (by omega))
  have hsome : file.length ≤ body.length ∨ file.length < Incoming.blockSize →
      ∃ fuel, client fuel (.fresh (Outgoing.header file ++ body) recvs) buf contentLength =
        some (.received file.length (body.take file.length).length (body.take file.length)) := by
    rintro (henough | hsmall)
    · obtain ⟨fuel, c', hstream⟩ := Incoming.recvStream_returns hreliable
        (show file.length ≤ c.pending.length by rwa [hpending])
      rw [hpending] at hstream
      exact ⟨_, hends (le_max_right fuel 3)
        (Incoming.recvStream_mono hstream (le_max_left fuel 3)) (by simp [henough])⟩
    · obtain ⟨count, hcount⟩ := Option.isSome_iff_exists.mp (hreliable c.calls)
      obtain ⟨c', hstream⟩ :=
        @Incoming.recvStreamSignalled_of_lt c file.length false hsmall count hcount 3
      rw [Incoming.recvStreamSignalled_false, if_neg Bool.false_ne_true, hpending] at hstream
      exact ⟨3, hends le_rfl hstream rfl⟩
  constructor
  · rintro ⟨fuel, hresult⟩
    have hall : file.length ≤ body.length ∨ file.length < Incoming.blockSize := by
      by_contra hshort
      rw [not_or, Nat.not_le, Nat.not_lt] at hshort
      -- the calls for the rest deliver nothing, for ever
      have hmore := client_mono hresult (le_max_left fuel 3)
      rw [hclient _ (le_max_right fuel 3)] at hmore
      obtain ⟨received, hstream, -⟩ := Option.map_eq_some_iff.mp hmore
      obtain ⟨call, -, hfailed⟩ := Incoming.failed_of_recvStream hshort.2
        (show c.pending.length < file.length by rw [hpending]; exact hshort.1) hstream
      have hcall := hreliable call
      rw [hfailed] at hcall
      exact nomatch hcall
    obtain ⟨fuel', hother⟩ := hsome hall
    exact ⟨hall, client_unique hresult hother⟩
  · rintro ⟨hall, rfl⟩
    exact hsome hall

/-- A file that is sent as a string is received as far as it is one, if the client ends. -/
theorem client_file_iff (h : Reliable recvs) (bound : file.length < 2 ^ 31) (buf : List UInt8)
    (contentLength : ℤ) :
    (∃ fuel, client fuel (.fresh (Outgoing.header file ++ cString file) recvs) buf
      contentLength = some result) ↔ SessionEnd (some file) result := by
  rw [client_body_iff h bound, List.take_of_length_le (strlen_le file)]
  by_cases hnul : NoNul file
  · rw [cString_eq_self hnul]
    constructor
    · rintro ⟨-, rfl⟩
      exact .whole hnul
    · rintro (_ | _ | ⟨hcut, -⟩)
      · exact ⟨.inl le_rfl, rfl⟩
      · exact absurd hnul hcut
  · have hless : strlen file < file.length := strlen_lt_iff.mpr hnul
    constructor
    · rintro ⟨hall, rfl⟩
      exact .cut hnul (hall.resolve_left (Nat.not_le.mpr hless))
    · rintro (_ | hwhole | ⟨-, hsmall⟩)
      · exact absurd hwhole hnul
      · exact ⟨.inr hsmall, rfl⟩

/-! ## From the request to the end -/

/-- How the calls turn out on the four ends of a connection. -/
structure Calls where
  clientSends : ℕ → Option ℕ
  serverRecvs : ℕ → Option ℕ
  serverSends : ℕ → Option ℕ
  clientRecvs : ℕ → Option ℕ

/-- No call fails on either side. -/
structure Calls.AllReliable (calls : Calls) : Prop where
  clientSends : Reliable calls.clientSends
  serverRecvs : Reliable calls.serverRecvs
  serverSends : Reliable calls.serverSends
  clientRecvs : Reliable calls.clientRecvs

/-- A client asks for a file, the server handles the connection, and the client reads what comes
back; `none` where the client has not ended or one of them does what is undefined. -/
def session (fuel : ℕ) (files : List UInt8 → Option (List UInt8)) (calls : Calls)
    (name buf : List UInt8) (contentLength : ℤ) : Option ClientEnd :=
  let asked := (Outgoing.fresh calls.clientSends).sendString (request name)
  let handled := handleConnection files (.fresh asked.1.sent calls.serverRecvs)
    (.fresh calls.serverSends) buf
  -- the client writes a name of any length into its buffer
  if requestSize < (request name).length then none
  else
    handled.outgoing.bind fun answered =>
      client fuel (.fresh answered.sent calls.clientRecvs) (request name) contentLength

variable {calls : Calls}

/-- The server finds the name that the client has put into its request. -/
theorem cutLine_asked (hline : NoLineEnd name) :
    cutLine (bytes "GET " ++ name ++ eol) = some (bytes "GET " ++ name, []) := by
  have hname := (@cutLine_line_iff name []).mpr hline
  rw [List.append_nil] at hname
  rw [List.append_assoc, cutLine_append_front (by decide), show eol = [13, 10] by decide, hname]
  rfl

/-- The server sends the page of the name that the client has put into its request. -/
theorem outgoing_asked {recvs : ℕ → Option ℕ} (h : Reliable recvs) (hname : NoNul name)
    (hline : NoLineEnd name) (hshort : name.length ≤ 506)
    (files : List UInt8 → Option (List UInt8)) (outgoing : Outgoing) (buf : List UInt8) :
    (handleConnection files (.fresh (bytes "GET " ++ name ++ eol) recvs) outgoing buf).outgoing =
      outgoing.sendPage (files name) := by
  have hcut := cutLine_asked hline
  have htext : lineText (bytes "GET " ++ name ++ eol) buf = bytes "GET " ++ name := by
    simp only [lineText, hcut]
    exact cString_eq_self (NoNul.append (by decide) hname)
  have hget : (bytes "GET ").length = 4 := by decide
  have heol : eol.length = 2 := by decide
  have hfits : LineFits lineSize (bytes "GET " ++ name ++ eol) buf := by
    rw [lineFits_of_cut hcut, List.length_append, hget, heol]
    unfold lineSize
    omega
  have hdrop : (bytes "GET " ++ name).drop 4 = name := rfl
  have hpage := @outgoing_of_get (.fresh (bytes "GET " ++ name ++ eol) recvs) h buf hfits
    (htext.symm ▸ List.prefix_append _ _) files outgoing
  have hpending : (Incoming.fresh (bytes "GET " ++ name ++ eol) recvs).pending =
      bytes "GET " ++ name ++ eol := rfl
  rwa [hpending, htext, hdrop] at hpage

/-- The client of a session reads what the server sends about the page. -/
theorem session_asked (hsends : Reliable calls.clientSends) (hrecvs : Reliable calls.serverRecvs)
    (hname : NoNul name) (hline : NoLineEnd name) (hshort : name.length ≤ 506)
    (files : List UInt8 → Option (List UInt8)) (fuel : ℕ) (buf : List UInt8)
    (contentLength : ℤ) :
    session fuel files calls name buf contentLength =
      ((Outgoing.fresh calls.serverSends).sendPage (files name)).bind fun answered =>
        client fuel (.fresh answered.sent calls.clientRecvs) (request name) contentLength := by
  have hroom : ¬ requestSize < (request name).length := by
    rw [length_request hname]
    unfold requestSize
    omega
  simp only [session, sent_request hname hsends, if_neg hroom,
    outgoing_asked hrecvs hname hline hshort]

/-- Over connections that do not fail the client reads the answer about the page. -/
theorem session_eq (h : calls.AllReliable) (hname : NoNul name) (hline : NoLineEnd name)
    (hshort : name.length ≤ 506) (files : List UInt8 → Option (List UInt8)) (fuel : ℕ)
    (buf : List UInt8) (contentLength : ℤ) :
    session fuel files calls name buf contentLength =
      (answer (files name)).bind fun stream =>
        client fuel (.fresh stream calls.clientRecvs) (request name) contentLength := by
  have hsent : ((Outgoing.fresh calls.serverSends).sendPage (files name)).map Outgoing.sent =
      (answer (files name)).map ([] ++ ·) := Outgoing.sendPage_sent h.serverSends _
  simp only [List.nil_append, Option.map_id'] at hsent
  rw [session_asked h.clientSends h.serverRecvs hname hline hshort files fuel buf, ← hsent,
    Option.bind_map]
  rfl

/-- Over connections that do not fail, however they split what goes over them, a client that asks
for a file by a name that fits ends in exactly these ways: the file is missing, comes whole, or is
short and comes up to its first zero byte. -/
theorem session_ends_iff (h : calls.AllReliable) (hname : NoNul name) (hline : NoLineEnd name)
    (hshort : name.length ≤ 506)
    (bound : ∀ file, files name = some file → file.length + 1 < 2 ^ 31)
    (buf : List UInt8) (contentLength : ℤ) (result : ClientEnd) :
    (∃ fuel, session fuel files calls name buf contentLength = some result) ↔
      SessionEnd (files name) result := by
  simp only [session_eq h hname hline hshort files _ buf contentLength]
  cases hfile : files name with
  | none =>
    have hmissing := client_notFound h.clientRecvs (request name) contentLength
    constructor
    · rintro ⟨fuel, hends⟩
      obtain rfl := client_unique hends hmissing
      exact .missing
    · rintro ⟨⟩
      exact ⟨1, hmissing⟩
  | some file =>
    have hroom := bound file hfile
    have hnarrow : narrow file.length = file.length := narrow_of_mem (by omega) (by omega)
    have hserved : served file = file := by
      rw [served, hnarrow, Int.toNat_natCast, List.take_length]
    have hanswer : answer (some file) = some (Outgoing.header file ++ cString file) := by
      rw [answer, hnarrow, hserved, if_neg (by omega), if_neg (by omega), if_neg (by omega)]
    simp only [hanswer, Option.bind_some]
    exact client_file_iff h.clientRecvs (by omega) _ _

/-- Of three bytes that are announced the one in front of the zero byte comes. -/
theorem session_ends_iff_zero_byte :
    ∃ fuel, session fuel (fun _ => some [72, 0, 33])
      ⟨fun _ => some 1, fun _ => some 1, fun _ => some 1, fun _ => some 1⟩ (bytes "a")
      (List.replicate lineSize 0) 0 = some (.received 3 1 [72]) :=
  (@session_ends_iff (bytes "a") (fun _ => some [72, 0, 33])
    ⟨fun _ => some 1, fun _ => some 1, fun _ => some 1, fun _ => some 1⟩
    ⟨fun _ => rfl, fun _ => rfl, fun _ => rfl, fun _ => rfl⟩ (by decide) (by decide) (by decide)
    (fun _ hfile => Option.some.inj hfile ▸ by decide) (List.replicate lineSize 0) 0 _).mpr
    (.cut (by decide) (by decide))

end Comnet.ClientServer
