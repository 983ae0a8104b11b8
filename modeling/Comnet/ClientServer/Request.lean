/-
# The request

The client puts the name of a file between `GET` and the end of a line and sends that
as a string; the server reads a line and takes what stands behind `GET` for the name.
Neither looks at the length of the name, and the check that is to do so looks at the
name of the host. The server's buffer is the smaller one. A name survives if it fits
there and the server's reading of it does not run into an end of a line.
-/

import Comnet.ClientServer.Client

set_option autoImplicit false

namespace Comnet.ClientServer

open Foundations

/-- An argument of a program: a string. -/
abbrev Argument := { text : List UInt8 // NoNul text }

/-- The client's check of its arguments. -/
def accepts : List Argument → Bool
  | [_, host, port, _] => 1000 < atoiInt port.val && strlen host.val ≤ 1000
  | _ => false

/-- The server's `BUFSIZE`. -/
def lineSize : ℕ := 512

/-- The client's buffer with the request for a file in it, and what lies behind it as far
as it was written to. -/
def request (name : List UInt8) : List UInt8 :=
  let buf := overwrite (List.replicate requestSize 0) (bytes "GET ")
  let buf := strncat buf name (strlen name)
  strncat buf eol eol.length

namespace Outgoing

/-- The response to a bad request. -/
def sendBadRequest (c : Outgoing) : Outgoing :=
  (c.sendString (bytes "HTTP 400 Bad Request\r\n\n\r\n")).1

/-- The response when a page cannot be found. -/
def sendNotFound (c : Outgoing) : Outgoing :=
  (c.sendString (bytes "HTTP 404 Not Found\r\n\n\r\n")).1

end Outgoing

/-- What the server does about a connection. -/
structure Handled where
  /-- The buffer and what lies behind it as far as it was written to. -/
  buf : List UInt8
  /-- The path handed to `sendFile`. -/
  path : Option (List UInt8)
  /-- The connection in the end; `none` where the server computes what is undefined. -/
  outgoing : Option Outgoing

/-- What is done about the line in the buffer, with the files that there are. -/
def handleLine (files : List UInt8 → Option (List UInt8)) (outgoing : Outgoing)
    (buf : List UInt8) : Handled :=
  match strstr buf (bytes "GET ") with
  | none => ⟨buf, none, some outgoing.sendBadRequest⟩
  | some offset =>
    -- the request should start with GET
    if offset ≠ 0 then ⟨buf, none, some outgoing.sendBadRequest⟩
    else
      let path := cString (buf.drop (offset + 4))
      match outgoing.sendFile (files path) with
      | none => ⟨buf, some path, none⟩
      | some (outgoing, result) =>
        ⟨buf, some path, some (if result < 0 then outgoing.sendNotFound else outgoing)⟩

/-- Handle a connection, with what the buffer holds before it is written. -/
def handleConnection (files : List UInt8 → Option (List UInt8)) (incoming : Incoming)
    (outgoing : Outgoing) (buf : List UInt8) : Handled :=
  let (c, buf, _) := incoming.recvLine buf
  let handled := handleLine files outgoing buf
  -- nothing checks that the line fits, and the buffer is taken for a string
  if incoming.overruns lineSize c buf then { handled with outgoing := none } else handled

/-- The request for a name fits where the client builds it, the line that arrives fits
where the server reads it to, and the server sends the file of that name. -/
structure Requested (name : List UInt8) (sends recvs : ℕ → Option ℕ)
    (files : List UInt8 → Option (List UInt8)) (outgoing : Outgoing) (buf : List UInt8) :
    Prop where
  requestFits : (request name).length ≤ requestSize
  lineFits : (handleConnection files
    (.fresh ((Outgoing.fresh sends).sendString (request name)).1.sent recvs) outgoing
      buf).buf.length ≤ lineSize
  path : (handleConnection files
    (.fresh ((Outgoing.fresh sends).sendString (request name)).1.sent recvs) outgoing
      buf).path = some name

variable {name buf : List UInt8} {sends recvs : ℕ → Option ℕ}
  {incoming : Incoming}

/-! ## The client -/

/-- The check does not look at the name of the file. -/
theorem accepts_iff {program host port file : Argument} :
    accepts [program, host, port, file] = true ↔
      1000 < atoiInt port.val ∧ strlen host.val ≤ 1000 := by
  rw [accepts, Bool.and_eq_true, decide_eq_true_eq, decide_eq_true_eq]

/-- The buffer when the name has been put behind `GET`. -/
theorem cString_named (h : NoNul name) :
    cString (strncat (overwrite (List.replicate requestSize 0) (bytes "GET ")) name
      (strlen name)) = bytes "GET " ++ name := by
  have hget : cString (overwrite (List.replicate requestSize 0) (bytes "GET ")) =
      bytes "GET " := by
    rw [overwrite_replicate, cString_append (by decide)]
    simp [cString]
  rw [cString_strncat, hget, strlen, cString_eq_self h, List.take_length]

theorem cString_request (h : NoNul name) :
    cString (request name) = bytes "GET " ++ name ++ eol := by
  have heol : (cString eol).take eol.length = eol := by decide
  rw [request, cString_strncat, cString_named h, heol]

/-- The request has `GET`, the end of the line and the end of the string beside the name. -/
theorem length_request (h : NoNul name) :
    (request name).length = max requestSize (name.length + 7) := by
  have hget : (bytes "GET ").length = 4 := by decide
  have heol : eol.length = 2 := by decide
  have hnamed := congrArg List.length (cString_named h)
  have hrequest := congrArg List.length (cString_request h)
  simp only [List.length_append, hget, heol] at hnamed hrequest
  rw [request, length_strncat, length_strncat, length_overwrite, List.length_replicate, hget,
    strlen, hnamed, strlen]
  change max _ ((cString (request name)).length + 1) = _
  rw [hrequest]
  unfold requestSize
  omega

/-! ## The server -/

/-- A line that begins with `GET` is taken for a request of what stands behind it. -/
theorem handleLine_path (files : List UInt8 → Option (List UInt8)) (outgoing : Outgoing)
    (path behind : List UInt8) :
    (handleLine files outgoing (bytes "GET " ++ path ++ behind)).buf =
        bytes "GET " ++ path ++ behind ∧
      (handleLine files outgoing (bytes "GET " ++ path ++ behind)).path =
        some (cString (path ++ behind)) := by
  have hget : strstr (bytes "GET " ++ path ++ behind) (bytes "GET ") = some 0 := by
    rw [List.append_assoc]
    exact strstr_append (by decide)
  have hdrop : (bytes "GET " ++ path ++ behind).drop (0 + 4) = path ++ behind := by
    rw [List.append_assoc]
    rfl
  unfold handleLine
  simp only [hget, hdrop, ne_eq, not_true, if_false]
  cases outgoing.sendFile (files (cString (path ++ behind))) <;> exact ⟨rfl, rfl⟩

theorem handleConnection_path (files : List UInt8 → Option (List UInt8)) (outgoing : Outgoing)
    {c : Incoming} {path behind : List UInt8} {result : ℤ}
    (hline : incoming.recvLine buf = (c, bytes "GET " ++ path ++ behind, result)) :
    (handleConnection files incoming outgoing buf).buf = bytes "GET " ++ path ++ behind ∧
      (handleConnection files incoming outgoing buf).path = some (cString (path ++ behind)) := by
  simp only [handleConnection, hline]
  split_ifs <;> exact handleLine_path files outgoing path behind

/-- What arrives is the request, however it is split. -/
theorem sent_request (h : NoNul name) (hsends : Reliable sends) :
    ((Outgoing.fresh sends).sendString (request name)).1.sent =
      bytes "GET " ++ name ++ eol := by
  obtain ⟨c, hsend, hsent, -⟩ := @Outgoing.sendString_of_reliable (.fresh sends) hsends
    (request name)
  rw [hsend, hsent, cString_request h]
  rfl

/-- Where the request holds an end of a line, what stands in front of it is taken for the
path, and the line takes up that and the bytes of its end. -/
theorem handled_of_cut {line rest : List UInt8} (h : NoNul name)
    (hcut : cutLine (name ++ eol) = some (line, rest)) (hrecvs : Reliable recvs)
    (files : List UInt8 → Option (List UInt8)) (outgoing : Outgoing) (buf : List UInt8) :
    (handleConnection files (.fresh (bytes "GET " ++ name ++ eol) recvs) outgoing
        buf).buf.length = max buf.length (line.length + 6) ∧
      (handleConnection files (.fresh (bytes "GET " ++ name ++ eol) recvs) outgoing
        buf).path = some line := by
  have hfront : cutLine (bytes "GET " ++ name ++ eol) = some (bytes "GET " ++ line, rest) := by
    rw [List.append_assoc, cutLine_append_front (by decide), hcut]
    rfl
  obtain ⟨c, hrecv, -⟩ := Incoming.recvLine_of_cut (c := .fresh _ recvs) hrecvs hfront buf
  obtain ⟨hbuf, hpath⟩ := handleConnection_path files outgoing hrecv
  have hget : (bytes "GET ").length = 4 := by decide
  have hnul : NoNul line := by
    have hall : NoNul (name ++ eol) := h.append (by decide)
    rw [← cutLine_append hcut, List.append_assoc] at hall
    exact hall.sublist (List.sublist_append_left _ _)
  refine ⟨?_, ?_⟩
  · rw [hbuf]
    simp only [List.length_append, List.length_cons, List.length_drop, hget]
    omega
  · rw [hpath, cString_append_zero_cons, cString_eq_self hnul]

/-- Where it holds none, the string in the buffer goes on behind the name. -/
theorem path_of_no_cut (h : NoNul name) (hcut : cutLine (name ++ eol) = none)
    (hrecvs : Reliable recvs) (files : List UInt8 → Option (List UInt8))
    (outgoing : Outgoing) (buf : List UInt8) :
    ∃ rest, (handleConnection files (.fresh (bytes "GET " ++ name ++ eol) recvs) outgoing
      buf).path = some (name ++ eol ++ rest) := by
  have hfront : cutLine (bytes "GET " ++ name ++ eol) = none := by
    rw [List.append_assoc, cutLine_append_front (by decide), hcut]
    rfl
  obtain ⟨c, hrecv, -⟩ := Incoming.recvLine_of_no_cut (c := .fresh _ recvs) hrecvs hfront buf
  have hbuf : overwrite buf (Incoming.fresh (bytes "GET " ++ name ++ eol) recvs).pending =
      bytes "GET " ++ name ++ (eol ++ buf.drop (bytes "GET " ++ name ++ eol).length) :=
    List.append_assoc _ _ _
  rw [hbuf] at hrecv
  obtain ⟨-, hpath⟩ := handleConnection_path files outgoing hrecv
  rw [← List.append_assoc, cString_append (h.append (by decide))] at hpath
  exact ⟨_, hpath⟩

/-- A name without an end of a line is read back, and the line takes up what is sent. -/
theorem handled_of_noLineEnd (h : NoNul name) (hline : NoLineEnd name)
    (hrecvs : Reliable recvs) (files : List UInt8 → Option (List UInt8))
    (outgoing : Outgoing) (buf : List UInt8) :
    (handleConnection files (.fresh (bytes "GET " ++ name ++ eol) recvs) outgoing
        buf).buf.length = max buf.length (name.length + 6) ∧
      (handleConnection files (.fresh (bytes "GET " ++ name ++ eol) recvs) outgoing
        buf).path = some name := by
  have hcut := (@cutLine_line_iff name []).mpr hline
  rw [List.append_nil] at hcut
  exact handled_of_cut h hcut hrecvs files outgoing buf

/-- A name with an end of a line is not. -/
theorem path_ne_of_lineEnd (h : NoNul name) (hline : ¬ NoLineEnd name)
    (hrecvs : Reliable recvs) (files : List UInt8 → Option (List UInt8))
    (outgoing : Outgoing) (buf : List UInt8) :
    (handleConnection files (.fresh (bytes "GET " ++ name ++ eol) recvs) outgoing
      buf).path ≠ some name := by
  have heol : eol.length = 2 := by decide
  intro heq
  cases hcut : cutLine (name ++ eol) with
  | none =>
    obtain ⟨rest, hpath⟩ := path_of_no_cut h hcut hrecvs files outgoing buf
    have hlength := congrArg List.length (Option.some.inj (hpath.symm.trans heq))
    simp only [List.length_append, heol] at hlength
    omega
  | some cut =>
    obtain ⟨line, rest⟩ := cut
    obtain ⟨-, hpath⟩ := handled_of_cut h hcut hrecvs files outgoing buf
    obtain rfl := Option.some.inj (hpath.symm.trans heq)
    -- a line that is the whole name leaves nothing of the request
    obtain rfl : rest = [] := by
      have hlength := congrArg List.length (cutLine_append hcut)
      simp only [List.length_append, List.length_cons, List.length_nil, heol] at hlength
      exact List.length_eq_zero_iff.mp (by omega)
    apply hline
    rw [← @cutLine_line_iff line [], List.append_nil]
    exact hcut

/-- Of the names that an accepted command line may hold, those arrive that leave room for `GET` and
the end of the line in the server's buffer and hold no end of a line. -/
theorem requested_iff {argv : List Argument} {name : Argument} (_ : accepts argv = true)
    (_ : argv[3]? = some name) (hsends : Reliable sends) (hrecvs : Reliable recvs)
    (files : List UInt8 → Option (List UInt8)) (outgoing : Outgoing)
    (hbuf : buf.length = lineSize) :
    Requested name.val sends recvs files outgoing buf ↔
      name.val.length ≤ 506 ∧ NoLineEnd name.val := by
  have hpending := sent_request name.property hsends
  have hlength := length_request name.property
  constructor
  · rintro ⟨-, hline, hpath⟩
    rw [hpending] at hline hpath
    have hend : NoLineEnd name.val := by
      by_contra hend
      exact path_ne_of_lineEnd name.property hend hrecvs files outgoing buf hpath
    rw [(handled_of_noLineEnd name.property hend hrecvs files outgoing buf).1] at hline
    unfold lineSize at hline
    exact ⟨by omega, hend⟩
  · rintro ⟨hshort, hend⟩
    obtain ⟨hline, hpath⟩ :=
      handled_of_noLineEnd name.property hend hrecvs files outgoing buf
    refine ⟨?_, ?_, hpending.symm ▸ hpath⟩
    · rw [hlength]
      unfold requestSize
      omega
    · rw [hpending, hline, hbuf]
      unfold lineSize
      omega

/-- `client h 2000 a` -/
theorem requested_iff_a :
    Requested (bytes "a") (fun _ => some 1) (fun _ => some 1) (fun _ => none)
        (.fresh fun _ => some 1) (List.replicate lineSize 0) ↔
      (bytes "a").length ≤ 506 ∧ NoLineEnd (bytes "a") :=
  @requested_iff _ (fun _ => some 1) (fun _ => some 1)
    [⟨bytes "client", by decide⟩, ⟨bytes "h", by decide⟩, ⟨bytes "2000", by decide⟩,
      ⟨bytes "a", by decide⟩]
    ⟨bytes "a", by decide⟩ (by decide) rfl (fun _ => rfl) (fun _ => rfl) (fun _ => none)
    (.fresh fun _ => some 1) List.length_replicate

/-- A name of 600 bytes passes the client's check, and the server writes its line beyond the
end of the buffer. -/
theorem request_overruns :
    ¬ ∀ (argv : List Argument) (name : Argument) (sends recvs : ℕ → Option ℕ)
      (files : List UInt8 → Option (List UInt8)) (outgoing : Outgoing) (buf : List UInt8),
      accepts argv = true → argv[3]? = some name → Reliable sends → Reliable recvs →
      buf.length = lineSize → Requested name.val sends recvs files outgoing buf := by
  intro h
  obtain ⟨name, hlength, hbytes⟩ : ∃ name : List UInt8,
      name.length = 600 ∧ ∀ byte ∈ name, byte = 65 :=
    ⟨List.replicate 600 65, List.length_replicate, fun _ => List.eq_of_mem_replicate⟩
  have hname : NoNul name := fun hmem => nomatch hbytes 0 hmem
  have hend : NoLineEnd name := noLineEnd_of_not_mem fun hmem => nomatch hbytes 13 hmem
  have hreliable : Reliable fun _ => some 1 := fun _ => rfl
  have hrequested : Requested name (fun _ => some 1) (fun _ => some 1) (fun _ => none)
      (.fresh fun _ => some 1) (List.replicate lineSize 0) :=
    h [⟨bytes "client", by decide⟩, ⟨bytes "h", by decide⟩, ⟨bytes "2000", by decide⟩,
        ⟨name, hname⟩]
      ⟨name, hname⟩ _ _ _ _ _ (accepts_iff.mpr (by decide)) rfl hreliable hreliable
      List.length_replicate
  have hline := hrequested.lineFits
  rw [sent_request hname hreliable, (handled_of_noLineEnd hname hend hreliable _ _ _).1] at hline
  unfold lineSize at hline
  omega

end Comnet.ClientServer
