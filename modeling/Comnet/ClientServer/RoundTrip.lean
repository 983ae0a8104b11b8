/-
# A file requested and received

The server announces the size of the file and sends it as a string. The two agree
for a file without zero bytes, and then the client gets the file back; a zero byte
cuts what is sent short of what is announced.
-/

import Comnet.ClientServer.Client

set_option autoImplicit false

namespace Comnet.ClientServer

open Foundations

/-- The server sends the header and the whole file, and the client ends with the
length of the file announced and received, and the file at its destination. -/
def RoundTrip (file : List UInt8) (sends recvs : ℕ → Option ℕ) (buf : List UInt8)
    (contentLength : ℤ) : Prop :=
  ∃ c, (Outgoing.fresh sends).sendFile (some file) = some (c, 1) ∧
    c.sent = Outgoing.header file ++ file ∧
    ∃ fuel, client fuel (.fresh c.sent recvs) buf contentLength =
      some (.received file.length file.length file)

variable {file buf : List UInt8} {sends recvs : ℕ → Option ℕ} {contentLength : ℤ}

/-- The client receives what was announced when all of it was sent. -/
theorem client_received (h : Reliable recvs) (bound : file.length < 2 ^ 31) (buf : List UInt8)
    (contentLength : ℤ) :
    ∃ fuel, client fuel (.fresh (Outgoing.header file ++ file) recvs) buf contentLength =
      some (.received file.length file.length file) := by
  obtain ⟨c, hheader, hpending, houtcomes⟩ := headerLoop_header h bound file buf contentLength
  obtain ⟨fuel, c', hstream⟩ := Incoming.recvStream_returns (houtcomes ▸ h)
    (show file.length ≤ c.pending.length by rw [hpending])
  rw [hpending, List.take_length] at hstream
  refine ⟨max 3 fuel, ?_⟩
  unfold client
  rw [headerLoop_mono hheader (le_max_left _ _)]
  have hgranted : malloc file.length = true := by simp [malloc]
  simp only [hgranted, Bool.not_true, Bool.false_eq_true, if_false, Int.toNat_natCast,
    Incoming.recvStream_mono hstream (le_max_right _ _)]
  rw [if_neg (by omega)]

/-- What the client receives as content was sent behind the header. -/
theorem content_isPrefix (h : Reliable recvs) (bound : file.length < 2 ^ 31)
    {body content : List UInt8} {fuel : ℕ} {announced readLength : ℤ}
    (hclient : client fuel (.fresh (Outgoing.header file ++ body) recvs) buf contentLength =
      some (.received announced readLength content)) : content <+: body := by
  obtain ⟨c, hheader, hpending, -⟩ := headerLoop_header h bound body buf contentLength
  unfold client at hclient
  cases hloop : headerLoop fuel ⟨.fresh (Outgoing.header file ++ body) recvs, buf, 0,
      contentLength⟩ with
  | none => simp [hloop] at hclient
  | some result =>
    have hmore := headerLoop_mono hloop (le_max_left fuel 3)
    rw [headerLoop_mono hheader (le_max_right fuel 3)] at hmore
    obtain rfl := Option.some.inj hmore
    rw [hloop] at hclient
    dsimp only at hclient
    split_ifs at hclient with hgranted
    · simp at hclient
    · cases hstream : c.recvStream fuel (file.length : ℤ).toNat with
      | none =>
        rw [hstream] at hclient
        exact nomatch hclient
      | some stream =>
        obtain ⟨c', got, result⟩ := stream
        rw [hstream] at hclient
        dsimp only at hclient
        split_ifs at hclient
        · exact nomatch hclient
        · simp only [Option.some.injEq, ClientEnd.received.injEq] at hclient
          obtain ⟨-, -, rfl⟩ := hclient
          exact hpending ▸ Incoming.recvStream_append hstream

theorem roundTrip_of_noNul (hsends : Reliable sends) (hrecvs : Reliable recvs)
    (noNul : NoNul file) (bound : file.length + 1 < 2 ^ 31) :
    RoundTrip file sends recvs buf contentLength := by
  obtain ⟨c, hcall, hsent⟩ := Outgoing.sendFile_of_reliable (c := .fresh sends) hsends bound
  have hsent : c.sent = Outgoing.header file ++ file := by
    rw [hsent, cString_eq_self noNul]
    rfl
  exact ⟨c, hcall, hsent, hsent ▸ client_received hrecvs (by omega) buf contentLength⟩

/-- A file that comes back whole has no zero byte, since only the string that it begins
with is sent behind the header. -/
theorem noNul_of_roundTrip (hsends : Reliable sends) (hrecvs : Reliable recvs)
    (bound : file.length < 2 ^ 31) (h : RoundTrip file sends recvs buf contentLength) :
    NoNul file ∧ file.length + 1 < 2 ^ 31 := by
  obtain ⟨c, hcall, -, fuel, hclient⟩ := h
  have hroom : file.length + 1 < 2 ^ 31 := by
    by_contra hover
    have hlength : file.length + 1 = 2 ^ 31 := by omega
    exact nomatch hcall.symm.trans (Outgoing.sendFile_of_overflow hlength)
  refine ⟨?_, hroom⟩
  obtain ⟨c', hcall', hsent⟩ := Outgoing.sendFile_of_reliable (c := .fresh sends) hsends hroom
  obtain rfl : c = c' := by simpa using hcall.symm.trans hcall'
  have hwire : c.sent = Outgoing.header file ++ cString file := hsent
  rw [hwire] at hclient
  -- the content is as long as the file and comes from the string alone
  have hshort := (content_isPrefix hrecvs bound hclient).length_le
  by_contra hnul
  exact absurd (strlen_lt_iff.mpr hnul) (Nat.not_lt.mpr hshort)

/-- Over a connection that does not fail, however it splits what goes over it, a file comes back
whole exactly when it has no zero byte and is not of the largest size of all, for which the server
cannot compute the memory it needs. -/
theorem roundTrip_iff_noNul (file : List UInt8) (bound : file.length < 2 ^ 31)
    (sends recvs : ℕ → Option ℕ) (hsends : Reliable sends) (hrecvs : Reliable recvs)
    (buf : List UInt8) (contentLength : ℤ) :
    RoundTrip file sends recvs buf contentLength ↔
      NoNul file ∧ file.length + 1 < 2 ^ 31 :=
  ⟨noNul_of_roundTrip hsends hrecvs bound,
    fun h => roundTrip_of_noNul hsends hrecvs h.1 h.2⟩

/-- Three characters, moved one byte at a time. -/
theorem roundTrip_iff_noNul_bytewise :
    RoundTrip [72, 105, 33] (fun _ => some 1) (fun _ => some 1) [] 0 :=
  (roundTrip_iff_noNul [72, 105, 33] (by decide) _ _ (fun _ => rfl) (fun _ => rfl) [] 0).mpr
    (by decide)

/-- A zero byte inside a file is announced and not sent. -/
theorem roundTrip_zero_byte :
    ¬ RoundTrip [72, 0, 33] (fun _ => some 1) (fun _ => some 1) [] 0 := fun h =>
  absurd (noNul_of_roundTrip (fun _ => rfl) (fun _ => rfl) (by decide) h).1 (by decide)

end Comnet.ClientServer
