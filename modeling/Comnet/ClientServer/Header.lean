/-
# The header of whatever comes

The client's loop over the header is to end on every stream, without a read through a null
pointer, and to let the body begin only with a length that a line of this response gave. It looks
neither at the result of a call that finds no line, nor at the length of a line, nor at what a
line says it is. So it does as it is to in two cases: the response code sends it home after the
first line, or the second line gives the length and a line of one character comes behind it. In
both the lines up to there fit the client's buffer.
-/

import Comnet.ClientServer.Client

set_option autoImplicit false

namespace Comnet.ClientServer

open Foundations

/-- A line gives a length for the content that can be used. -/
def Announces (line : List UInt8) (length : ℤ) : Prop :=
  ∃ value, cString line = bytes "Content-Length:" ++ value ∧ length = atoiInt value ∧ 0 ≤ length

/-- A line fits the client's buffer with its end. -/
def ShortLine (line : List UInt8) : Prop := line.length + eol.length ≤ requestSize

/-- The loop has done nothing that is undefined, and the body begins with the length that the
second of the lines read has given. -/
def Acceptable (stream : List UInt8) : HeaderEnd → Prop
  | .exit result => result ≠ .undefined
  | .body c contentLength => ∃ status line others,
      CutLines stream (status :: line :: others) c.pending ∧ Announces line contentLength

/-- The loop over the header ends as it is to. -/
def HeaderRobust (stream : List UInt8) (outcomes : ℕ → Option ℕ) (buf : List UInt8)
    (contentLength : ℤ) : Prop :=
  ∃ fuel result, headerLoop fuel ⟨.fresh stream outcomes, buf, 0, contentLength⟩ = some result ∧
    Acceptable stream result

/-- The first line fits the buffer, and the response code in it is one of those at which the
client gives up. -/
def Refused (stream buf : List UInt8) : Prop :=
  LineFits requestSize stream buf ∧ (numberBehind (lineText stream buf) 32 = some 400 ∨
    numberBehind (lineText stream buf) 32 = some 404)

/-- A status line with a blank, a line that gives the length and, further on, a line of one
character; all lines up to there fit the buffer. -/
def Announced (stream : List UInt8) : Prop :=
  ∃ status line between last rest length,
    CutLines stream (status :: line :: (between ++ [last])) rest ∧
      (∀ cut ∈ status :: line :: (between ++ [last]), ShortLine cut) ∧ strlen status ≠ 1 ∧
      32 ∈ cString status ∧ Announces line length ∧ strlen last = 1

variable {s : HeaderState} {line rest text : List UInt8} {char : UInt8} {fuel : ℕ}
  {result : HeaderEnd} {length : ℤ}

/-! ## Numbers in lines -/

/-- Behind the only character of a string there is no number. -/
theorem numberBehind_of_length_one {number : ℤ} (h : text.length = 1)
    (hnumber : numberBehind text char = some number) : number = 0 := by
  obtain ⟨byte, rfl⟩ := List.length_eq_one_iff.mp h
  obtain rfl := List.mem_singleton.mp (mem_of_numberBehind hnumber)
  have hnil := @numberBehind_append [] char [] List.not_mem_nil
  exact (Option.some.inj (hnil.symm.trans hnumber)).symm

theorem numberBehind_of_announces (h : Announces line length) :
    numberBehind (cString line) 58 = some length := by
  obtain ⟨value, hline, rfl, -⟩ := h
  have hname : bytes "Content-Length:" = bytes "Content-Length" ++ [58] := by decide
  rw [hline, hname, List.append_assoc]
  exact numberBehind_append (by decide)

/-- A line that gives the length is not the last one. -/
theorem strlen_ne_of_announces (h : Announces line length) : strlen line ≠ 1 := by
  obtain ⟨value, hline, -⟩ := h
  have hname : (bytes "Content-Length:").length = 15 := by decide
  rw [strlen, hline, List.length_append, hname]
  omega

/-- A round that ends the loop with the body has read a line of one character. -/
theorem cut_of_lineResult {stream : List UInt8} (h : lineResult stream = 1) :
    ∃ line, cutLine stream = some (line, (readLine stream).2.1) ∧ strlen line = 1 := by
  unfold lineResult at h
  unfold readLine
  cases hcut : cutLine stream with
  | none =>
    rw [hcut] at h
    exact nomatch h
  | some cut =>
    rw [hcut] at h
    exact ⟨cut.1, rfl, h⟩

/-- A loop that ends otherwise than with what is undefined has begun with a line that fits. -/
theorem lineFits_of_headerLoop (h : Reliable s.c.outcomes)
    (hloop : headerLoop fuel s = some result) :
    result = .exit .undefined ∨ LineFits requestSize s.c.pending s.buf := by
  rw [or_iff_not_imp_right]
  intro hover
  cases fuel with
  | zero => exact nomatch hloop
  | succ fuel =>
    rw [headerLoop_of_end (headerRound_of_overrun h hover)] at hloop
    exact (Option.some.inj hloop).symm

/-! ## The rounds behind the second line -/

/-- The loop ends at a line of one character. -/
theorem headerLoop_of_cutLines {between : List (List UInt8)} {last : List UInt8}
    (h : Reliable s.c.outcomes) (hcount : 2 ≤ s.count)
    (hlines : CutLines s.c.pending (between ++ [last]) rest)
    (hshort : ∀ cut ∈ between ++ [last], ShortLine cut) (hlast : strlen last = 1) :
    ∃ fuel c lines, headerLoop fuel s = some (.body c s.contentLength) ∧
      CutLines s.c.pending lines c.pending := by
  induction between generalizing s with
  | nil =>
    obtain ⟨behind, hcut, -⟩ := cutLines_cons_iff.mp hlines
    obtain ⟨c, memory, hpending, -, hround⟩ :=
      headerRound_eq h ((lineFits_of_cut hcut).mpr (hshort last List.mem_cons_self))
    have hresult : lineResult s.c.pending = 1 := by simpa only [lineResult, hcut] using hlast
    rw [if_pos hresult] at hround
    refine ⟨1, c, [last], headerLoop_of_end hround, ?_⟩
    rw [hpending]
    exact .cons (by simp only [readLine, hcut]) .nil
  | cons line between ih =>
    obtain ⟨behind, hcut, hmore⟩ := cutLines_cons_iff.mp hlines
    obtain ⟨c, memory, hpending, houtcomes, hround⟩ :=
      headerRound_eq h ((lineFits_of_cut hcut).mpr (hshort line List.mem_cons_self))
    have hrest : c.pending = behind := by simpa only [readLine, hcut] using hpending
    by_cases hresult : lineResult s.c.pending = 1
    · rw [if_pos hresult] at hround
      exact ⟨1, c, [line], headerLoop_of_end hround, .cons (hrest ▸ hcut) .nil⟩
    · rw [if_neg hresult, if_neg (by omega), if_neg (by omega)] at hround
      obtain ⟨fuel, c', lines, hloop, hrun⟩ := ih
        (s := ⟨c, memory, s.count + 1, s.contentLength⟩) (houtcomes ▸ h)
        (Nat.le_succ_of_le hcount) (hrest ▸ hmore)
        fun cut hmem => hshort cut (List.mem_cons_of_mem _ hmem)
      exact ⟨fuel + 1, c', line :: lines, (headerLoop_of_round hround).trans hloop,
        .cons (hrest ▸ hcut) hrun⟩

/-- Only a line of one character ends it, or a line that does not fit. -/
theorem cutLines_of_headerLoop (h : Reliable s.c.outcomes) (hcount : 2 ≤ s.count)
    (hloop : headerLoop fuel s = some result) :
    result = .exit .undefined ∨ ∃ c between last, result = .body c s.contentLength ∧
      CutLines s.c.pending (between ++ [last]) c.pending ∧
      (∀ cut ∈ between ++ [last], ShortLine cut) ∧ strlen last = 1 := by
  induction fuel generalizing s with
  | zero => exact nomatch hloop
  | succ fuel ih =>
    rcases lineFits_of_headerLoop h hloop with hundefined | hfits
    · exact .inl hundefined
    obtain ⟨c, memory, hpending, houtcomes, hround⟩ := headerRound_eq h hfits
    by_cases hresult : lineResult s.c.pending = 1
    · rw [if_pos hresult] at hround
      obtain ⟨last, hcut, hlast⟩ := cut_of_lineResult hresult
      obtain rfl := Option.some.inj ((headerLoop_of_end hround).symm.trans hloop)
      exact .inr ⟨c, [], last, rfl, .cons (hpending ▸ hcut) .nil,
        List.forall_mem_singleton.mpr ((lineFits_of_cut hcut).mp hfits), hlast⟩
    · rw [if_neg hresult, if_neg (by omega), if_neg (by omega)] at hround
      rw [headerLoop_of_round hround] at hloop
      refine (ih (s := ⟨c, memory, s.count + 1, s.contentLength⟩) (houtcomes ▸ h)
        (Nat.le_succ_of_le hcount) hloop).imp_right ?_
      rintro ⟨c', between, last, hend, hlines, hshort, hlast⟩
      -- lines come behind this one, so it has been cut off
      have hmore : CutLines (readLine s.c.pending).2.1 (between ++ [last]) c'.pending :=
        hpending ▸ hlines
      obtain ⟨line, hcut⟩ := exists_cutLine_of_more hmore (by simp)
      exact ⟨c', line :: between, last, hend, .cons hcut hmore,
        List.forall_mem_cons.mpr ⟨(lineFits_of_cut hcut).mp hfits, hshort⟩, hlast⟩

/-! ## The first two lines -/

/-- The loop behind the first line ends with what is undefined or at a line of one character.
Unless that is the second line, the length is the number behind a colon in the second. -/
theorem cutLines_of_second (h : Reliable s.c.outcomes) (hcount : s.count = 1)
    (hloop : headerLoop fuel s = some result) :
    result = .exit .undefined ∨ ∃ c line others length, result = .body c length ∧
      CutLines s.c.pending (line :: others) c.pending ∧
      (strlen line = 1 ∨ numberBehind (cString line) 58 = some length ∧
        (∀ cut ∈ line :: others, ShortLine cut) ∧
        ∃ between last, others = between ++ [last] ∧ strlen last = 1) := by
  cases fuel with
  | zero => exact nomatch hloop
  | succ fuel =>
    rcases lineFits_of_headerLoop h hloop with hundefined | hfits
    · exact .inl hundefined
    obtain ⟨c, memory, hpending, houtcomes, hround⟩ := headerRound_eq h hfits
    by_cases hresult : lineResult s.c.pending = 1
    · rw [if_pos hresult] at hround
      obtain ⟨line, hcut, hline⟩ := cut_of_lineResult hresult
      obtain rfl := Option.some.inj ((headerLoop_of_end hround).symm.trans hloop)
      exact .inr ⟨c, line, [], _, rfl, .cons (hpending ▸ hcut) .nil, .inl hline⟩
    · rw [if_neg hresult, if_neg (by omega), if_pos hcount] at hround
      cases hnumber : numberBehind (lineText s.c.pending s.buf) 58 with
      | none =>
        rw [hnumber] at hround
        exact .inl (Option.some.inj (hloop.symm.trans (headerLoop_of_end hround)))
      | some length =>
        rw [hnumber] at hround
        rw [headerLoop_of_round hround] at hloop
        refine (cutLines_of_headerLoop (s := ⟨c, memory, 2, length⟩) (houtcomes ▸ h) le_rfl
          hloop).imp_right ?_
        rintro ⟨c', between, last, hend, hlines, hshort, hlast⟩
        have hmore : CutLines (readLine s.c.pending).2.1 (between ++ [last]) c'.pending :=
          hpending ▸ hlines
        obtain ⟨line, hcut⟩ := exists_cutLine_of_more hmore (by simp)
        simp only [lineText, hcut] at hnumber
        exact ⟨c', line, between ++ [last], length, hend, .cons hcut hmore, .inr ⟨hnumber,
          List.forall_mem_cons.mpr ⟨(lineFits_of_cut hcut).mp hfits, hshort⟩,
          between, last, rfl, hlast⟩⟩

variable {stream buf : List UInt8} {outcomes : ℕ → Option ℕ} {contentLength : ℤ}

/-- A first line of more or less than one character is looked at for the response code. -/
theorem headerLoop_first (h : Reliable outcomes) (hresult : lineResult stream ≠ 1)
    (hfits : LineFits requestSize stream buf) (contentLength : ℤ) :
    ∃ next, next.c.pending = (readLine stream).2.1 ∧ Reliable next.c.outcomes ∧ next.count = 1 ∧
      ∀ fuel, headerLoop (fuel + 1) ⟨.fresh stream outcomes, buf, 0, contentLength⟩ =
        match numberBehind (lineText stream buf) 32 with
        | none => some (.exit .undefined)
        | some responseCode =>
          if responseCode = 400 then some (.exit .badRequest)
          else if responseCode = 404 then some (.exit .notFound)
          else headerLoop fuel next := by
  obtain ⟨c, memory, hpending, houtcomes, hround⟩ :=
    headerRound_eq (s := ⟨.fresh stream outcomes, buf, 0, contentLength⟩) h hfits
  have hfirst : (Incoming.fresh stream outcomes).pending = stream := rfl
  rw [hfirst, if_neg hresult, if_pos rfl] at hround
  refine ⟨⟨c, memory, 1, contentLength⟩, hpending, houtcomes ▸ h, rfl, fun fuel => ?_⟩
  rw [headerLoop, hround]
  dsimp only
  cases numberBehind (lineText stream buf) 32 with
  | none => rfl
  | some responseCode =>
    dsimp only
    split_ifs <;> rfl

/-- Where the first line has one character the body begins without a length. -/
theorem not_acceptable_of_first (h : Reliable outcomes) (hresult : lineResult stream = 1)
    (hfits : LineFits requestSize stream buf)
    (hloop : headerLoop fuel ⟨.fresh stream outcomes, buf, 0, contentLength⟩ = some result) :
    ¬ Acceptable stream result := by
  cases fuel with
  | zero => exact nomatch hloop
  | succ fuel =>
    obtain ⟨c, memory, hpending, -, hround⟩ :=
      headerRound_eq (s := ⟨.fresh stream outcomes, buf, 0, contentLength⟩) h hfits
    have hone : lineResult (Incoming.fresh stream outcomes).pending = 1 := hresult
    rw [if_pos hone] at hround
    obtain rfl := Option.some.inj ((headerLoop_of_end hround).symm.trans hloop)
    rintro ⟨status, line, others, hlines, -⟩
    obtain ⟨first, hfirst, -⟩ := cut_of_lineResult hresult
    obtain ⟨rest, hcut, hmore⟩ := cutLines_cons_iff.mp hlines
    obtain ⟨-, rfl⟩ := Prod.mk.inj (Option.some.inj (hfirst.symm.trans hcut))
    -- all that stands behind the first line is still to come
    rw [show c.pending = (readLine stream).2.1 from hpending] at hmore
    exact nomatch hmore.eq_nil

/-- A loop that ends as it is to has been refused or has read a length. -/
theorem refused_or_announced (h : Reliable outcomes)
    (hloop : headerLoop fuel ⟨.fresh stream outcomes, buf, 0, contentLength⟩ = some result)
    (hacc : Acceptable stream result) : Refused stream buf ∨ Announced stream := by
  have hdefined : result ≠ .exit .undefined := by
    rintro rfl
    exact hacc rfl
  have hfits : LineFits requestSize stream buf :=
    (lineFits_of_headerLoop h hloop).resolve_left hdefined
  have hresult : lineResult stream ≠ 1 :=
    fun heq => not_acceptable_of_first h heq hfits hloop hacc
  obtain ⟨next, hpending, houtcomes, hcount, hfirst⟩ :=
    headerLoop_first h hresult hfits contentLength
  cases fuel with
  | zero => exact nomatch hloop
  | succ fuel =>
    rw [hfirst] at hloop
    cases hcode : numberBehind (lineText stream buf) 32 with
    | none =>
      rw [hcode] at hloop
      obtain rfl := Option.some.inj hloop
      exact absurd rfl hacc
    | some responseCode =>
      rw [hcode] at hloop
      dsimp only at hloop
      split_ifs at hloop with hbad hmissing
      · exact .inl ⟨hfits, .inl (hbad ▸ hcode)⟩
      · exact .inl ⟨hfits, .inr (hmissing ▸ hcode)⟩
      · right
        rcases cutLines_of_second houtcomes hcount hloop with
          rfl | ⟨c, line, others, length, rfl, hlines, hends⟩
        · exact absurd rfl hacc
        · obtain ⟨status, second, others', hstream, hannounces⟩ := hacc
          obtain ⟨rest, hcut, hmore⟩ := cutLines_cons_iff.mp hstream
          simp only [lineText, lineResult, hcut] at hcode hresult
          simp only [readLine, hcut] at hpending
          rw [hpending] at hlines
          obtain ⟨behind, hsecond, -⟩ := cutLines_cons_iff.mp hmore
          obtain ⟨behind', hline, -⟩ := cutLines_cons_iff.mp hlines
          obtain ⟨rfl, -⟩ := Prod.mk.inj (Option.some.inj (hline.symm.trans hsecond))
          rcases hends with hone | ⟨-, hshort, between, last, rfl, hlast⟩
          · exact absurd hone (strlen_ne_of_announces hannounces)
          · exact ⟨status, line, between, last, c.pending, length, .cons hcut hlines,
              List.forall_mem_cons.mpr ⟨(lineFits_of_cut hcut).mp hfits, hshort⟩, hresult,
              mem_of_numberBehind hcode, hannounces, hlast⟩

/-- A refused client gives up after the first line. -/
theorem headerRobust_of_refused (h : Reliable outcomes) (hrefused : Refused stream buf) :
    HeaderRobust stream outcomes buf contentLength := by
  obtain ⟨hfits, hcode⟩ := hrefused
  have hresult : lineResult stream ≠ 1 := by
    intro hone
    obtain ⟨line, hcut, hline⟩ := cut_of_lineResult hone
    simp only [lineText, hcut] at hcode
    rcases hcode with hbad | hmissing
    · exact absurd (numberBehind_of_length_one hline hbad) (by decide)
    · exact absurd (numberBehind_of_length_one hline hmissing) (by decide)
  obtain ⟨next, -, -, -, hfirst⟩ := headerLoop_first h hresult hfits contentLength
  rcases hcode with hbad | hmissing
  · exact ⟨1, .exit .badRequest, by rw [hfirst, hbad]; rfl, ClientEnd.noConfusion⟩
  · exact ⟨1, .exit .notFound, by rw [hfirst, hmissing]; rfl, ClientEnd.noConfusion⟩

/-- A header that gives the length ends with it, unless the client is refused. -/
theorem headerRobust_of_announced (h : Reliable outcomes) (hannounced : Announced stream) :
    HeaderRobust stream outcomes buf contentLength := by
  obtain ⟨status, line, between, last, rest, length, hlines, hshort, hstatus, hblank, hannounces,
    hlast⟩ := hannounced
  obtain ⟨hshort₁, hshort₂, hshort⟩ := List.forall_mem_cons.mp hshort |>.imp_right
    List.forall_mem_cons.mp
  obtain ⟨rest₁, hcut₁, hlines₁⟩ := cutLines_cons_iff.mp hlines
  obtain ⟨rest₂, hcut₂, hlines₂⟩ := cutLines_cons_iff.mp hlines₁
  have hresult : lineResult stream ≠ 1 := by simpa only [lineResult, hcut₁] using hstatus
  have hcode : numberBehind (lineText stream buf) 32 =
      some (atoiInt ((cString status).dropWhile (· ≠ 32)).tail) := by
    simp only [lineText, hcut₁, numberBehind, if_pos hblank]
  have hfits : LineFits requestSize stream buf := (lineFits_of_cut hcut₁).mpr hshort₁
  obtain ⟨next, hpending, houtcomes, hcount, hfirst⟩ :=
    headerLoop_first h hresult hfits contentLength
  simp only [readLine, hcut₁] at hpending
  by_cases hrefused : Refused stream buf
  · exact headerRobust_of_refused h hrefused
  · rw [Refused, and_iff_right hfits, hcode, not_or] at hrefused
    have hsecond : numberBehind (lineText next.c.pending next.buf) 58 = some length := by
      simpa only [lineText, hpending, hcut₂] using numberBehind_of_announces hannounces
    have hlong : lineResult next.c.pending ≠ 1 := by
      simpa only [lineResult, hpending, hcut₂] using strlen_ne_of_announces hannounces
    have hcut₂' : cutLine next.c.pending = some (line, rest₂) := hpending.symm ▸ hcut₂
    obtain ⟨c, memory, hpending₂, houtcomes₂, hround⟩ :=
      headerRound_eq houtcomes ((lineFits_of_cut hcut₂').mpr hshort₂)
    rw [if_neg hlong, if_neg (by omega), if_pos hcount, hsecond] at hround
    simp only [hpending, readLine, hcut₂] at hpending₂
    obtain ⟨fuel, c', lines, hloop, hrun⟩ := headerLoop_of_cutLines
      (s := ⟨c, memory, 2, length⟩) (houtcomes₂ ▸ houtcomes) le_rfl (hpending₂ ▸ hlines₂) hshort
      hlast
    refine ⟨fuel + 2, .body c' length, ?_, status, line, lines,
      .cons hcut₁ (.cons hcut₂ (hpending₂ ▸ hrun)), hannounces⟩
    rw [hfirst, hcode]
    dsimp only
    rw [if_neg fun heq => hrefused.1 (congrArg some heq),
      if_neg fun heq => hrefused.2 (congrArg some heq), headerLoop_of_round hround, hloop]

/-- The loop ends as it is to on exactly these streams: the first line holds a code at which the
client gives up, or the second gives the length and a line of one character comes behind it. -/
theorem headerRobust_iff (h : Reliable outcomes) (stream buf : List UInt8) (contentLength : ℤ) :
    HeaderRobust stream outcomes buf contentLength ↔ Refused stream buf ∨ Announced stream := by
  constructor
  · rintro ⟨fuel, result, hloop, hacc⟩
    exact refused_or_announced h hloop hacc
  · rintro (hrefused | hannounced)
    · exact headerRobust_of_refused h hrefused
    · exact headerRobust_of_announced h hannounced

/-- The response when a page cannot be found, one byte at a time. -/
theorem headerRobust_iff_notFound :
    HeaderRobust (bytes "HTTP 404 Not Found\r\n\n\r\n") (fun _ => some 1) [] 0 ↔
      Refused (bytes "HTTP 404 Not Found\r\n\n\r\n") [] ∨
        Announced (bytes "HTTP 404 Not Found\r\n\n\r\n") :=
  @headerRobust_iff (fun _ => some 1) (fun _ => rfl) _ [] 0

/-- A header that breaks off behind the length keeps the client in the loop for ever. -/
theorem headerRobust_truncated :
    ¬ ∀ (stream : List UInt8) (outcomes : ℕ → Option ℕ) (buf : List UInt8) (contentLength : ℤ),
      Reliable outcomes → HeaderRobust stream outcomes buf contentLength := by
  intro h
  obtain ⟨fuel, result, hloop, hacc⟩ := h (bytes "HTTP 200 OK\r\nContent-Length:5\r\n")
    (fun _ => some 1) (bytes "GET a\r\n") 0 fun _ => rfl
  rcases refused_or_announced (fun _ => rfl) hloop hacc with
    hrefused | ⟨status, line, between, last, rest, length, hlines, -⟩
  · exact absurd hrefused.2 (by decide)
  · obtain ⟨rest₁, hcut₁, hlines₁⟩ := cutLines_cons_iff.mp hlines
    obtain ⟨rest₂, hcut₂, hlines₂⟩ := cutLines_cons_iff.mp hlines₁
    have hstatus : cutLine (bytes "HTTP 200 OK\r\nContent-Length:5\r\n") =
        some (bytes "HTTP 200 OK", bytes "Content-Length:5\r\n") := by decide
    have hlength : cutLine (bytes "Content-Length:5\r\n") =
        some (bytes "Content-Length:5", []) := by decide
    obtain ⟨-, rfl⟩ := Prod.mk.inj (Option.some.inj (hstatus.symm.trans hcut₁))
    obtain ⟨-, rfl⟩ := Prod.mk.inj (Option.some.inj (hlength.symm.trans hcut₂))
    simpa using hlines₂.eq_nil_of_nil

end Comnet.ClientServer
