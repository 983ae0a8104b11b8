/-
# Lines cut off a stream

A line ends with a carriage return and a line feed. The reader here takes a carriage
return and the byte behind it as a pair: where the pair is not the end of a line, the
second byte is passed over, be it a carriage return itself. So what counts as a line
that holds no end of a line is told pair by pair too.
-/

import Mathlib.Algebra.Group.Nat.Even
import Mathlib.Data.List.Basic

set_option autoImplicit false

namespace Comnet.Foundations

/-- The first line of a stream and what comes behind its end. -/
def cutLine : List UInt8 → Option (List UInt8 × List UInt8)
  | [] => none
  | [_] => none
  | first :: second :: rest =>
    if first = 13 then
      if second = 10 then some ([], rest)
      else (cutLine rest).map fun cut => (first :: second :: cut.1, cut.2)
    else (cutLine (second :: rest)).map fun cut => (first :: cut.1, cut.2)

/-- What reading a line takes off a stream, what it leaves and whether the line ended: all
of a stream without an end of a line is taken. -/
def readLine (stream : List UInt8) : List UInt8 × List UInt8 × Bool :=
  match cutLine stream with
  | some (line, rest) => (line ++ [13, 10], rest, true)
  | none => (stream, [], false)

/-- No pair in the line ends it, and its last byte does not make a pair with its end. -/
def NoLineEnd : List UInt8 → Prop
  | [] => True
  | [byte] => byte ≠ 13
  | first :: second :: rest =>
    if first = 13 then second ≠ 10 ∧ NoLineEnd rest else NoLineEnd (second :: rest)

instance decidableNoLineEnd : DecidablePred NoLineEnd
  | [] => isTrue trivial
  | [byte] => inferInstanceAs (Decidable (byte ≠ 13))
  | first :: second :: rest =>
    haveI : Decidable (NoLineEnd rest) := decidableNoLineEnd rest
    haveI : Decidable (NoLineEnd (second :: rest)) := decidableNoLineEnd (second :: rest)
    inferInstanceAs (Decidable (if first = 13 then second ≠ 10 ∧ NoLineEnd rest
      else NoLineEnd (second :: rest)))

/-- The lines that are cut off a stream one after another, and what comes behind the last. -/
inductive CutLines : List UInt8 → List (List UInt8) → List UInt8 → Prop
  | nil {stream : List UInt8} : CutLines stream [] stream
  | cons {stream line rest behind : List UInt8} {lines : List (List UInt8)}
      (cut : cutLine stream = some (line, rest)) (more : CutLines rest lines behind) :
      CutLines stream (line :: lines) behind

variable {stream line rest : List UInt8} {byte : UInt8}

theorem cutLine_cons (h : byte ≠ 13) :
    cutLine (byte :: stream) = (cutLine stream).map fun cut => (byte :: cut.1, cut.2) := by
  cases stream with
  | nil => rfl
  | cons second rest => rw [cutLine, if_neg h]

/-- A carriage return that ends no line passes over the byte behind it. -/
theorem cutLine_pair (h : byte ≠ 10) : cutLine (13 :: byte :: stream) =
    (cutLine stream).map fun cut => (13 :: byte :: cut.1, cut.2) := by
  rw [cutLine, if_pos rfl, if_neg h]

theorem readLine_cons (h : byte ≠ 13) : readLine (byte :: stream) =
    (byte :: (readLine stream).1, (readLine stream).2) := by
  unfold readLine
  rw [cutLine_cons h]
  cases cutLine stream <;> rfl

theorem readLine_pair (h : byte ≠ 10) : readLine (13 :: byte :: stream) =
    (13 :: byte :: (readLine stream).1, (readLine stream).2) := by
  unfold readLine
  rw [cutLine_pair h]
  cases cutLine stream <;> rfl

theorem noLineEnd_cons (h : byte ≠ 13) : NoLineEnd (byte :: line) ↔ NoLineEnd line := by
  cases line with
  | nil => exact iff_of_true h trivial
  | cons second rest => rw [NoLineEnd, if_neg h]

theorem cutLine_append_front {front : List UInt8} (h : (13 : UInt8) ∉ front) :
    cutLine (front ++ stream) = (cutLine stream).map fun cut => (front ++ cut.1, cut.2) := by
  induction front with
  | nil => simp
  | cons byte front ih =>
    have hbyte : byte ≠ 13 := fun heq => h (heq ▸ List.mem_cons_self)
    rw [List.cons_append, cutLine_cons hbyte, ih fun hmem => h (List.mem_cons_of_mem _ hmem),
      Option.map_map]
    rfl

/-- Bytes that are no carriage return in front of a line say nothing about it. -/
theorem noLineEnd_append {front : List UInt8} (h : (13 : UInt8) ∉ front) :
    NoLineEnd (front ++ line) ↔ NoLineEnd line := by
  induction front with
  | nil => rfl
  | cons byte front ih =>
    have hbyte : byte ≠ 13 := fun heq => h (heq ▸ List.mem_cons_self)
    rw [List.cons_append, noLineEnd_cons hbyte, ih fun hmem => h (List.mem_cons_of_mem _ hmem)]

theorem noLineEnd_of_not_mem (h : (13 : UInt8) ∉ line) : NoLineEnd line := by
  have happend := @noLineEnd_append [] line h
  rw [List.append_nil] at happend
  exact happend.mpr trivial

/-- What is cut off is the stream up to the end of the line. -/
theorem cutLine_append (h : cutLine stream = some (line, rest)) :
    line ++ [13, 10] ++ rest = stream := by
  induction stream using cutLine.induct generalizing line with
  | case1 => exact nomatch h
  | case2 => exact nomatch h
  | case3 tail =>
    rw [cutLine, if_pos rfl, if_pos rfl] at h
    obtain ⟨rfl, rfl⟩ := Prod.mk.inj (Option.some.inj h)
    rfl
  | case4 second tail hsecond ih =>
    rw [cutLine_pair hsecond] at h
    obtain ⟨cut, hcut, heq⟩ := Option.map_eq_some_iff.mp h
    obtain ⟨rfl, rfl⟩ := Prod.mk.inj heq
    rw [← ih hcut]
    rfl
  | case5 first second tail hfirst ih =>
    rw [cutLine_cons hfirst] at h
    obtain ⟨cut, hcut, heq⟩ := Option.map_eq_some_iff.mp h
    obtain ⟨rfl, rfl⟩ := Prod.mk.inj heq
    rw [← ih hcut]
    rfl

/-- Every line that is cut off takes at least the two bytes of its end along. -/
theorem CutLines.length_le {lines : List (List UInt8)} (h : CutLines stream lines rest) :
    rest.length + 2 * lines.length ≤ stream.length := by
  induction h with
  | nil => exact le_rfl
  | cons cut more ih =>
    have hlength := congrArg List.length (cutLine_append cut)
    simp only [List.length_append, List.length_cons, List.length_nil] at hlength ⊢
    omega

/-- A stream of which nothing is gone has had no line cut off. -/
theorem CutLines.eq_nil {lines : List (List UInt8)} (h : CutLines stream lines stream) :
    lines = [] := by
  have hle := h.length_le
  exact List.length_eq_zero_iff.mp (by omega)

theorem CutLines.eq_nil_of_nil {lines : List (List UInt8)} (h : CutLines [] lines rest) :
    lines = [] := by
  cases h with
  | nil => rfl
  | cons cut more => exact nomatch cut

/-- Where lines come behind what has been read, a line has been read. -/
theorem exists_cutLine_of_more {lines : List (List UInt8)}
    (h : CutLines (readLine stream).2.1 lines rest) (hne : lines ≠ []) :
    ∃ line, cutLine stream = some (line, (readLine stream).2.1) := by
  cases hcut : cutLine stream with
  | none =>
    simp only [readLine, hcut] at h
    exact absurd h.eq_nil_of_nil hne
  | some cut => exact ⟨cut.1, by simp only [readLine, hcut]⟩

/-- The first of the lines is the one that is cut off first. -/
theorem cutLines_cons_iff {behind : List UInt8} {lines : List (List UInt8)} :
    CutLines stream (line :: lines) behind ↔
      ∃ rest, cutLine stream = some (line, rest) ∧ CutLines rest lines behind := by
  constructor
  · intro h
    cases h with
    | cons cut more => exact ⟨_, cut, more⟩
  · rintro ⟨rest, cut, more⟩
    exact .cons cut more

theorem map_append_iff (front : List UInt8) {cut : Option (List UInt8 × List UInt8)} :
    (cut.map fun cut => (front ++ cut.1, cut.2)) = some (front ++ line, rest) ↔
      cut = some (line, rest) := by
  cases cut with
  | none => simp
  | some cut => simp [Prod.ext_iff]

/-- A line is read back from what it begins exactly when it holds no end of a line. -/
theorem cutLine_line_iff : cutLine (line ++ [13, 10] ++ rest) = some (line, rest) ↔
    NoLineEnd line := by
  induction line using NoLineEnd.induct with
  | case1 => exact iff_of_true rfl trivial
  | case2 byte =>
    by_cases hbyte : byte = 13
    · rw [hbyte]
      refine iff_of_false (fun h => ?_) (fun h => h rfl)
      obtain ⟨cut, -, heq⟩ := Option.map_eq_some_iff.mp h
      simp at heq
    · exact iff_of_true (cutLine_cons hbyte) hbyte
  | case3 second tail ih =>
    by_cases hsecond : second = 10
    · rw [hsecond]
      refine iff_of_false (fun h => ?_) (fun h => h.1 rfl)
      simp [cutLine] at h
    · have hcut : cutLine (13 :: second :: tail ++ [13, 10] ++ rest) =
          (cutLine (tail ++ [13, 10] ++ rest)).map fun cut => ([13, second] ++ cut.1, cut.2) :=
        cutLine_pair hsecond
      rw [hcut, NoLineEnd, if_pos rfl, and_iff_right hsecond, ← ih]
      exact map_append_iff [13, second]
  | case4 first second tail hfirst ih =>
    have hcut : cutLine (first :: second :: tail ++ [13, 10] ++ rest) =
        (cutLine (second :: tail ++ [13, 10] ++ rest)).map fun cut => ([first] ++ cut.1, cut.2) :=
      cutLine_cons hfirst
    rw [hcut, noLineEnd_cons hfirst, ← ih]
    exact map_append_iff [first]

/-- What comes behind a line that ends does not change the line. -/
theorem cutLine_append_right (h : cutLine stream = some (line, rest)) (more : List UInt8) :
    cutLine (stream ++ more) = some (line, rest ++ more) := by
  have hsplit := cutLine_append h
  have hline : NoLineEnd line := by
    rw [← hsplit] at h
    exact cutLine_line_iff.mp h
  rw [← hsplit, List.append_assoc]
  exact cutLine_line_iff.mpr hline

theorem CutLines.append_right {lines : List (List UInt8)} (h : CutLines stream lines rest)
    (more : List UInt8) : CutLines (stream ++ more) lines (rest ++ more) := by
  induction h with
  | nil => exact .nil
  | cons cut _ ih => exact .cons (cutLine_append_right cut more) ih

/-! ## The first end of a line

A stream splits at the first carriage return that has a line feed behind it. The reader that
goes by pairs finds that place unless it takes the carriage return for the second of a pair,
which depends on how many of them stand in a row. -/

/-- What stands before and behind the first carriage return with a line feed behind it. -/
def firstLine : List UInt8 → Option (List UInt8 × List UInt8)
  | [] => none
  | [_] => none
  | first :: second :: rest =>
    if first = 13 ∧ second = 10 then some ([], rest)
    else (firstLine (second :: rest)).map fun cut => (first :: cut.1, cut.2)

/-- The number of carriage returns at the end of a line. -/
def trailingReturns (line : List UInt8) : ℕ := (line.reverse.takeWhile (· = 13)).length

/-- What holds of the line that ends at once, and with a byte in front of any other, holds of the
first line. -/
theorem firstLine_rule {P : List UInt8 → List UInt8 → Prop} (ends : P (13 :: 10 :: rest) [])
    (goesOn : ∀ first stream line, ¬ [13, 10] <+: first :: stream →
      firstLine stream = some (line, rest) → P stream line → P (first :: stream) (first :: line))
    (h : firstLine stream = some (line, rest)) : P stream line := by
  induction stream using firstLine.induct generalizing line with
  | case1 => exact nomatch h
  | case2 => exact nomatch h
  | case3 first second tail hend =>
    rw [firstLine, if_pos hend] at h
    obtain ⟨rfl, rfl⟩ := Prod.mk.inj (Option.some.inj h)
    rw [hend.1, hend.2]
    exact ends
  | case4 first second tail hend ih =>
    rw [firstLine, if_neg hend] at h
    obtain ⟨cut, hcut, heq⟩ := Option.map_eq_some_iff.mp h
    obtain ⟨rfl, rfl⟩ := Prod.mk.inj heq
    refine goesOn first (second :: tail) cut.1 (fun hbegins => hend ?_) hcut (ih hcut)
    rw [List.cons_prefix_cons, List.cons_prefix_cons] at hbegins
    exact ⟨hbegins.1.symm, hbegins.2.1.symm⟩

theorem firstLine_append (h : firstLine stream = some (line, rest)) :
    line ++ [13, 10] ++ rest = stream := by
  refine firstLine_rule (P := fun stream line => line ++ [13, 10] ++ rest = stream) rfl
    (fun first stream line _ _ ih => ?_) h
  rw [← ih]
  rfl

/-- There is no end of a line before the first one. -/
theorem not_infix_of_firstLine (h : firstLine stream = some (line, rest)) :
    ¬ [13, 10] <:+: line := by
  refine firstLine_rule (P := fun _ line => ¬ [13, 10] <:+: line) (by simp)
    (fun first stream line hnot hcut ih => ?_) h
  rw [List.infix_cons_iff, not_or]
  refine ⟨fun hbegins => hnot ?_, ih⟩
  rw [← firstLine_append hcut, List.append_assoc]
  exact hbegins.trans (List.prefix_append (first :: line) _)

theorem firstLine_eq_none_iff : firstLine stream = none ↔ ¬ [13, 10] <:+: stream := by
  induction stream using firstLine.induct with
  | case1 => exact iff_of_true rfl (by simp)
  | case2 byte => exact iff_of_true rfl fun h => absurd h.length_le (by simp)
  | case3 first second tail hend =>
    rw [firstLine, if_pos hend, hend.1, hend.2]
    exact iff_of_false (Option.some_ne_none _) (not_not_intro ⟨[], tail, rfl⟩)
  | case4 first second tail hend ih =>
    have hprefix : ¬ [13, 10] <+: first :: second :: tail := by
      rw [List.cons_prefix_cons, List.cons_prefix_cons]
      exact fun h => hend ⟨h.1.symm, h.2.1.symm⟩
    rw [firstLine, if_neg hend, Option.map_eq_none_iff, ih, List.infix_cons_iff (a := first),
      or_iff_right hprefix]

/-- A line that the reader finds shows that there is a first one. -/
theorem firstLine_isSome_of_cutLine (h : cutLine stream = some (line, rest)) :
    (firstLine stream).isSome := by
  rw [Option.isSome_iff_ne_none, ne_eq, firstLine_eq_none_iff, not_not]
  exact ⟨line, rest, cutLine_append h⟩

/-- Only what stands behind the last byte that is no carriage return counts. -/
theorem trailingReturns_append_cons (front : List UInt8) (h : byte ≠ 13) :
    trailingReturns (front ++ byte :: line) = trailingReturns line := by
  have hbyte : ([byte] ++ front.reverse).takeWhile (· = 13) = [] := by simp [h]
  have hsplit : (front ++ byte :: line).reverse = line.reverse ++ ([byte] ++ front.reverse) := by
    simp
  rw [trailingReturns, hsplit, List.takeWhile_append, hbyte, List.append_nil]
  split_ifs with hall
  · rw [← hall, trailingReturns]
  · rfl

/-- Two carriage returns in front of a line do not change whether their number is even. -/
theorem even_trailingReturns_pair :
    Even (trailingReturns (13 :: 13 :: line)) ↔ Even (trailingReturns line) := by
  have hsplit : (13 :: 13 :: line).reverse = line.reverse ++ [13, 13] := by simp
  have hpair : ([13, 13] : List UInt8).takeWhile (· = 13) = [13, 13] := rfl
  rw [trailingReturns, trailingReturns, hsplit, List.takeWhile_append, hpair]
  split_ifs with hall
  · rw [List.length_append, hall]
    change Even (line.reverse.length + 1 + 1) ↔ _
    rw [Nat.even_add_one, Nat.even_add_one, not_not]
  · rfl

/-- A line with no end of a line in it is one for the reader, too, when the carriage returns at its
end go in pairs. -/
theorem noLineEnd_iff (h : ¬ [13, 10] <:+: line) :
    NoLineEnd line ↔ Even (trailingReturns line) := by
  induction line using NoLineEnd.induct with
  | case1 => exact iff_of_true trivial Even.zero
  | case2 byte =>
    by_cases hbyte : byte = 13
    · rw [hbyte]
      exact iff_of_false (fun hne => hne rfl) (by decide)
    · refine iff_of_true hbyte ?_
      rw [show trailingReturns [byte] = 0 from trailingReturns_append_cons [] hbyte]
      exact Even.zero
  | case3 second tail ih =>
    have hsecond : second ≠ 10 := fun heq => h ⟨[], tail, by rw [heq]; rfl⟩
    have htail : ¬ [13, 10] <:+: tail := fun hinside =>
      h (hinside.trans (List.suffix_append [13, second] tail).isInfix)
    rw [NoLineEnd, if_pos rfl, and_iff_right hsecond, ih htail]
    by_cases hreturn : second = 13
    · rw [hreturn]
      exact even_trailingReturns_pair.symm
    · rw [show trailingReturns (13 :: second :: tail) = trailingReturns tail from
        trailingReturns_append_cons [13] hreturn]
  | case4 first second tail hfirst ih =>
    have htail : ¬ [13, 10] <:+: second :: tail := fun hinside =>
      h (hinside.trans (List.suffix_cons first (second :: tail)).isInfix)
    rw [noLineEnd_cons hfirst, ih htail, show trailingReturns (first :: second :: tail) =
      trailingReturns (second :: tail) from trailingReturns_append_cons [] hfirst]

end Comnet.Foundations
