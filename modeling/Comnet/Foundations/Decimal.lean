/-
# Numbers in decimal

Writing a number as digits and reading it back. Reading skips blanks, takes a sign
and then as many digits as there are, up to the end of a string at the latest. What a program
gets is the number cut to an integer of 32 bits.
-/

import Comnet.Foundations.MachineInt
import Mathlib.Data.List.TakeWhile
import Mathlib.Data.Nat.Digits.Lemmas
import Mathlib.Tactic.Linarith

set_option autoImplicit false

namespace Comnet.Foundations

/-- The character of a digit. -/
def digitByte (digit : ℕ) : UInt8 := UInt8.ofNat (48 + digit)

def isDigit (byte : UInt8) : Bool := 48 ≤ byte && byte ≤ 57

def isSpace (byte : UInt8) : Bool := byte == 32 || (9 ≤ byte && byte ≤ 13)

/-- A natural number in decimal. -/
def decimal (value : ℕ) : List UInt8 :=
  if value = 0 then [48] else (Nat.digits 10 value).reverse.map digitByte

/-- An integer in decimal. -/
def toDecimal (value : ℤ) : List UInt8 :=
  if value < 0 then 45 :: decimal value.natAbs else decimal value.natAbs

/-- The value of a list of digits. -/
def digitsValue (digits : List UInt8) : ℕ :=
  digits.foldl (fun value byte => value * 10 + (byte.toNat - 48)) 0

/-- The number at the start of a text. -/
def atoi (text : List UInt8) : ℤ :=
  let text := text.dropWhile isSpace
  -- a minus sign, a plus sign, or neither
  if text.head? = some 45 then -digitsValue (text.tail.takeWhile isDigit)
  else if text.head? = some 43 then digitsValue (text.tail.takeWhile isDigit)
  else digitsValue (text.takeWhile isDigit)

/-- The number at the start of a text, brought into the range of a long integer and stored into
an integer. -/
def atoiInt (text : List UInt8) : ℤ := narrow (max (-2 ^ 63) (min (2 ^ 63 - 1) (atoi text)))

variable {value digit : ℕ} {byte : UInt8}

theorem toNat_digitByte (h : digit < 10) : (digitByte digit).toNat = 48 + digit := by
  rw [digitByte, UInt8.toNat_ofNat']
  exact Nat.mod_eq_of_lt (by omega)

theorem isDigit_iff : isDigit byte = true ↔ 48 ≤ byte.toNat ∧ byte.toNat ≤ 57 := by
  rw [isDigit, Bool.and_eq_true, decide_eq_true_eq, decide_eq_true_eq, UInt8.le_iff_toNat_le,
    UInt8.le_iff_toNat_le]
  rfl

theorem isDigit_of_mem_decimal (h : byte ∈ decimal value) : isDigit byte = true := by
  unfold decimal at h
  split_ifs at h
  · rw [List.mem_singleton.mp h]
    decide
  · obtain ⟨digit, hdigit, rfl⟩ := List.mem_map.mp h
    have hlt : digit < 10 := Nat.digits_lt_base (by decide) (List.mem_reverse.mp hdigit)
    rw [isDigit_iff, toNat_digitByte hlt]
    omega

theorem decimal_ne_nil : decimal value ≠ [] := by
  unfold decimal
  split_ifs with hzero
  · simp
  · simp [Nat.digits_eq_nil_iff_eq_zero, hzero]

/-- A number has no more digits than it is bounded by. -/
theorem length_decimal_le {size : ℕ} (h : value < 10 ^ size) (hsize : 0 < size) :
    (decimal value).length ≤ size := by
  unfold decimal
  split_ifs
  · exact hsize
  · rw [List.length_map, List.length_reverse]
    exact (Nat.digits_length_le_iff (by decide) value).mpr h

theorem digitsValue_concat (digits : List UInt8) (byte : UInt8) :
    digitsValue (digits ++ [byte]) = digitsValue digits * 10 + (byte.toNat - 48) := by
  rw [digitsValue, List.foldl_append]
  rfl

/-- Further digits do not make the number smaller. -/
theorem digitsValue_le_append (digits others : List UInt8) :
    digitsValue digits ≤ digitsValue (digits ++ others) := by
  induction others generalizing digits with
  | nil => rw [List.append_nil]
  | cons byte others ih =>
    have hnext := ih (digits ++ [byte])
    rw [digitsValue_concat, List.append_assoc, List.singleton_append] at hnext
    omega

/-- Digits are written with the most significant one first, the reverse of the order
in which they make up the number. -/
theorem digitsValue_map_reverse {digits : List ℕ} (hlt : ∀ digit ∈ digits, digit < 10) :
    digitsValue (digits.reverse.map digitByte) = Nat.ofDigits 10 digits := by
  induction digits with
  | nil => rfl
  | cons digit digits ih =>
    have hrest := ih fun other hother => hlt other (List.mem_cons_of_mem _ hother)
    have hdigit := toNat_digitByte (hlt digit List.mem_cons_self)
    rw [List.reverse_cons, List.map_append, List.map_singleton, digitsValue_concat, hrest, hdigit,
      Nat.ofDigits_cons]
    omega

/-- The digits of a number have its value. -/
theorem digitsValue_decimal (value : ℕ) : digitsValue (decimal value) = value := by
  unfold decimal
  split_ifs with hzero
  · rw [hzero]
    rfl
  · rw [digitsValue_map_reverse fun digit hdigit => Nat.digits_lt_base (by decide) hdigit]
    exact Nat.ofDigits_digits 10 value

/-- A digit is neither a blank nor a sign. -/
theorem not_isSpace_of_isDigit (h : isDigit byte = true) :
    isSpace byte = false ∧ byte ≠ 45 ∧ byte ≠ 43 := by
  have hbound := isDigit_iff.mp h
  have hne : ∀ other : UInt8, other.toNat < 48 → byte ≠ other := by
    intro other hother heq
    rw [heq] at hbound
    omega
  refine ⟨?_, hne 45 (by decide), hne 43 (by decide)⟩
  have hle : ¬ byte ≤ 13 := by
    rw [UInt8.le_iff_toNat_le]
    change ¬ byte.toNat ≤ 13
    omega
  simp [isSpace, hne 32 (by decide), hle]

/-- The text of a number without a sign is read as its digits. -/
theorem atoi_digits {digits : List UInt8} (h : ∀ byte ∈ digits, isDigit byte = true)
    (ne : digits ≠ []) : atoi digits = digitsValue digits := by
  obtain ⟨first, others, rfl⟩ := List.exists_cons_of_ne_nil ne
  obtain ⟨hspace, hminus, hplus⟩ := not_isSpace_of_isDigit (h first List.mem_cons_self)
  have hdrop : (first :: others).dropWhile isSpace = first :: others :=
    List.dropWhile_cons_of_neg (by simp [hspace])
  have htake : (first :: others).takeWhile isDigit = first :: others :=
    List.takeWhile_eq_self_iff.mpr h
  unfold atoi
  rw [hdrop]
  dsimp only
  rw [List.head?_cons, if_neg (by simpa using hminus), if_neg (by simpa using hplus), htake]

/-- Reading a number stops at the end of a string. -/
theorem atoi_append_zero (text behind : List UInt8) : atoi (text ++ 0 :: behind) = atoi text := by
  have hstop : (0 :: behind).takeWhile isDigit = [] := rfl
  have htake : ∀ digits : List UInt8,
      (digits ++ 0 :: behind).takeWhile isDigit = digits.takeWhile isDigit := by
    intro digits
    rw [List.takeWhile_append, hstop, List.append_nil]
    split_ifs with hall
    · exact ((List.takeWhile_prefix isDigit).eq_of_length hall).symm
    · rfl
  have hdrop : (text ++ 0 :: behind).dropWhile isSpace = text.dropWhile isSpace ++ 0 :: behind := by
    rw [List.dropWhile_append]
    split_ifs with hnil
    · rw [List.isEmpty_iff.mp hnil]
      rfl
    · rfl
  unfold atoi
  rw [hdrop]
  cases text.dropWhile isSpace with
  | nil => rfl
  | cons first others =>
    have hwhole := htake (first :: others)
    simp only [List.cons_append] at hwhole
    simp only [List.cons_append, List.head?_cons, List.tail_cons, htake, hwhole]
    rfl

/-! ## Integers of 32 bits -/

theorem atoiInt_append_zero (text behind : List UInt8) :
    atoiInt (text ++ 0 :: behind) = atoiInt text := by
  rw [atoiInt, atoi_append_zero, atoiInt]

/-- The number of digits is read as it is if an integer can hold it. -/
theorem atoiInt_digits {digits : List UInt8} (h : ∀ byte ∈ digits, isDigit byte = true)
    (ne : digits ≠ []) (bound : digitsValue digits < 2 ^ 31) :
    atoiInt digits = digitsValue digits := by
  rw [atoiInt, atoi_digits h ne, min_eq_right (by omega), max_eq_right (by omega)]
  exact narrow_of_mem (by omega) (by omega)

/-- A written number is read back if an integer can hold it. -/
theorem atoiInt_decimal (bound : value < 2 ^ 31) : atoiInt (decimal value) = value := by
  rw [atoiInt_digits (fun _ => isDigit_of_mem_decimal) decimal_ne_nil
    (by rwa [digitsValue_decimal]), digitsValue_decimal]

end Comnet.Foundations
