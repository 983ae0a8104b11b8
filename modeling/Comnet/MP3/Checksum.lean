/-
# The checksum

`checksum` reads a line of numbers, adds them up as 16-bit words and prints the one's
complement of the sum. The carries are added back in once, and a carry out of that
addition is dropped with the high half.
-/

import Comnet.Foundations.CString
import Comnet.Foundations.Decimal
import Comnet.Foundations.OnesComplement
import Mathlib.Algebra.Order.BigOperators.Group.List

set_option autoImplicit false

namespace Comnet.MP3

open Foundations

/-- The loop of `split`, with what has been read of the current item. A delimiter ends an
item, and so does the end of the text unless nothing was read. -/
def splitLoop (delim : UInt8) : List UInt8 → List UInt8 → List (List UInt8)
  | item, [] => if item = [] then [] else [item]
  | item, byte :: rest =>
    if byte = delim then item :: splitLoop delim [] rest
    else splitLoop delim (item ++ [byte]) rest

def split (s : List UInt8) (delim : UInt8) : List (List UInt8) := splitLoop delim [] s

/-- The first line of the input. -/
def getline (input : List UInt8) : List UInt8 := input.takeWhile (· ≠ 10)

/-- The value of an item: `atoi` of its string, as an `unsigned short`. -/
def itemValue (item : List UInt8) : UInt16 := UInt16.ofInt (atoiInt (cString item))

/-- The sum of the items, an `unsigned long`. -/
def sumItems (items : List (List UInt8)) : UInt64 :=
  items.foldl (fun sum item => sum + (itemValue item).toUInt64) 0

/-- The carries are added in. -/
def addCarries (sum : UInt64) : UInt64 := (sum &&& (0xffff : UInt64)) + (sum >>> (16 : UInt64))

/-- The checksum of the input. -/
def checksum (input : List UInt8) : UInt16 :=
  (~~~ addCarries (sumItems (split (getline input) 32))).toUInt16

/-- What the program prints. -/
def main (input : List UInt8) : String :=
  "Enter numbers\nChecksum as integer: " ++ toString (checksum input).toNat ++ "\n"

/-- A number in decimal that is one of a 16-bit word. -/
structure IsWord (token : List UInt8) : Prop where
  nonempty : token ≠ []
  digits : ∀ byte ∈ token, isDigit byte = true
  le : digitsValue token ≤ 65535

instance (token : List UInt8) : Decidable (IsWord token) :=
  decidable_of_iff
    (token ≠ [] ∧ token.all isDigit = true ∧ digitsValue token ≤ 65535)
    ⟨fun h => ⟨h.1, List.all_eq_true.mp h.2.1, h.2.2⟩,
      fun h => ⟨h.nonempty, List.all_eq_true.mpr h.digits, h.le⟩⟩

/-- A line of tokens with spaces around them, at least one between any two. -/
inductive Spaced : List (List UInt8) → List UInt8 → Prop
  | nil : Spaced [] []
  | last (token : List UInt8) : Spaced [token] token
  | space {tokens line} : Spaced tokens line → Spaced tokens (32 :: line)
  | cons (token : List UInt8) {tokens line} :
    Spaced tokens line → Spaced (token :: tokens) (token ++ 32 :: line)

variable {delim : UInt8} {item token rest line input : List UInt8}
  {items tokens : List (List UInt8)}

/-! ## Reading the line -/

theorem splitLoop_append (h : delim ∉ token) :
    splitLoop delim item (token ++ rest) = splitLoop delim (item ++ token) rest := by
  induction token generalizing item with
  | nil => simp
  | cons byte token ih =>
    have hbyte : byte ≠ delim := fun heq => h (heq ▸ List.mem_cons_self)
    rw [List.cons_append, splitLoop, if_neg hbyte, ih fun hmem => h (List.mem_cons_of_mem _ hmem),
      List.append_assoc, List.singleton_append]

theorem split_append (h : delim ∉ token) :
    split (token ++ delim :: rest) delim = token :: split rest delim := by
  rw [split, splitLoop_append h, splitLoop, if_pos rfl, List.nil_append, split]

theorem split_last (h : delim ∉ token) (ne : token ≠ []) : split token delim = [token] := by
  have hlast : splitLoop delim [] (token ++ []) = splitLoop delim ([] ++ token) [] :=
    splitLoop_append h
  rw [List.append_nil, List.nil_append] at hlast
  rw [split, hlast, splitLoop, if_neg ne]

theorem IsWord.not_mem {byte : UInt8} (h : IsWord token) (other : isDigit byte = false) :
    byte ∉ token := by
  intro hmem
  rw [h.digits byte hmem] at other
  cases other

/-- The value of a token is the number it names. -/
theorem IsWord.itemValue_eq (h : IsWord token) : (itemValue token).toNat = digitsValue token := by
  have hstring : cString token = token := cString_eq_self (h.not_mem rfl)
  have hle := h.le
  have hatoi : atoiInt token = digitsValue token :=
    atoiInt_digits h.digits h.nonempty (by omega)
  rw [itemValue, hstring, hatoi, UInt16.ofInt, UInt16.toNat_ofNat']
  omega

/-- Between repeated spaces stand empty items, which count for nothing. -/
theorem sum_split (h : Spaced tokens line) (words : ∀ token ∈ tokens, IsWord token) :
    ((split line 32).map fun item => (itemValue item).toNat).sum =
      (tokens.map digitsValue).sum := by
  induction h with
  | nil => rfl
  | last token =>
    have hword := words token List.mem_cons_self
    rw [split_last (hword.not_mem rfl) hword.nonempty]
    simp [hword.itemValue_eq]
  | @space tokens line _ ih =>
    have hempty : split (32 :: line) 32 = [] :: split line 32 := split_append List.not_mem_nil
    rw [hempty, List.map_cons, List.sum_cons, ih words]
    exact Nat.zero_add _
  | @cons token tokens line _ ih =>
    have hword := words token List.mem_cons_self
    have hrest := ih fun other hother => words other (List.mem_cons_of_mem _ hother)
    rw [split_append (hword.not_mem rfl), List.map_cons, List.sum_cons, hword.itemValue_eq, hrest,
      List.map_cons, List.sum_cons]

/-! ## Adding the words up -/

/-- The sum wraps as an `unsigned long` does. -/
theorem toNat_foldl (items : List (List UInt8)) (sum : UInt64) :
    (items.foldl (fun sum item => sum + (itemValue item).toUInt64) sum).toNat =
      (sum.toNat + (items.map fun item => (itemValue item).toNat).sum) % 2 ^ 64 := by
  induction items generalizing sum with
  | nil => exact (Nat.mod_eq_of_lt sum.toNat_lt).symm
  | cons item items ih =>
    rw [List.foldl_cons, ih, UInt64.toNat_add, UInt16.toNat_toUInt64, List.map_cons, List.sum_cons,
      Nat.mod_add_mod, Nat.add_assoc]

/-- Adding the carries in is one end-around carry. -/
theorem toNat_addCarries (sum : UInt64) :
    (addCarries sum).toNat = endAround 65536 sum.toNat := by
  have hlt := sum.toNat_lt
  have hlow : sum.toNat &&& 0xffff = sum.toNat % 65536 := Nat.and_two_pow_sub_one_eq_mod _ 16
  have hhigh : sum.toNat >>> 16 = sum.toNat / 65536 := Nat.shiftRight_eq_div_pow _ _
  rw [addCarries, UInt64.toNat_add, UInt64.toNat_and, UInt64.toNat_shiftRight, endAround]
  change ((sum.toNat &&& 0xffff) + sum.toNat >>> 16) % 2 ^ 64 = _
  rw [hlow, hhigh]
  apply Nat.mod_eq_of_lt
  omega

theorem toNat_checksum (sum : UInt64) :
    (~~~ sum).toUInt16.toNat = 65536 - 1 - sum.toNat % 65536 := by
  have hlt := sum.toNat_lt
  rw [UInt64.toNat_toUInt16, UInt64.toNat_not, show UInt64.size = 2 ^ 64 from rfl]
  omega

/-- The sum of fewer than `2 ^ 47` words does not wrap. -/
theorem toNat_sumItems (hline : Spaced tokens line) (words : ∀ token ∈ tokens, IsWord token)
    (few : tokens.length < 2 ^ 47) :
    (sumItems (split line 32)).toNat = (tokens.map digitsValue).sum := by
  have hle : (tokens.map digitsValue).sum ≤ tokens.length * 65535 := by
    have hcard := List.sum_le_card_nsmul (tokens.map digitsValue) 65535 (by
      intro value hvalue
      obtain ⟨token, htoken, rfl⟩ := List.mem_map.mp hvalue
      exact (words token htoken).le)
    simpa using hcard
  rw [sumItems, toNat_foldl, sum_split hline words]
  change (0 + _) % 2 ^ 64 = _
  omega

/-- With the words added up and one carry taken, the program prints the complement of the one's
complement sum exactly when the carry leaves a word, or a word too large by a multiple of all ones.
What it prints makes all ones of the words up to the second name of zero. -/
theorem checksum_iff (words : ∀ token ∈ tokens, IsWord token)
    (hline : Spaced tokens (getline input)) (few : tokens.length < 2 ^ 47) :
    ((checksum input).toNat = 65535 - foldCarries 65536 (tokens.map digitsValue).sum ↔
      endAround 65536 (tokens.map digitsValue).sum < 65536 ∨
        0 < endAround 65536 (tokens.map digitsValue).sum % 65536 ∧
          65535 ∣ endAround 65536 (tokens.map digitsValue).sum / 65536) ∧
    (foldCarries 65536 ((tokens.map digitsValue).sum + (checksum input).toNat) = 65535 ↔
      65535 ∣ endAround 65536 (tokens.map digitsValue).sum / 65536) := by
  have hprinted : (checksum input).toNat =
      65536 - 1 - endAround 65536 (tokens.map digitsValue).sum % 65536 := by
    rw [checksum, toNat_checksum, toNat_addCarries, toNat_sumItems hline words few]
  have hbase : 1 < 65536 := by norm_num
  rw [hprinted]
  refine ⟨?_, foldCarries_add_complement_iff hbase⟩
  rw [← mod_endAround_eq_iff hbase]
  have hlt := (foldCarries_spec hbase (tokens.map digitsValue).sum).1
  have hlt' : endAround 65536 (tokens.map digitsValue).sum % 65536 < 65536 :=
    Nat.mod_lt _ (by norm_num)
  omega

/-- The line `1  2`. -/
theorem checksum_iff_three :
    ((checksum [49, 32, 32, 50, 10]).toNat = 65535 - foldCarries 65536 3 ↔
      endAround 65536 3 < 65536 ∨
        0 < endAround 65536 3 % 65536 ∧ 65535 ∣ endAround 65536 3 / 65536) ∧
    (foldCarries 65536 (3 + (checksum [49, 32, 32, 50, 10]).toNat) = 65535 ↔
      65535 ∣ endAround 65536 3 / 65536) :=
  @checksum_iff [49, 32, 32, 50, 10] [[49], [50]] (by decide) (.cons [49] (.space (.last [50])))
    (by norm_num)

/-- The line `65535 65535 1`: the carry carries again, and the second carry is dropped. -/
theorem checksum_drops_carry :
    ¬ ∀ (tokens : List (List UInt8)) (input : List UInt8), (∀ token ∈ tokens, IsWord token) →
      Spaced tokens (getline input) → tokens.length < 2 ^ 47 →
        (checksum input).toNat = 65535 - foldCarries 65536 (tokens.map digitsValue).sum ∧
          foldCarries 65536 ((tokens.map digitsValue).sum + (checksum input).toNat) = 65535 := by
  intro h
  obtain ⟨hcomplement, -⟩ := h [[54, 53, 53, 51, 53], [54, 53, 53, 51, 53], [49]]
    [54, 53, 53, 51, 53, 32, 54, 53, 53, 51, 53, 32, 49, 10] (by decide)
    (.cons _ (.cons _ (.last _))) (by norm_num)
  have hsum : foldCarries 65536 131071 = 1 := by
    rw [foldCarries_of_le (by norm_num) (by norm_num), foldCarries_of_le (by norm_num) (by decide),
      foldCarries_of_lt (by decide)]
    rfl
  have hprinted : checksum [54, 53, 53, 51, 53, 32, 54, 53, 53, 51, 53, 32, 49, 10] = 65535 := by
    decide
  rw [hprinted, show ([[54, 53, 53, 51, 53], [54, 53, 53, 51, 53], [49]].map digitsValue).sum =
    131071 by decide, hsum] at hcomplement
  exact absurd hcomplement (by decide)

end Comnet.MP3
