/-
# Bytes in memory and the strings they hold

Memory from an address on is a list of bytes. The string at an address is what
precedes the first zero byte, so measuring a string reads on past the end of an
array that holds none. Copying a counted block reads exactly its count, zero
standing for memory that the list does not describe.
-/

import Mathlib.Data.List.TakeDrop
import Mathlib.Data.List.TakeWhile

set_option autoImplicit false

namespace Comnet.Foundations

/-- The string at the start of a memory: the bytes before the first zero byte. -/
def cString (memory : List UInt8) : List UInt8 := memory.takeWhile (· ≠ 0)

/-- The length of the string at the start of a memory. -/
def strlen (memory : List UInt8) : ℕ := (cString memory).length

/-- The memory from the first occurrence of a character in a string on. -/
def strchr (memory : List UInt8) (char : UInt8) : Option (List UInt8) :=
  if char ∈ cString memory then some (memory.dropWhile (· ≠ char)) else none

/-- The first `count` bytes of a memory. -/
def bytesAt (memory : List UInt8) (count : ℕ) : List UInt8 := memory.takeD count 0

/-- An array after its first bytes have been overwritten. -/
def overwrite (array bytes : List UInt8) : List UInt8 := bytes ++ array.drop bytes.length

/-- Up to `count` characters of a string behind the one at the start of a memory. -/
def strncat (memory source : List UInt8) (count : ℕ) : List UInt8 :=
  overwrite memory (cString memory ++ (cString source).take count ++ [0])

/-- Where a text first occurs in the string at the start of a memory. -/
def strstr (memory text : List UInt8) : Option ℕ :=
  (cString memory).tails.findIdx? (text.isPrefixOf ·)

/-- No byte of the list ends a string. -/
def NoNul (bytes : List UInt8) : Prop := (0 : UInt8) ∉ bytes

instance (bytes : List UInt8) : Decidable (NoNul bytes) :=
  inferInstanceAs (Decidable ((0 : UInt8) ∉ bytes))

/-- From the first zero byte on all bytes are zero. -/
def ZeroPadded (bytes : List UInt8) : Prop := ∀ byte ∈ bytes.dropWhile (· ≠ 0), byte = 0

instance (bytes : List UInt8) : Decidable (ZeroPadded bytes) :=
  decidable_of_iff ((bytes.dropWhile (· ≠ 0)).all (· = 0) = true) (by simp [ZeroPadded])

variable {bytes rest memory : List UInt8} {count : ℕ}

theorem NoNul.sublist (h : NoNul memory) (sub : bytes.Sublist memory) : NoNul bytes :=
  fun member => h (sub.subset member)

theorem NoNul.append {first second : List UInt8} (h : NoNul first) (h' : NoNul second) :
    NoNul (first ++ second) :=
  fun member => (List.mem_append.mp member).elim h h'

theorem cString_append (h : NoNul bytes) : cString (bytes ++ rest) = bytes ++ cString rest := by
  apply List.takeWhile_append_of_pos
  intro byte member
  have : byte ≠ 0 := fun heq => h (heq ▸ member)
  simpa using this

theorem cString_eq_self (h : NoNul bytes) : cString bytes = bytes := by
  have happend : cString (bytes ++ []) = bytes ++ cString [] := cString_append h
  rwa [List.append_nil, show cString [] = [] from rfl, List.append_nil] at happend

/-- What is left from the first occurrence of a character on. -/
theorem dropWhile_append_char {char : UInt8} (h : char ∉ bytes) :
    (bytes ++ char :: rest).dropWhile (· ≠ char) = char :: rest := by
  rw [List.dropWhile_append_of_pos]
  · simp
  · intro byte hbyte
    have : byte ≠ char := fun heq => h (heq ▸ hbyte)
    simpa using this

/-- The byte that ends a string is no part of it, nor is anything behind it. -/
theorem cString_append_zero_cons (memory rest : List UInt8) :
    cString (memory ++ 0 :: rest) = cString memory := by
  induction memory with
  | nil => simp [cString]
  | cons byte memory ih =>
    by_cases hbyte : byte = 0
    · simp [cString, hbyte]
    · simp only [cString, List.cons_append, List.takeWhile_cons] at ih ⊢
      rw [ih]

theorem cString_append_zero (memory : List UInt8) : cString (memory ++ [0]) = cString memory :=
  cString_append_zero_cons memory []

theorem cString_isPrefix (memory : List UInt8) : cString memory <+: memory :=
  List.takeWhile_prefix _

theorem strlen_le (memory : List UInt8) : strlen memory ≤ memory.length :=
  (cString_isPrefix memory).length_le

theorem noNul_cString (memory : List UInt8) : NoNul (cString memory) := fun hmem =>
  absurd (List.mem_takeWhile_imp hmem) (by decide)

/-- A memory is the string at its start and the zero byte that ends it, unless it holds none. -/
theorem eq_cString_or (memory : List UInt8) :
    memory = cString memory ∨ ∃ behind, memory = cString memory ++ 0 :: behind := by
  have hsplit : cString memory ++ memory.dropWhile (· ≠ 0) = memory :=
    List.takeWhile_append_dropWhile
  cases hdrop : memory.dropWhile (· ≠ 0) with
  | nil =>
    rw [hdrop, List.append_nil] at hsplit
    exact .inl hsplit.symm
  | cons byte behind =>
    have hbyte : byte = 0 := by
      have hhead := List.head?_dropWhile_not (fun byte : UInt8 => decide (byte ≠ 0)) memory
      rw [hdrop] at hhead
      simpa using hhead
    rw [hdrop, hbyte] at hsplit
    exact .inr ⟨behind, hsplit.symm⟩

theorem strlen_eq_zero_iff : strlen memory = 0 ↔ cString memory = [] :=
  List.length_eq_zero_iff

/-- A string is shorter than a block that holds a zero byte. -/
theorem strlen_lt_iff : strlen bytes < bytes.length ↔ ¬ NoNul bytes := by
  constructor
  · intro hlt hnul
    rw [strlen, cString_eq_self hnul] at hlt
    exact Nat.lt_irrefl _ hlt
  · intro hnul
    have hsub := cString_isPrefix bytes
    -- a string as long as its block is the block, and no string holds a zero byte
    refine Nat.lt_of_le_of_ne hsub.length_le fun heq => hnul ?_
    rw [← hsub.eq_of_length heq]
    exact noNul_cString bytes

/-- A block that holds a zero byte ends the string that begins in it. -/
theorem cString_append_of_nul (h : ¬ NoNul bytes) : cString (bytes ++ rest) = cString bytes := by
  have hlt : (bytes.takeWhile (· ≠ 0)).length < bytes.length := strlen_lt_iff.mpr h
  rw [cString, List.takeWhile_append, if_neg hlt.ne]
  rfl

@[simp] theorem cString_zero_cons (rest : List UInt8) : cString (0 :: rest) = [] := by
  simp [cString]

theorem strlen_append (h : NoNul bytes) : strlen (bytes ++ rest) = bytes.length + strlen rest := by
  rw [strlen, cString_append h, List.length_append, strlen]

/-- The string that begins in a block ends in it exactly when the block holds a zero byte. -/
theorem strlen_append_lt_iff (bytes rest : List UInt8) :
    strlen (bytes ++ rest) < bytes.length ↔ ¬ NoNul bytes := by
  by_cases h : NoNul bytes
  · rw [strlen_append h]
    exact iff_of_false (by omega) (not_not_intro h)
  · rw [strlen, cString_append_of_nul h]
    exact strlen_lt_iff

/-- A string is as long as the characters go that it begins with. -/
theorem le_strlen_iff (h : count ≤ memory.length) :
    count ≤ strlen memory ↔ NoNul (memory.take count) := by
  have hlength : (memory.take count).length = count := by
    rw [List.length_take, Nat.min_eq_left h]
  have hlt := strlen_append_lt_iff (memory.take count) (memory.drop count)
  rw [List.take_append_drop, hlength] at hlt
  exact not_lt.symm.trans (not_congr hlt |>.trans not_not)

@[simp] theorem strlen_zero_cons (rest : List UInt8) : strlen (0 :: rest) = 0 := by
  simp [strlen]

@[simp] theorem length_bytesAt (memory : List UInt8) (count : ℕ) :
    (bytesAt memory count).length = count :=
  List.takeD_length count memory 0

theorem bytesAt_append (h : bytes.length = count) : bytesAt (bytes ++ rest) count = bytes :=
  List.takeD_left' h

theorem bytesAt_eq_take (h : count ≤ memory.length) : bytesAt memory count = memory.take count :=
  List.takeD_eq_take 0 h

/-- A block that is short of the count is filled up with zero bytes. -/
theorem bytesAt_of_le (h : bytes.length ≤ count) :
    bytesAt bytes count = bytes ++ List.replicate (count - bytes.length) 0 := by
  induction bytes generalizing count with
  | nil => exact List.takeD_nil count 0
  | cons byte bytes ih =>
    obtain ⟨n, rfl⟩ : ∃ n, count = n + 1 := ⟨count - 1, by simp at h; omega⟩
    have hrest := ih (Nat.le_of_succ_le_succ h)
    simpa [bytesAt] using hrest

/-- A block is read as far as the memory is known. -/
theorem bytesAt_eq_take_append (memory : List UInt8) (count : ℕ) :
    bytesAt memory count = memory.take count ++ List.replicate (count - memory.length) 0 := by
  rcases Nat.le_total memory.length count with hshort | hlong
  · rw [bytesAt_of_le hshort, List.take_of_length_le hshort]
  · rw [bytesAt_eq_take hlong, Nat.sub_eq_zero_of_le hlong, List.replicate_zero, List.append_nil]

/-- Reading a prefix of a block that was read from memory. -/
theorem take_bytesAt_append (h : count ≤ bytes.length) (size : ℕ) (fits : count ≤ size) :
    (bytesAt (bytes ++ rest) size).take count = bytes.take count := by
  induction count generalizing bytes size with
  | zero => simp
  | succ count ih =>
    cases bytes with
    | nil => simp at h
    | cons byte bytes =>
      obtain ⟨n, rfl⟩ : ∃ n, size = n + 1 := ⟨size - 1, by omega⟩
      have hshort : count ≤ bytes.length := by simpa using h
      have := ih hshort n (Nat.le_of_succ_le_succ fits)
      simpa [bytesAt] using this

/-- A string built from a block without zero bytes and cut to the block's length
is the block, whatever follows it in memory. -/
theorem bytesAt_cString (h : NoNul bytes) (hlen : bytes.length = count) :
    bytesAt (cString (bytes ++ rest)) count = bytes := by
  rw [cString_append h, bytesAt_append hlen]

theorem NoNul.zeroPadded (h : NoNul bytes) : ZeroPadded bytes := by
  have hnil : bytes.dropWhile (· ≠ 0) = [] := by
    rw [List.dropWhile_eq_nil_iff]
    intro byte member
    have : byte ≠ 0 := fun heq => h (heq ▸ member)
    simpa using this
  simp only [ZeroPadded, hnil, List.not_mem_nil, false_imp_iff, implies_true]

/-- Bringing the string that begins in a block to the length of the block restores the block
exactly when nothing but zeros stands behind its first zero byte. -/
theorem bytesAt_cString_eq_iff :
    bytesAt (cString (bytes ++ rest)) bytes.length = bytes ↔ ZeroPadded bytes := by
  by_cases h : NoNul bytes
  · exact iff_of_true (bytesAt_cString h rfl) h.zeroPadded
  · have hlt : strlen bytes < bytes.length := strlen_lt_iff.mpr h
    have hsplit : cString bytes ++ bytes.dropWhile (· ≠ 0) = bytes :=
      List.takeWhile_append_dropWhile
    have hlength : bytes.length - strlen bytes = (bytes.dropWhile (· ≠ 0)).length := by
      have := congrArg List.length hsplit
      rw [List.length_append] at this
      rw [strlen]
      omega
    rw [cString_append_of_nul h, bytesAt_of_le hlt.le]
    change cString bytes ++ List.replicate (bytes.length - strlen bytes) 0 = bytes ↔ _
    conv_lhs =>
      rhs
      rw [← hsplit]
    rw [List.append_cancel_left_eq, hlength, eq_comm, List.eq_replicate_iff, ZeroPadded]
    exact and_iff_right rfl

theorem length_overwrite (array bytes : List UInt8) :
    (overwrite array bytes).length = max array.length bytes.length := by
  rw [overwrite, List.length_append, List.length_drop]
  omega

theorem cString_strncat (memory source : List UInt8) (count : ℕ) :
    cString (strncat memory source count) = cString memory ++ (cString source).take count := by
  have hnul : NoNul (cString memory ++ (cString source).take count) :=
    (noNul_cString memory).append ((noNul_cString source).sublist (List.take_sublist _ _))
  rw [strncat, overwrite, List.append_assoc, List.singleton_append, cString_append_zero_cons,
    cString_eq_self hnul]

/-- Appending writes as far as the new string and its end go. -/
theorem length_strncat (memory source : List UInt8) (count : ℕ) :
    (strncat memory source count).length =
      max memory.length (strlen (strncat memory source count) + 1) := by
  rw [strlen, cString_strncat, strncat, length_overwrite, List.length_append,
    List.length_singleton]

/-- A text is found at once in a string that begins with it. -/
theorem strstr_append (h : NoNul bytes) : strstr (bytes ++ rest) bytes = some 0 := by
  rw [strstr, cString_append h]
  have hprefix : bytes.isPrefixOf (bytes ++ cString rest) = true := by simp
  generalize bytes ++ cString rest = string at hprefix ⊢
  cases string with
  | nil => simp [List.findIdx?_cons, hprefix]
  | cons byte string => simp [List.findIdx?_cons, hprefix]

theorem overwrite_replicate (bytes : List UInt8) (count : ℕ) :
    overwrite (List.replicate count 0) bytes =
      bytes ++ List.replicate (count - bytes.length) 0 := by
  rw [overwrite, List.drop_replicate]

end Comnet.Foundations
