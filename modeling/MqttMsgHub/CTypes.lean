import Mathlib.Data.Int.Order.Basic
import Mathlib.Data.List.TakeWhile

/-! # C integers, C strings and their decimal conversions

The hub's sources are compiled for 64-bit Linux: `int` has 32 bits, `int64_t`,
`long` and `long long` have 64. An integer of a C type is an integer that
carries its bounds. Strings are lists of characters without the terminating
NUL; a character stands for one byte.

* `sprintfD` is `%d` and `%lld`, `strtoll`, `atoi` and `atoll` read decimal
  numbers back as glibc does (`strtoll` saturates, `atoi` cuts the 64-bit
  value to 32 bits);
* `atoll_sprintfD` and `atoi_sprintfD` — reading back what was printed.
-/

namespace MqttMsgHub

/-- A NUL-terminated string, without its terminator. -/
abbrev Text := List Char

/-! ## Integers -/

/-- `int`. -/
abbrev CInt := {n : ℤ // -2147483648 ≤ n ∧ n ≤ 2147483647}

/-- `int64_t`, `long`, `long long`. -/
abbrev CInt64 := {n : ℤ // -9223372036854775808 ≤ n ∧ n ≤ 9223372036854775807}

/-- `INT_MAX`. -/
def INT_MAX : CInt := ⟨2147483647, by decide⟩

/-- The nearest `int64_t`, as `strtoll` returns it on overflow. -/
def CInt64.saturate (n : ℤ) : CInt64 :=
  ⟨max (-9223372036854775808) (min n 9223372036854775807), by omega⟩

/-- Conversion to `int`: reduction modulo `2 ^ 32` into the signed range. -/
def CInt.wrap (n : ℤ) : CInt :=
  ⟨(n + 2147483648) % 4294967296 - 2147483648, by omega⟩

instance (n : ℕ) : OfNat CInt n := ⟨CInt.wrap n⟩

instance (n : ℕ) : OfNat CInt64 n := ⟨CInt64.saturate n⟩

theorem CInt64.saturate_val (n : CInt64) : CInt64.saturate n.1 = n := by
  apply Subtype.ext
  have h := n.2
  simp only [CInt64.saturate]
  omega

theorem CInt.wrap_val (n : CInt) : CInt.wrap n.1 = n := by
  apply Subtype.ext
  have h := n.2
  simp only [CInt.wrap]
  omega

/-! ## Printing -/

/-- `sprintf` with `%d` or `%lld`. -/
def sprintfD (n : ℤ) : Text :=
  if n < 0 then '-' :: Nat.toDigits 10 n.natAbs else Nat.toDigits 10 n.natAbs

theorem sprintfD_of_nonneg {n : ℤ} (h : 0 ≤ n) : sprintfD n = Nat.toDigits 10 n.natAbs := by
  simp [sprintfD, not_lt.mpr h]

theorem sprintfD_of_neg {n : ℤ} (h : n < 0) : sprintfD n = '-' :: Nat.toDigits 10 n.natAbs := by
  simp [sprintfD, h]

theorem sprintfD_ne_nil (n : ℤ) : sprintfD n ≠ [] := by
  unfold sprintfD
  split <;> simp

/-- A non-negative number is printed as digits only. -/
theorem isDigit_of_mem_sprintfD {n : ℤ} (h : 0 ≤ n) {c : Char} (hc : c ∈ sprintfD n) :
    c.isDigit := by
  rw [sprintfD_of_nonneg h] at hc
  exact Nat.isDigit_of_mem_toDigits (by decide) (by decide) hc

/-- A number is printed as digits, with a sign at most in front. -/
theorem mem_sprintfD {n : ℤ} {c : Char} (hc : c ∈ sprintfD n) : c.isDigit ∨ c = '-' := by
  rcases lt_or_ge n 0 with hneg | hpos
  · rw [sprintfD_of_neg hneg, List.mem_cons] at hc
    rcases hc with h | h
    · exact .inr h
    · exact .inl (Nat.isDigit_of_mem_toDigits (by decide) (by decide) h)
  · exact .inl (isDigit_of_mem_sprintfD hpos hc)

theorem length_sprintfD_le (n : CInt) : (sprintfD n.1).length ≤ 11 := by
  have hdigits : (Nat.toDigits 10 n.1.natAbs).length ≤ 10 := by
    rw [Nat.length_toDigits_le_iff (by decide) (by decide)]
    have h := n.2
    omega
  unfold sprintfD
  split
  · simp only [List.length_cons]
    omega
  · omega

/-! ## Reading -/

/-- `isspace` in the C locale. -/
def isSpace (c : Char) : Bool :=
  c == ' ' || c == '\t' || c == '\n' || c == '\x0b' || c == '\x0c' || c == '\r'

/-- The value of the digits at the start of a text. -/
def digitsValue (s : Text) : ℕ := Nat.ofDigitChars 10 (s.takeWhile Char.isDigit) 0

/-- `strtoll(s, NULL, 10)`: blanks, an optional sign, digits; the rest is
ignored. -/
def strtoll (s : Text) : CInt64 :=
  match s.dropWhile isSpace with
  | '-' :: t => CInt64.saturate (-(digitsValue t : ℤ))
  | '+' :: t => CInt64.saturate (digitsValue t)
  | t => CInt64.saturate (digitsValue t)

/-- `atoll`. -/
def atoll (s : Text) : CInt64 := strtoll s

/-- `atoi`: glibc converts the result of `strtol` to `int`. -/
def atoi (s : Text) : CInt := CInt.wrap (strtoll s).1

theorem digitsValue_toDigits (n : ℕ) : digitsValue (Nat.toDigits 10 n) = n := by
  have hall : (Nat.toDigits 10 n).takeWhile Char.isDigit = Nat.toDigits 10 n := by
    apply List.takeWhile_eq_self_iff.mpr
    intro c hc
    exact Nat.isDigit_of_mem_toDigits (by decide) (by decide) hc
  rw [digitsValue, hall]
  exact Nat.ofDigitChars_toDigits (by decide) (by decide)

/-- Digits are no blanks. -/
theorem isSpace_of_isDigit {c : Char} (h : c.isDigit) : isSpace c = false := by
  unfold isSpace
  simp only [Bool.or_eq_false_iff, beq_eq_false_iff_ne]
  refine ⟨⟨⟨⟨⟨?_, ?_⟩, ?_⟩, ?_⟩, ?_⟩, ?_⟩ <;> (rintro rfl; revert h; decide)

theorem dropWhile_isSpace_of_digit {c : Char} {s : Text} (h : c.isDigit) :
    (c :: s).dropWhile isSpace = c :: s := by
  rw [List.dropWhile_cons, isSpace_of_isDigit h]
  rfl

/-- A text of digits reads as its value, cut to the range of `int64_t`. -/
theorem strtoll_digits {s : Text} (hne : s ≠ []) (hs : ∀ c ∈ s, c.isDigit) :
    strtoll s = CInt64.saturate (digitsValue s) := by
  cases s with
  | nil => exact absurd rfl hne
  | cons c t =>
    have hc : c.isDigit := hs c List.mem_cons_self
    have hminus : c ≠ '-' := by rintro rfl; revert hc; decide
    have hplus : c ≠ '+' := by rintro rfl; revert hc; decide
    rw [strtoll, dropWhile_isSpace_of_digit hc]
    split
    · rename_i heq
      exact absurd (List.cons.inj heq).1 hminus
    · rename_i heq
      exact absurd (List.cons.inj heq).1 hplus
    · rfl

theorem strtoll_sprintfD (n : CInt64) : strtoll (sprintfD n.1) = n := by
  rcases lt_or_ge n.1 0 with hneg | hpos
  · -- the sign is read back, the digits give the absolute value
    have hval : -(n.1.natAbs : ℤ) = n.1 := by omega
    have hblank : ('-' :: Nat.toDigits 10 n.1.natAbs).dropWhile isSpace =
        '-' :: Nat.toDigits 10 n.1.natAbs := rfl
    rw [sprintfD_of_neg hneg, strtoll, hblank]
    simp only [digitsValue_toDigits, hval]
    exact CInt64.saturate_val n
  · have hval : (n.1.natAbs : ℤ) = n.1 := by omega
    rw [strtoll_digits (sprintfD_ne_nil _) fun c hc => isDigit_of_mem_sprintfD hpos hc,
      sprintfD_of_nonneg hpos, digitsValue_toDigits, hval]
    exact CInt64.saturate_val n

theorem atoll_sprintfD (n : CInt64) : atoll (sprintfD n.1) = n :=
  strtoll_sprintfD n

theorem atoi_sprintfD (n : CInt) : atoi (sprintfD n.1) = n := by
  have hrange : -9223372036854775808 ≤ n.1 ∧ n.1 ≤ 9223372036854775807 := by
    have h := n.2
    omega
  have hread : strtoll (sprintfD n.1) = ⟨n.1, hrange⟩ := strtoll_sprintfD ⟨n.1, hrange⟩
  rw [atoi, hread]
  exact CInt.wrap_val n

/-! ## Strings -/

/-- `strlen`; `none` when it runs past the end of the buffer. -/
def strlen (buf : List UInt8) : Option ℕ := buf.findIdx? (· == 0)

theorem strlen_append {s : List UInt8} (hs : 0 ∉ s) (room : List UInt8) :
    strlen (s ++ 0 :: room) = some s.length := by
  unfold strlen
  rw [List.findIdx?_append, List.findIdx?_eq_none_iff.mpr, List.findIdx?_cons]
  · simp
  · intro c hc
    rw [beq_eq_false_iff_ne]
    exact ne_of_mem_of_not_mem hc hs

/-- `string_is_empty`; `none` is the NULL pointer. -/
def stringIsEmpty : Option Text → Bool
  | none => true
  | some s => s.isEmpty

/-- `string_equals(s1, s2, TRUE)`, that is `strcasecmp(s1, s2) == 0`. -/
def stringEqualsIgnoreCase (s t : Text) : Bool :=
  s.map Char.toLower == t.map Char.toLower

/-- `string_upper_case`. -/
def stringUpperCase (s : Text) : Text :=
  s.map fun c => if 'a' ≤ c && c ≤ 'z' then Char.ofNat (c.toNat - 32) else c

/-- `strstr`: the part of `s` from the first `t` on. -/
def strstr (s t : Text) : Option Text :=
  if t.isPrefixOf s then some s
  else
    match s with
    | [] => none
    | _ :: s' => strstr s' t

/-- A string written to a buffer of `size` bytes with its terminator, by `strcpy` or
`sprintf`; undefined when there is no room for it. -/
def intoBuffer (size : ℕ) (s : Text) : Option Text :=
  if s.length < size then some s else none

/-- `strrchr`: the part of `s` from the last `c` on. -/
def strrchr (c : Char) : Text → Option Text
  | [] => none
  | x :: xs =>
    match strrchr c xs with
    | some t => some t
    | none => if x = c then some (x :: xs) else none

theorem strrchr_eq_none {c : Char} {s : Text} (h : c ∉ s) : strrchr c s = none := by
  induction s with
  | nil => rfl
  | cons x xs ih =>
    rw [List.mem_cons, not_or] at h
    simp [strrchr, ih h.2, Ne.symm h.1]

/-- The last occurrence of `c` is where a part without `c` starts. -/
theorem strrchr_append {c : Char} {t : Text} (h : c ∉ t) (s : Text) :
    strrchr c (s ++ c :: t) = some (c :: t) := by
  induction s with
  | nil => simp [strrchr, strrchr_eq_none h]
  | cons x xs ih => simp [strrchr, ih]

end MqttMsgHub
