import Mathlib.Data.List.Basic

/-! # String literals of JSON

A string literal of JSON as RFC 8259 defines it (section 7), over the characters
of Unicode, and its bytes in UTF-8 (section 8.1). Lean's `Char` is a character of
Unicode, and its UTF-8 encoder is used.

* `utf8_injective` — a text is determined by its bytes;
* `encode_cases` — a byte below 128 is a character of its own, and `toUInt8_eq_iff`,
  `toUInt8_lt_iff` compare such characters by their bytes;
* `Chars` — what stands behind the opening quotation mark, and the text it stands
  for; `chars_quote_iff`, `chars_unescaped_iff` and `chars_escape_iff` read it from
  the left.
-/

namespace JsonString

/-! ## UTF-8 -/

/-- The bytes of a text. -/
def utf8 (cs : List Char) : List UInt8 := cs.flatMap String.utf8EncodeChar

@[simp] theorem utf8_nil : utf8 [] = [] := rfl

@[simp] theorem utf8_cons (c : Char) (cs : List Char) :
    utf8 (c :: cs) = String.utf8EncodeChar c ++ utf8 cs := rfl

@[simp] theorem utf8_append (cs ds : List Char) : utf8 (cs ++ ds) = utf8 cs ++ utf8 ds :=
  List.flatMap_append

theorem utf8_injective : Function.Injective utf8 := by
  intro cs ds h
  have hbytes : cs.utf8Encode = ds.utf8Encode := by
    show (utf8 cs).toByteArray = (utf8 ds).toByteArray
    rw [h]
  have hdecode := congrArg ByteArray.utf8Decode? hbytes
  simpa using hdecode

/-- A character is one byte below 128, or all its bytes are above. -/
theorem encode_cases (c : Char) :
    (c.toNat < 128 ∧ String.utf8EncodeChar c = [c.toUInt8]) ∨
      (128 ≤ c.toNat ∧ ∀ b ∈ String.utf8EncodeChar c, 128 ≤ b) := by
  have hhigh : ∀ n : ℕ, n < 128 → (128 : UInt8) ≤ UInt8.ofNat (n + 128) := by
    intro n hn
    rw [UInt8.le_iff_toNat_le, UInt8.toNat_ofNat_of_lt' (Nat.add_lt_add_right hn 128)]
    exact Nat.le_add_left 128 n
  fun_cases String.utf8EncodeChar c with
  | case1 v h =>
    left
    exact ⟨Nat.lt_succ_of_le h, rfl⟩
  | case2 v h =>
    right
    refine ⟨Nat.lt_of_not_le h, ?_⟩
    simp only [List.forall_mem_cons]
    exact ⟨hhigh (v / 64 % 32 + 64) (by omega), hhigh (v % 64) (by omega), by simp⟩
  | case3 v h =>
    right
    refine ⟨Nat.lt_of_not_le h, ?_⟩
    simp only [List.forall_mem_cons]
    exact ⟨hhigh (v / 4096 % 16 + 96) (by omega), hhigh (v / 64 % 64) (by omega),
      hhigh (v % 64) (by omega), by simp⟩
  | case4 v h =>
    right
    refine ⟨Nat.lt_of_not_le h, ?_⟩
    simp only [List.forall_mem_cons]
    exact ⟨hhigh (v / 262144 % 8 + 112) (by omega), hhigh (v / 4096 % 64) (by omega),
      hhigh (v / 64 % 64) (by omega), hhigh (v % 64) (by omega), by simp⟩

theorem toNat_toUInt8 {c : Char} (hc : c.toNat < 128) : c.toUInt8.toNat = c.toNat :=
  UInt8.toNat_ofNat_of_lt' (Nat.lt_trans hc (by decide))

theorem toUInt8_eq_iff {c d : Char} (hc : c.toNat < 128) (hd : d.toNat < 128) :
    c.toUInt8 = d.toUInt8 ↔ c = d := by
  rw [← UInt8.toNat_inj, toNat_toUInt8 hc, toNat_toUInt8 hd, Char.toNat_inj]

theorem toUInt8_lt_iff {c d : Char} (hc : c.toNat < 128) (hd : d.toNat < 128) :
    c.toUInt8 < d.toUInt8 ↔ c < d := by
  rw [UInt8.lt_iff_toNat_lt, toNat_toUInt8 hc, toNat_toUInt8 hd]
  rfl

/-! ## Literals -/

/-- The value of a `HEXDIG`. -/
def hexValue (c : Char) : Option ℕ :=
  if '0' ≤ c ∧ c ≤ '9' then some (c.toNat - '0'.toNat)
  else if 'a' ≤ c ∧ c ≤ 'f' then some (c.toNat - 'a'.toNat + 10)
  else if 'A' ≤ c ∧ c ≤ 'F' then some (c.toNat - 'A'.toNat + 10)
  else none

/-- The code unit of `4HEXDIG`. -/
def codeUnit (a b c d : Char) : Option ℕ := do
  return (((← hexValue a) * 16 + (← hexValue b)) * 16 + (← hexValue c)) * 16 + (← hexValue d)

/-- The characters that may stand behind an `escape`, `u` apart. -/
def unescape : Char → Option Char
  | '"' => some '"'
  | '\\' => some '\\'
  | '/' => some '/'
  | 'b' => some '\x08'
  | 'f' => some '\x0c'
  | 'n' => some '\n'
  | 'r' => some '\r'
  | 't' => some '\t'
  | _ => none

/-- `*char quotation-mark`, and the text that is meant. A surrogate alone means no
text. -/
inductive Chars : List Char → List Char → Prop where
  | quotationMark : Chars ['"'] []
  | unescaped {c : Char} {l cs : List Char} : ' ' ≤ c → c ≠ '"' → c ≠ '\\' → Chars l cs →
      Chars (c :: l) (c :: cs)
  | escape {e x : Char} {l cs : List Char} : unescape e = some x → Chars l cs →
      Chars ('\\' :: e :: l) (x :: cs)
  | unicode {a b c d x : Char} {l cs : List Char} : codeUnit a b c d = some x.toNat → Chars l cs →
      Chars ('\\' :: 'u' :: a :: b :: c :: d :: l) (x :: cs)
  | surrogates {a b c d a' b' c' d' x : Char} {u v : ℕ} {l cs : List Char} :
      codeUnit a b c d = some u → 0xD800 ≤ u → u ≤ 0xDBFF →
      codeUnit a' b' c' d' = some v → 0xDC00 ≤ v → v ≤ 0xDFFF →
      x.toNat = 0x10000 + (u - 0xD800) * 0x400 + (v - 0xDC00) → Chars l cs →
      Chars ('\\' :: 'u' :: a :: b :: c :: d :: '\\' :: 'u' :: a' :: b' :: c' :: d' :: l) (x :: cs)

/-- The bytes are a string literal, and it stands for the text with these bytes. -/
def Denotes (literal text : List UInt8) : Prop :=
  ∃ l cs, literal = utf8 ('"' :: l) ∧ Chars l cs ∧ text = utf8 cs

variable {c e : Char} {l cs : List Char}

theorem chars_quote_iff : Chars ('"' :: l) cs ↔ l = [] ∧ cs = [] := by
  constructor
  · intro h
    cases h with
    | quotationMark => exact ⟨rfl, rfl⟩
    | unescaped _ hne => exact absurd rfl hne
  · rintro ⟨rfl, rfl⟩
    exact .quotationMark

theorem chars_unescaped_iff (hquote : c ≠ '"') (hescape : c ≠ '\\') :
    Chars (c :: l) cs ↔ ' ' ≤ c ∧ ∃ cs', cs = c :: cs' ∧ Chars l cs' := by
  constructor
  · intro h
    cases h with
    | quotationMark => exact absurd rfl hquote
    | unescaped hle _ _ hrest => exact ⟨hle, _, rfl, hrest⟩
    | escape => exact absurd rfl hescape
    | unicode => exact absurd rfl hescape
    | surrogates => exact absurd rfl hescape
  · rintro ⟨hle, cs', rfl, hrest⟩
    exact .unescaped hle hquote hescape hrest

theorem chars_escape_iff (he : e ≠ 'u') :
    Chars ('\\' :: e :: l) cs ↔ ∃ x cs', unescape e = some x ∧ cs = x :: cs' ∧ Chars l cs' := by
  constructor
  · intro h
    cases h with
    | unescaped _ _ hne => exact absurd rfl hne
    | escape hx hrest => exact ⟨_, _, hx, rfl, hrest⟩
    | unicode => exact absurd rfl he
    | surrogates => exact absurd rfl he
  · rintro ⟨x, cs', hx, rfl, hrest⟩
    exact .escape hx hrest

end JsonString
