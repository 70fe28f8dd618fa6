import MqttMsgHub.JsonTokener
import MqttMsgHub.Lib.JsonString

/-! # The JSON of json-c

The texts that the tokener takes, as a grammar. It is JSON with additions: comments
between the tokens, single quotation marks, any character but NUL inside of a string,
the words in any case, `NaN` and `Infinity`, signs in places of their own, a comma behind
the last element or member. A value is read from the left: `Value k l v r` says that
`l` starts with a text of `v`, with at most `k` levels inside of it, and that `r` is what
stands behind it.

Some texts outside of the grammar are taken as well: a comment that does not end, behind
a value that stands inside of arrays and objects, makes the tokener stop with that value
(`Stops`).
-/

namespace MqttMsgHub

/-! ## Blanks -/

/-- Behind the start of a block comment. A star takes the next character with it, so that
two stars in front of the slash do not end a comment. -/
inductive BlockComment : Text → Text → Prop where
  | close {r : Text} : BlockComment ('*' :: '/' :: r) r
  | star {c : Char} {l r : Text} : c ≠ '/' → c ≠ '\x00' → BlockComment l r → BlockComment ('*' :: c :: l) r
  | skip {c : Char} {l r : Text} : c ≠ '*' → c ≠ '\x00' → BlockComment l r → BlockComment (c :: l) r

/-- Behind the start of a block comment that does not end. -/
inductive Endless : Text → Prop where
  | nil : Endless []
  | nul {l : Text} : Endless ('\x00' :: l)
  | starNil : Endless ['*']
  | starNul {l : Text} : Endless ('*' :: '\x00' :: l)
  | star {c : Char} {l : Text} : c ≠ '/' → c ≠ '\x00' → Endless l → Endless ('*' :: c :: l)
  | skip {c : Char} {l : Text} : c ≠ '*' → c ≠ '\x00' → Endless l → Endless (c :: l)

/-- White space and comments. -/
inductive Blanks : Text → Text → Prop where
  | nil {r : Text} : Blanks r r
  | space {c : Char} {l r : Text} : isSpace c → Blanks l r → Blanks (c :: l) r
  | block {l l' r : Text} : BlockComment l l' → Blanks l' r → Blanks ('/' :: '*' :: l) r
  | line {cs l r : Text} : (∀ c ∈ cs, c ≠ '\n' ∧ c ≠ '\x00') → Blanks l r →
      Blanks ('/' :: '/' :: (cs ++ '\n' :: l)) r

/-- A comment that does not end. -/
inductive Unended : Text → Prop where
  | block {l : Text} : Endless l → Unended ('/' :: '*' :: l)
  | line {l : Text} : '\n' ∉ upToNul l → Unended ('/' :: '/' :: l)

/-- No blank and no comment comes next. -/
def Ready (l : Text) : Prop := isSpace (peekChar l) = false ∧ peekChar l ≠ '/'

/-! ## Strings -/

/-- A high surrogate, in the lower 16 bits of a code. -/
def IsHigh (u : ℕ) : Prop := 0xD800 ≤ u % 0x10000 ∧ u % 0x10000 ≤ 0xDBFF

/-- A low surrogate, in the lower 16 bits of a code. -/
def IsLow (u : ℕ) : Prop := 0xDC00 ≤ u % 0x10000 ∧ u % 0x10000 ≤ 0xDFFF

/-- The code that four digits make behind a high surrogate, or behind none, and what is
kept of the high one: with the other half it makes one code, else it is replaced. -/
inductive Joins : Option ℕ → ℕ → ℕ → Text → Prop where
  | alone {v : ℕ} : Joins none v v []
  | pair {u v : ℕ} : IsLow v → Joins (some u) v (decodeSurrogatePair u v) []
  | other {u v : ℕ} : ¬ IsLow v → Joins (some u) v v utf8ReplacementChar

/-- Behind `\u`, and behind a high surrogate or none: the bytes of a character. A surrogate
without its other half is replaced. The code of a pair counts as a surrogate of its own if
its lower 16 bits are one. -/
inductive Unicode : Option ℕ → Text → Text → Text → Prop where
  | char {a b c d : Char} {hi : Option ℕ} {v p : ℕ} {s r : Text} :
      JsonString.codeUnit a b c d = some v → Joins hi v p s → ¬ IsHigh p → ¬ IsLow p →
      Unicode hi (a :: b :: c :: d :: r) (s ++ unescapedUtf p) r
  | low {a b c d : Char} {hi : Option ℕ} {v p : ℕ} {s r : Text} :
      JsonString.codeUnit a b c d = some v → Joins hi v p s → IsLow p →
      Unicode hi (a :: b :: c :: d :: r) (s ++ utf8ReplacementChar) r
  | high {a b c d : Char} {hi : Option ℕ} {v p : ℕ} {s r : Text} :
      JsonString.codeUnit a b c d = some v → Joins hi v p s → IsHigh p →
      (∀ l, r ≠ '\\' :: 'u' :: l) → Unicode hi (a :: b :: c :: d :: r) (s ++ utf8ReplacementChar) r
  | next {a b c d : Char} {hi : Option ℕ} {v p : ℕ} {l s s' r : Text} :
      JsonString.codeUnit a b c d = some v → Joins hi v p s → IsHigh p →
      Unicode (some p) l s' r → Unicode hi (a :: b :: c :: d :: '\\' :: 'u' :: l) (s ++ s') r

theorem Unicode.unit {a b c d : Char} {v : ℕ} {r : Text} (hcode : JsonString.codeUnit a b c d = some v)
    (hhigh : ¬ IsHigh v) (hlow : ¬ IsLow v) :
    Unicode none (a :: b :: c :: d :: r) (unescapedUtf v) r :=
  .char hcode .alone hhigh hlow

/-- A pair whose code is no surrogate is read as that code. -/
theorem Unicode.pair {a b c d a' b' c' d' : Char} {u v : ℕ} {r : Text}
    (hcode : JsonString.codeUnit a b c d = some u) (hu : IsHigh u)
    (hcode' : JsonString.codeUnit a' b' c' d' = some v) (hv : IsLow v)
    (hhigh : ¬ IsHigh (decodeSurrogatePair u v)) (hlow : ¬ IsLow (decodeSurrogatePair u v)) :
    Unicode none (a :: b :: c :: d :: '\\' :: 'u' :: a' :: b' :: c' :: d' :: r)
      (unescapedUtf (decodeSurrogatePair u v)) r := by
  have hread : Unicode none (a :: b :: c :: d :: '\\' :: 'u' :: a' :: b' :: c' :: d' :: r)
      ([] ++ ([] ++ unescapedUtf (decodeSurrogatePair u v))) r :=
    .next hcode .alone hu (.char hcode' (.pair hv) hhigh hlow)
  rwa [List.nil_append, List.nil_append] at hread

-- the pair of U+1D800 reads as a high surrogate without its other half
example : Unicode none "d836\\udc00".toList utf8ReplacementChar [] :=
  .next (v := 0xD836) rfl .alone ⟨by decide, by decide⟩
    (.high (v := 0xDC00) rfl (.pair ⟨by decide, by decide⟩) ⟨by decide, by decide⟩ (by simp))

/-- Behind an opening quotation mark: the string and the text behind the closing one. -/
inductive Quoted (q : Char) : Text → Text → Text → Prop where
  | close {r : Text} : Quoted q (q :: r) [] r
  | plain {c : Char} {l s r : Text} : c ≠ q → c ≠ '\\' → c ≠ '\x00' → Quoted q l s r →
      Quoted q (c :: l) (c :: s) r
  | escape {e x : Char} {l s r : Text} : JsonString.unescape e = some x → Quoted q l s r →
      Quoted q ('\\' :: e :: l) (x :: s) r
  | unicode {l l' u s r : Text} : Unicode none l u l' → Quoted q l' s r →
      Quoted q ('\\' :: 'u' :: l) (u ++ s) r

/-- The quotation marks. -/
def IsQuote (q : Char) : Prop := q = '"' ∨ q = '\''

/-! ## Numbers -/

/-- The start of an exponent. -/
def IsExponent (c : Char) : Prop := c = 'e' ∨ c = 'E'

/-- A point or an exponent makes a double. -/
def Fractional (t : Text) : Prop := '.' ∈ t ∨ ∃ c ∈ t, IsExponent c

/-- A character may stand behind `a` in a number: one point, not behind the exponent, one
exponent, and a minus sign only at the start of the number or of the exponent. -/
structure MayFollow (a : Text) (c : Char) : Prop where
  point : c = '.' → ¬ Fractional a
  exponent : IsExponent c → ∀ d ∈ a, ¬ IsExponent d
  minus : c = '-' → a = [] ∨ ∃ e ∈ a.getLast?, IsExponent e

/-- What the tokener takes for a number. -/
structure NumberShape (t : Text) : Prop where
  start : t.head? = some '-' ∨ (t.headD ' ').isDigit
  chars : ∀ c ∈ t, isNumberChar c
  mayFollow : ∀ a c b, t = a ++ c :: b → MayFollow a c

/-- The text of a number, and its value. -/
inductive Number : Text → Json → Prop where
  | int {t : Text} {n : CInt64} : NumberShape t → ¬ Fractional t → jsonParseInt64 t = some n →
      Number t (.int n)
  | double {t : Text} : NumberShape t → Fractional t → jsonParseDouble t = true →
      Number t (.double t)

/-! ## Values -/

mutual
/-- A value at the start of a text, with at most `k` levels inside of it. -/
inductive Value : ℕ → Text → Json → Text → Prop where
  | null {k : ℕ} {s r : Text} : s.map Char.toLower = "null".toList → Value k (s ++ r) .null r
  | nan {k : ℕ} {s r : Text} : s.map Char.toLower = "nan".toList →
      Value k (s ++ r) (.double "NaN".toList) r
  | infinity {k : ℕ} {s r : Text} : s.map Char.toLower = "infinity".toList →
      Value k (s ++ r) (.double "Infinity".toList) r
  | minusInfinity {k : ℕ} {s r : Text} : s.map Char.toLower = "infinity".toList →
      Value k ('-' :: (s ++ r)) (.double "-Infinity".toList) r
  | true {k : ℕ} {s r : Text} : s.map Char.toLower = "true".toList →
      Value k (s ++ r) (.boolean true) r
  | false {k : ℕ} {s r : Text} : s.map Char.toLower = "false".toList →
      Value k (s ++ r) (.boolean false) r
  | number {k : ℕ} {t r : Text} {v : Json} : Number t v → isNumberChar (peekChar r) = false →
      Value k (t ++ r) v r
  | string {k : ℕ} {q : Char} {l s r : Text} : IsQuote q → Quoted q l s r →
      Value k (q :: l) (.string s) r
  | array {k : ℕ} {l l' r : Text} {vs : List Json} : Blanks l l' → Elements k [] l' vs r →
      Value k ('[' :: l) (.array vs) r
  | object {k : ℕ} {l l' r : Text} {ms : List (Text × Json)} : Blanks l l' →
      Members k [] l' ms r → Value k ('\x7b' :: l) (.object ms) r

/-- The rest of an array behind the elements `vs`: all elements. -/
inductive Elements : ℕ → List Json → Text → List Json → Text → Prop where
  | close {k : ℕ} {vs : List Json} {r : Text} : Elements k vs (']' :: r) vs r
  | last {k : ℕ} {vs : List Json} {v : Json} {l l' r : Text} : Value k l v l' →
      Blanks l' (']' :: r) → Elements (k + 1) vs l (vs ++ [v]) r
  | next {k : ℕ} {vs ws : List Json} {v : Json} {l l₁ l₂ l₃ r : Text} : Value k l v l₁ →
      Blanks l₁ (',' :: l₂) → Blanks l₂ l₃ → Elements (k + 1) (vs ++ [v]) l₃ ws r →
      Elements (k + 1) vs l ws r

/-- The rest of an object behind the members `ms`: all members. A name that is there
already gets the new value. -/
inductive Members : ℕ → List (Text × Json) → Text → List (Text × Json) → Text → Prop where
  | close {k : ℕ} {ms : List (Text × Json)} {r : Text} : Members k ms ('\x7d' :: r) ms r
  | last {k : ℕ} {ms : List (Text × Json)} {q : Char} {s l l₁ l₂ l₃ l₄ r : Text} {v : Json} :
      IsQuote q → Quoted q l s l₁ → Blanks l₁ (':' :: l₂) → Blanks l₂ l₃ → Value k l₃ v l₄ →
      Blanks l₄ ('\x7d' :: r) → Members (k + 1) ms (q :: l) (Assoc.set (upToNul s) v ms) r
  | next {k : ℕ} {ms ns : List (Text × Json)} {q : Char} {s l l₁ l₂ l₃ l₄ l₅ l₆ r : Text}
      {v : Json} :
      IsQuote q → Quoted q l s l₁ → Blanks l₁ (':' :: l₂) → Blanks l₂ l₃ → Value k l₃ v l₄ →
      Blanks l₄ (',' :: l₅) → Blanks l₅ l₆ →
      Members (k + 1) (Assoc.set (upToNul s) v ms) l₆ ns r → Members (k + 1) ms (q :: l) ns r
end

/-! ## Texts -/

/-- Elements of an array and their commas, up to the start of an element. -/
inductive PastElements : ℕ → Text → Text → Prop where
  | here {k : ℕ} {l : Text} : PastElements k l l
  | next {k : ℕ} {v : Json} {l l₁ l₂ l₃ r : Text} : Value k l v l₁ → Blanks l₁ (',' :: l₂) →
      Blanks l₂ l₃ → PastElements k l₃ r → PastElements k l r

/-- Members of an object and their commas, up to the start of a member's value. -/
inductive PastMembers : ℕ → Text → Text → Prop where
  | here {k : ℕ} {q : Char} {s l l₁ l₂ r : Text} : IsQuote q → Quoted q l s l₁ →
      Blanks l₁ (':' :: l₂) → Blanks l₂ r → PastMembers k (q :: l) r
  | next {k : ℕ} {q : Char} {s l l₁ l₂ l₃ l₄ l₅ l₆ r : Text} {v : Json} : IsQuote q →
      Quoted q l s l₁ → Blanks l₁ (':' :: l₂) → Blanks l₂ l₃ → Value k l₃ v l₄ →
      Blanks l₄ (',' :: l₅) → Blanks l₅ l₆ → PastMembers k l₆ r → PastMembers k (q :: l) r

/-- A comment behind a value does not end: the value, which may stand inside of others. -/
inductive Stops : ℕ → Text → Json → Prop where
  | here {k : ℕ} {l r r' : Text} {v : Json} : Value k l v r → Blanks r r' → Unended r' →
      Stops k l v
  | element {k : ℕ} {l l₁ l₂ : Text} {v : Json} : Blanks l l₁ → PastElements k l₁ l₂ →
      Stops k l₂ v → Stops (k + 1) ('[' :: l) v
  | member {k : ℕ} {l l₁ l₂ : Text} {v : Json} : Blanks l l₁ → PastMembers k l₁ l₂ →
      Stops k l₂ v → Stops (k + 1) ('\x7b' :: l) v

/-- What the tokener takes for a text of `v`. Behind the value and blanks anything may
stand but a slash that starts no comment. -/
inductive TextOf (v : Json) : Text → Prop where
  | whole {l l' r r' : Text} : Blanks l l' → Value 31 l' v r → Blanks r r' → Ready r' →
      TextOf v l
  | stopped {l l' : Text} : Blanks l l' → Stops 31 l' v → TextOf v l

end MqttMsgHub
