import Mathlib.Data.Nat.Notation
import MqttMsgHub.Lib.JsonString

/-! # JSON texts

The grammar of the JSON RFC (sections 2 to 6), over the characters of
Unicode, with the value that a text stands for. String literals are those of `JsonString`.
A number stands for its own text, so that nothing is said about its precision; an object
keeps all of its members, in order. `Denotes k l v` also counts levels: `k` bounds how
deep arrays and objects stand inside of the value.

* `Denotes`, `Elements`, `Members` — the rules for values;
* `TextOf` — the rule for texts.
-/

namespace JsonText

/-- What a JSON text stands for. -/
inductive Value where
  | null
  | boolean (b : Bool)
  | number (text : List Char)
  | string (cs : List Char)
  | array (vs : List Value)
  | object (ms : List (List Char × Value))

/-! ## White space -/

/-- A character of `ws`. -/
def IsWs (c : Char) : Prop := c = ' ' ∨ c = '\t' ∨ c = '\n' ∨ c = '\r'

/-- `ws`. -/
def Ws (l : List Char) : Prop := ∀ c ∈ l, IsWs c

/-! ## Numbers -/

/-- `1*DIGIT`. -/
structure Digits (l : List Char) : Prop where
  ne_nil : l ≠ []
  digits : ∀ c ∈ l, c.isDigit

/-- `int`. -/
inductive IntPart : List Char → Prop where
  | zero : IntPart ['0']
  | digits {l : List Char} : Digits l → l.head? ≠ some '0' → IntPart l

/-- `[ frac ]`. -/
inductive Frac : List Char → Prop where
  | absent : Frac []
  | present {ds : List Char} : Digits ds → Frac ('.' :: ds)

/-- `[ exp ]`. -/
inductive Exp : List Char → Prop where
  | absent : Exp []
  | present {e : Char} {sign ds : List Char} : e = 'e' ∨ e = 'E' →
      sign = [] ∨ sign = ['-'] ∨ sign = ['+'] → Digits ds → Exp (e :: (sign ++ ds))

/-- `number`. -/
inductive NumberText : List Char → Prop where
  | mk {sign i f x : List Char} : sign = [] ∨ sign = ['-'] → IntPart i → Frac f → Exp x →
      NumberText (sign ++ i ++ f ++ x)

theorem IntPart.toDigits {l : List Char} (h : IntPart l) : Digits l := by
  cases h with
  | zero => exact ⟨by decide, fun c hc => by rw [List.mem_singleton.mp hc]; rfl⟩
  | digits hdigits => exact hdigits

/-! ## Values -/

mutual
/-- `value`, with at most `k` levels inside of it. -/
inductive Denotes : ℕ → List Char → Value → Prop where
  | null {k : ℕ} : Denotes k "null".toList .null
  | true {k : ℕ} : Denotes k "true".toList (.boolean true)
  | false {k : ℕ} : Denotes k "false".toList (.boolean false)
  | number {k : ℕ} {t : List Char} : NumberText t → Denotes k t (.number t)
  | string {k : ℕ} {l cs : List Char} : JsonString.Chars l cs → Denotes k ('"' :: l) (.string cs)
  | emptyArray {k : ℕ} {w : List Char} : Ws w → Denotes k ('[' :: (w ++ [']'])) (.array [])
  | array {k : ℕ} {l : List Char} {vs : List Value} : Elements k l vs →
      Denotes (k + 1) ('[' :: (l ++ [']'])) (.array vs)
  | emptyObject {k : ℕ} {w : List Char} : Ws w → Denotes k ('\x7b' :: (w ++ ['\x7d'])) (.object [])
  | object {k : ℕ} {l : List Char} {ms : List (List Char × Value)} : Members k l ms →
      Denotes (k + 1) ('\x7b' :: (l ++ ['\x7d'])) (.object ms)

/-- `value *( value-separator value )`, with the `ws` around the values. -/
inductive Elements : ℕ → List Char → List Value → Prop where
  | last {k : ℕ} {w l w' : List Char} {v : Value} : Ws w → Denotes k l v → Ws w' →
      Elements k (w ++ l ++ w') [v]
  | next {k : ℕ} {w l w' l' : List Char} {v : Value} {vs : List Value} : Ws w → Denotes k l v →
      Ws w' → Elements k l' vs → Elements k (w ++ l ++ w' ++ ',' :: l') (v :: vs)

/-- `member *( value-separator member )`, with the `ws` around the members. -/
inductive Members : ℕ → List Char → List (List Char × Value) → Prop where
  | last {k : ℕ} {w name w₁ w₂ l w' cs : List Char} {v : Value} : Ws w →
      JsonString.Chars name cs → Ws w₁ → Ws w₂ → Denotes k l v → Ws w' →
      Members k (w ++ '"' :: name ++ w₁ ++ ':' :: w₂ ++ l ++ w') [(cs, v)]
  | next {k : ℕ} {w name w₁ w₂ l w' l' cs : List Char} {v : Value}
      {ms : List (List Char × Value)} : Ws w →
      JsonString.Chars name cs → Ws w₁ → Ws w₂ → Denotes k l v → Ws w' → Members k l' ms →
      Members k (w ++ '"' :: name ++ w₁ ++ ':' :: w₂ ++ l ++ w' ++ ',' :: l') ((cs, v) :: ms)
end

/-- `JSON-text`. -/
inductive TextOf : ℕ → List Char → Value → Prop where
  | mk {k : ℕ} {w l w' : List Char} {v : Value} : Ws w → Denotes k l v → Ws w' →
      TextOf k (w ++ l ++ w') v

end JsonText
