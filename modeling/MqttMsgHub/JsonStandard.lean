import MqttMsgHub.JsonAccepts
import MqttMsgHub.Lib.JsonText

/-! # The tokener and the JSON RFC

Every text of the RFC's grammar is read, up to the levels that the tokener has, with the
value that the text stands for: as json-c keeps it, strings are their bytes in UTF-8, a
number without point and exponent is the nearest `int64_t`, another number keeps its text,
of two members with one name the second one counts, and a name ends at its first NUL. Left
out are the texts with an escaped pair that json-c takes for a surrogate once more: the
character of the pair is lost there.

* `KeepsPairs` — no such pair stands in a text;
* `quoted_of_chars` — string literals;
* `number_of_text` — numbers;
* `value_of_denotes` — values;
* `standard_text_accepted` — so every other text of the RFC's grammar is read.
-/

namespace MqttMsgHub

open JsonString (Chars)
open JsonText (Denotes)

variable {l l' r s t : Text} {k : ℕ} {c : Char} {pre : List Json} {ms : List (Text × Json)}

/-! ## What json-c keeps of a value -/

/-- The text of a byte. -/
def byteChar (b : UInt8) : Char := Char.ofNat b.toNat

/-- The bytes of a text. -/
def bytes (cs : List Char) : Text := (JsonString.utf8 cs).map byteChar

/-- A number has a point or an exponent. -/
def isFractional (t : Text) : Bool := t.any fun c => c == '.' || c == 'e' || c == 'E'

mutual
/-- The value of json-c. -/
def jsonOf : JsonText.Value → Json
  | .null => .null
  | .boolean b => .boolean b
  | .number t => if isFractional t then .double t else .int (strtoll t)
  | .string cs => .string (bytes cs)
  | .array vs => .array (jsonsOf vs)
  | .object ms => .object (membersOf [] ms)

def jsonsOf : List JsonText.Value → List Json
  | [] => []
  | v :: vs => jsonOf v :: jsonsOf vs

/-- Members are added to those that are there. -/
def membersOf (ms : List (Text × Json)) : List (List Char × JsonText.Value) → List (Text × Json)
  | [] => ms
  | (cs, v) :: rest => membersOf (Assoc.set (upToNul (bytes cs)) (jsonOf v) ms) rest
end

theorem isFractional_iff : isFractional t = true ↔ Fractional t := by
  simp only [isFractional, List.any_eq_true, Bool.or_eq_true, beq_iff_eq, Fractional, IsExponent]
  constructor
  · rintro ⟨c, hc, (rfl | rfl) | rfl⟩
    · exact .inl hc
    · exact .inr ⟨'e', hc, .inl rfl⟩
    · exact .inr ⟨'E', hc, .inr rfl⟩
  · rintro (hpoint | ⟨c, hc, rfl | rfl⟩)
    · exact ⟨'.', hpoint, .inl (.inl rfl)⟩
    · exact ⟨'e', hc, .inl (.inr rfl)⟩
    · exact ⟨'E', hc, .inr rfl⟩

/-! ## Bytes -/

@[simp] theorem bytes_nil : bytes [] = [] := rfl

@[simp] theorem bytes_append (a b : List Char) : bytes (a ++ b) = bytes a ++ bytes b := by
  simp [bytes]

/-- A character of one byte. -/
theorem bytes_cons (hc : c.toNat < 128) (cs : List Char) : bytes (c :: cs) = c :: bytes cs := by
  rcases JsonString.encode_cases c with ⟨-, h⟩ | ⟨h, -⟩
  · have hbyte : byteChar c.toUInt8 = c := by
      rw [byteChar, JsonString.toNat_toUInt8 hc, Char.ofNat_toNat]
    simp only [bytes, JsonString.utf8_cons, h, List.singleton_append, List.map_cons, hbyte]
  · omega

/-- A text of characters of one byte is its own bytes. -/
theorem bytes_ascii {cs : List Char} (h : ∀ c ∈ cs, c.toNat < 128) : bytes cs = cs := by
  induction cs with
  | nil => rfl
  | cons c cs ih =>
    rw [bytes_cons (h c List.mem_cons_self), ih fun d hd => h d (List.mem_cons_of_mem c hd)]

theorem toNat_byteChar (b : UInt8) : (byteChar b).toNat = b.toNat := by
  have hvalid : b.toNat.isValidChar := .inl (Nat.lt_trans b.toNat_lt (by decide))
  unfold byteChar Char.ofNat
  rw [dif_pos hvalid]
  rfl

theorem byteChar_ofNat {n : ℕ} (hn : n < 256) : byteChar (UInt8.ofNat n) = Char.ofNat n := by
  rw [byteChar, UInt8.toNat_ofNat_of_lt' hn]

/-- The other characters have bytes from 128 on. -/
theorem bytes_singleton_high (hc : ¬ c.toNat < 128) : ∀ d ∈ bytes [c], 128 ≤ d.toNat := by
  rcases JsonString.encode_cases c with ⟨h, -⟩ | ⟨-, h⟩
  · exact absurd h hc
  · intro d hd
    simp only [bytes, JsonString.utf8_cons, JsonString.utf8_nil, List.append_nil,
      List.mem_map] at hd
    rcases hd with ⟨b, hb, rfl⟩
    rw [toNat_byteChar]
    exact UInt8.le_iff_toNat_le.mp (h b hb)

/-- json-c's UTF-8 is UTF-8. -/
theorem unescapedUtf_toNat (c : Char) : unescapedUtf c.toNat = bytes [c] := by
  have hmax : c.toNat < 0x110000 := by
    rcases c.valid with h | ⟨-, h⟩
    · exact Nat.lt_trans h (by decide)
    · exact h
  have hval : c.val.toNat = c.toNat := rfl
  simp only [bytes, JsonString.utf8_cons, JsonString.utf8_nil, List.append_nil]
  unfold unescapedUtf String.utf8EncodeChar
  rw [hval]
  generalize c.toNat = n at hmax
  dsimp only
  by_cases h₁ : n ≤ 0x7f
  · rw [if_pos (by omega), if_pos h₁, List.map_cons, byteChar_ofNat (by omega)]
    rfl
  by_cases h₂ : n ≤ 0x7ff
  · rw [if_neg (by omega), if_pos (by omega), if_neg h₁, if_pos h₂]
    simp only [List.map_cons, List.map_nil]
    rw [byteChar_ofNat (by omega), byteChar_ofNat (by omega), Nat.add_comm, Nat.add_comm 128]
    rw [Nat.mod_eq_of_lt (by omega : n / 64 < 32)]
  by_cases h₃ : n ≤ 0xffff
  · rw [if_neg (by omega), if_neg (by omega), if_pos (by omega), if_neg h₁, if_neg h₂, if_pos h₃]
    simp only [List.map_cons, List.map_nil]
    rw [byteChar_ofNat (by omega), byteChar_ofNat (by omega), byteChar_ofNat (by omega),
      Nat.mod_eq_of_lt (by omega : n / 4096 < 16), Nat.add_comm 224, Nat.add_comm 128,
      Nat.add_comm 128]
  · rw [if_neg (by omega), if_neg (by omega), if_neg (by omega), if_pos hmax, if_neg h₁, if_neg h₂,
      if_neg h₃]
    simp only [List.map_cons, List.map_nil]
    rw [byteChar_ofNat (by omega), byteChar_ofNat (by omega), byteChar_ofNat (by omega),
      byteChar_ofNat (by omega), Nat.add_comm 240, Nat.add_comm 128, Nat.add_comm 128,
      Nat.add_comm 128]

/-- What holds of all characters of a set. -/
theorem all_of_contains (p : Char → Bool) (h : s.contains c = true) (hall : s.all p = true) :
    p c = true :=
  List.all_eq_true.mp hall c (List.contains_iff_mem.mp h)

theorem isHexChar_ascii (h : isHexChar c = true) : c.toNat < 128 :=
  of_decide_eq_true (all_of_contains (fun c => c.toNat < 128) h (by decide))

/-- The characters of an escape are bytes. -/
theorem unescape_ascii {e x : Char} (h : JsonString.unescape e = some x) :
    e.toNat < 128 ∧ x.toNat < 128 := by
  unfold JsonString.unescape at h
  split at h
  all_goals simp only [Option.some.injEq, reduceCtorEq] at h
  all_goals
    subst h
    decide

theorem bytes_code {a b c d : Char} {u : ℕ} (h : JsonString.codeUnit a b c d = some u) (l : Text) :
    bytes (a :: b :: c :: d :: l) = a :: b :: c :: d :: bytes l := by
  rcases codeUnit_cases h with ⟨ha, hb, hc, hd, -⟩
  rw [bytes_cons (isHexChar_ascii ha), bytes_cons (isHexChar_ascii hb),
    bytes_cons (isHexChar_ascii hc), bytes_cons (isHexChar_ascii hd)]

theorem isHexChar_lt (h : isHexChar c = true) : jtHexdigit c < 16 :=
  of_decide_eq_true (all_of_contains (fun c => jtHexdigit c < 16) h (by decide))

/-- A character of one code unit is no surrogate. -/
theorem not_surrogate_of_codeUnit {a b c d x : Char}
    (h : JsonString.codeUnit a b c d = some x.toNat) : ¬ IsHigh x.toNat ∧ ¬ IsLow x.toNat := by
  rcases codeUnit_cases h with ⟨ha, hb, hc, hd, hx⟩
  have hdigits : jtHexdigit a < 16 ∧ jtHexdigit b < 16 ∧ jtHexdigit c < 16 ∧ jtHexdigit d < 16 :=
    ⟨isHexChar_lt ha, isHexChar_lt hb, isHexChar_lt hc, isHexChar_lt hd⟩
  have hvalid : x.toNat < 0xd800 ∨ 0xdfff < x.toNat ∧ x.toNat < 0x110000 := x.valid
  unfold IsHigh IsLow
  omega

/-! ## Pairs that are replaced -/

/-- The escapes of a pair whose code is taken for a surrogate once more. -/
inductive ReplacedPair : List Char → Prop where
  | mk {a b c d a' b' c' d' : Char} {u v : ℕ} :
      JsonString.codeUnit a b c d = some u → 0xD800 ≤ u → u ≤ 0xDBFF →
      JsonString.codeUnit a' b' c' d' = some v → 0xDC00 ≤ v → v ≤ 0xDFFF →
      IsHigh (decodeSurrogatePair u v) ∨ IsLow (decodeSurrogatePair u v) →
      ReplacedPair ['\\', 'u', a, b, c, d, '\\', 'u', a', b', c', d']

/-- No such pair stands in a text. -/
def KeepsPairs (l : List Char) : Prop := ∀ e, e <:+: l → ¬ ReplacedPair e

theorem KeepsPairs.of_infix {l l' : List Char} (h : KeepsPairs l) (hsub : l' <:+: l) :
    KeepsPairs l' :=
  fun e he => h e (he.trans hsub)

theorem KeepsPairs.tail {l : List Char} (h : KeepsPairs (c :: l)) : KeepsPairs l :=
  h.of_infix (List.suffix_cons c l).isInfix

/-! ## String literals -/

theorem bytes_cons_eq (c : Char) (cs : List Char) : bytes (c :: cs) = bytes [c] ++ bytes cs := by
  rw [← bytes_append, List.singleton_append]

/-- A string literal is read as the bytes of its text. -/
theorem quoted_of_chars {cs : List Char} (h : Chars l cs) (hkeeps : KeepsPairs l) (r : Text) :
    Quoted '"' (bytes l ++ r) (bytes cs) r := by
  induction h with
  | quotationMark => exact .close
  | @unescaped c l cs hle hquote hback _ ih =>
    -- one byte, or more of them that are no ASCII
    rw [bytes_cons_eq, bytes_cons_eq c cs, List.append_assoc]
    apply quoted_skip _ (ih hkeeps.tail)
    intro d hd
    by_cases hc : c.toNat < 128
    · rw [bytes_cons hc, bytes_nil, List.mem_singleton] at hd
      subst hd
      refine ⟨hquote, hback, ?_⟩
      rintro rfl
      exact absurd hle (by decide)
    · have hd' := bytes_singleton_high hc d hd
      refine ⟨?_, ?_, ?_⟩ <;>
      · rintro rfl
        exact absurd hd' (by decide)
  | escape hx _ ih =>
    rcases unescape_ascii hx with ⟨he, hx'⟩
    rw [bytes_cons (by decide), bytes_cons he, bytes_cons hx']
    exact .escape hx (ih hkeeps.tail.tail)
  | @unicode a b c d x l cs hcode _ ih =>
    rw [bytes_cons (by decide), bytes_cons (by decide), bytes_code hcode, bytes_cons_eq x,
      ← unescapedUtf_toNat]
    have hrest : KeepsPairs l := hkeeps.of_infix ⟨['\\', 'u', a, b, c, d], [], by simp⟩
    rcases not_surrogate_of_codeUnit hcode with ⟨hhigh, hlow⟩
    exact .unicode (.unit hcode hhigh hlow) (ih hrest)
  | @surrogates a b c d a' b' c' d' x u v l cs hcode hle hge hcode' hle' hge' hx _ ih =>
    have hpair : decodeSurrogatePair u v = x.toNat := by
      unfold decodeSurrogatePair
      omega
    rw [bytes_cons (by decide), bytes_cons (by decide), bytes_code hcode, bytes_cons (by decide),
      bytes_cons (by decide), bytes_code hcode', bytes_cons_eq x, ← unescapedUtf_toNat, ← hpair]
    have hrest : KeepsPairs l := hkeeps.of_infix
      ⟨['\\', 'u', a, b, c, d, '\\', 'u', a', b', c', d'], [], by simp⟩
    have hhigh : IsHigh u := by
      unfold IsHigh
      omega
    have hlow : IsLow v := by
      unfold IsLow
      omega
    have hkept : ¬ (IsHigh (decodeSurrogatePair u v) ∨ IsLow (decodeSurrogatePair u v)) :=
      fun h => hkeeps _ ⟨[], l, rfl⟩ (.mk hcode hle hge hcode' hle' hge' h)
    rw [not_or] at hkept
    exact .unicode (.pair hcode hhigh hcode' hlow hkept.1 hkept.2) (ih hrest)

/-! ## Numbers -/

open JsonText (Digits IntPart Frac Exp NumberText)

variable {sign i f x ds : Text}

/-- No exponent stands in the digits and the fraction of a number. -/
theorem follows_frac (h : Follows t) (hwhole : ∀ c ∈ t, c.isDigit ∨ c = '-') (hf : Frac f) :
    Follows (t ++ f) ∧ ∀ c ∈ t ++ f, ¬ IsExponent c := by
  have hnot : ∀ c ∈ t, ¬ IsExponent c := fun c hc => (whole_of_digit (hwhole c hc)).2
  cases hf with
  | absent => exact ⟨by rwa [List.append_nil], by rwa [List.append_nil]⟩
  | @present ds hds =>
    rw [List.append_cons]
    have hpoint : MayFollow t '.' :=
      ⟨fun _ => not_fractional hwhole, by simp [IsExponent], by simp⟩
    refine ⟨(h.snoc hpoint).digits hds.digits, ?_⟩
    simp only [List.mem_append, List.mem_singleton]
    rintro c ((hc | rfl) | hc)
    · exact hnot c hc
    · simp [IsExponent]
    · exact (whole_of_digit (.inl (hds.digits c hc))).2

theorem follows_exp (h : Follows t) (hnot : ∀ c ∈ t, ¬ IsExponent c) (hx : Exp x) :
    Follows (t ++ x) := by
  cases hx with
  | absent => rwa [List.append_nil]
  | @present e sign ds he hsign hds =>
    have hexponent : Follows (t ++ [e]) := by
      refine h.snoc ⟨?_, fun _ => hnot, ?_⟩ <;> rcases he with rfl | rfl <;> simp
    rw [List.append_cons, ← List.append_assoc]
    refine Follows.digits ?_ hds.digits
    rcases hsign with rfl | rfl | rfl
    · rwa [List.append_nil]
    · exact hexponent.snoc ⟨by simp, by simp [IsExponent], fun _ => .inr ⟨e, by simp, he⟩⟩
    · exact hexponent.snoc ⟨by simp, by simp [IsExponent], by simp⟩

theorem isNumberChar_of_frac (hf : Frac f) : ∀ c ∈ f, isNumberChar c := by
  cases hf with
  | absent => simp
  | present hds =>
    intro c hc
    rcases List.mem_cons.mp hc with rfl | hc
    · rfl
    · exact isNumberChar_of_isDigit (hds.digits c hc)

theorem isNumberChar_of_exp (hx : Exp x) : ∀ c ∈ x, isNumberChar c := by
  cases hx with
  | absent => simp
  | @present e sign ds he hsign hds =>
    intro c hc
    rw [List.mem_cons, List.mem_append] at hc
    rcases hc with rfl | hc | hc
    · rcases he with rfl | rfl <;> rfl
    · rcases hsign with rfl | rfl | rfl
      · exact absurd hc List.not_mem_nil
      · rw [List.mem_singleton.mp hc]
        rfl
      · rw [List.mem_singleton.mp hc]
        rfl
    · exact isNumberChar_of_isDigit (hds.digits c hc)

/-- A number of the RFC is read. -/
theorem number_of_text (h : NumberText t) : Number t (jsonOf (.number t)) := by
  cases h with
  | @mk sign i f x hsign hi hf hx =>
    have hdigits := hi.toDigits
    have hwhole := whole_of_digits hsign hdigits.digits
    have hfrac := follows_frac ((follows_sign hsign).digits hdigits.digits) hwhole hf
    have hchars : ∀ c ∈ sign ++ i ++ f ++ x, isNumberChar c := by
      intro c hc
      rw [List.mem_append, List.mem_append] at hc
      rcases hc with (hc | hc) | hc
      · rcases hwhole c hc with hdigit | rfl
        · exact isNumberChar_of_isDigit hdigit
        · rfl
      · exact isNumberChar_of_frac hf c hc
      · exact isNumberChar_of_exp hx c hc
    have hfollows := follows_exp hfrac.1 hfrac.2 hx
    obtain ⟨d, ds, rfl⟩ : ∃ d ds, i = d :: ds := List.exists_cons_of_ne_nil hdigits.ne_nil
    have hd : d.isDigit := hdigits.digits d List.mem_cons_self
    have htext : sign ++ d :: ds ++ f ++ x = sign ++ d :: (ds ++ f ++ x) := by simp
    rcases unsigned_number hsign hd (ds ++ f ++ x) with ⟨hunsigned, hdrop⟩
    rw [htext] at hchars hfollows ⊢
    have hshape : NumberShape (sign ++ d :: (ds ++ f ++ x)) :=
      ⟨starts_of_sign hsign hd _, hchars, hfollows⟩
    unfold jsonOf
    split
    · rename_i hfractional
      refine .double hshape (isFractional_iff.mp hfractional) ?_
      rw [jsonParseDouble, hunsigned, List.headD_cons, hd, Bool.true_or]
    · rename_i hfractional
      refine .int hshape (fun h => hfractional (isFractional_iff.mpr h)) ?_
      rw [jsonParseInt64, hdrop, hunsigned, List.headD_cons, if_pos hd]

/-! ## Values -/

theorem bytes_ws {w : List Char} (h : JsonText.Ws w) : bytes w = w := by
  apply bytes_ascii
  intro c hc
  rcases h c hc with rfl | rfl | rfl | rfl <;> decide

/-- White space is skipped. -/
theorem blanks_ws {w : List Char} (h : JsonText.Ws w) (hrest : Blanks l r) :
    Blanks (bytes w ++ l) r := by
  rw [bytes_ws h]
  refine blanks_append (fun c hc => ?_) hrest
  rcases h c hc with rfl | rfl | rfl | rfl <;> rfl

/-- Behind a value stand white space and a comma or a bracket, or the text ends. -/
theorem end_ws {w : List Char} (h : JsonText.Ws w) (hend : isNumberChar (peekChar r) = false) :
    isNumberChar (peekChar (bytes w ++ r)) = false := by
  rw [bytes_ws h]
  cases w with
  | nil => exact hend
  | cons c w => rcases h c List.mem_cons_self with rfl | rfl | rfl | rfl <;> rfl

theorem bytes_number (h : NumberText t) : bytes t = t := by
  apply bytes_ascii
  intro c hc
  have hnumber := (number_of_text h).shape.chars c hc
  exact of_decide_eq_true (all_of_contains (fun c => c.toNat < 128) hnumber (by decide))

/-- What is denoted is read. -/
theorem value_of_denotes {l : List Char} {v : JsonText.Value} (h : Denotes k l v) :
    KeepsPairs l → ∀ r, isNumberChar (peekChar r) = false →
      Value k (bytes l ++ r) (jsonOf v) r := by
  -- by induction on the derivation: elements and members go behind those that are there
  refine @Denotes.rec
    (fun k l v _ => KeepsPairs l → ∀ r, isNumberChar (peekChar r) = false →
      Value k (bytes l ++ r) (jsonOf v) r)
    (fun k l vs _ => KeepsPairs l → ∀ ws r, ∃ l', Blanks (bytes l ++ ']' :: r) l' ∧
      Elements (k + 1) ws l' (ws ++ jsonsOf vs) r)
    (fun k l ms _ => KeepsPairs l → ∀ ns r, ∃ l', Blanks (bytes l ++ '\x7d' :: r) l' ∧
      Members (k + 1) ns l' (membersOf ns ms) r)
    ?_ ?_ ?_ ?_ ?_ ?_ ?_ ?_ ?_ ?_ ?_ ?_ ?_ k l v h
  · -- `null`
    intro k _ r _
    exact .null rfl
  · -- `true`
    intro k _ r _
    exact .true rfl
  · -- `false`
    intro k _ r _
    exact .false rfl
  · -- a number
    intro k t ht _ r hend
    rw [bytes_number ht]
    exact .number (number_of_text ht) hend
  · -- a string
    intro k l cs hl hkeeps r _
    rw [bytes_cons (by decide)]
    exact .string (.inl rfl) (quoted_of_chars hl hkeeps.tail r)
  · -- an empty array
    intro k w hw _ r _
    have htext : bytes ('[' :: (w ++ [']'])) ++ r = '[' :: (bytes w ++ ']' :: r) := by
      simp [bytes_cons]
    rw [htext]
    exact .array (blanks_ws hw .nil) .close
  · -- an array
    intro k l vs _ ih hkeeps r _
    rcases ih (hkeeps.of_infix ⟨['['], [']'], rfl⟩) [] r with ⟨l', hblanks, helements⟩
    have htext : bytes ('[' :: (l ++ [']'])) ++ r = '[' :: (bytes l ++ ']' :: r) := by
      simp [bytes_cons]
    rw [htext]
    exact .array hblanks helements
  · -- an empty object
    intro k w hw _ r _
    have htext : bytes ('\x7b' :: (w ++ ['\x7d'])) ++ r = '\x7b' :: (bytes w ++ '\x7d' :: r) := by
      simp [bytes_cons]
    rw [htext]
    exact .object (blanks_ws hw .nil) .close
  · -- an object
    intro k l ms _ ih hkeeps r _
    rcases ih (hkeeps.of_infix ⟨['\x7b'], ['\x7d'], rfl⟩) [] r with ⟨l', hblanks, hmembers⟩
    have htext : bytes ('\x7b' :: (l ++ ['\x7d'])) ++ r = '\x7b' :: (bytes l ++ '\x7d' :: r) := by
      simp [bytes_cons]
    rw [htext]
    exact .object hblanks hmembers
  · -- the last element
    intro k w l w' v hw _ hw' ih hkeeps ws r
    have hl : KeepsPairs l := hkeeps.of_infix ⟨w, w', rfl⟩
    have htext : bytes (w ++ l ++ w') ++ ']' :: r =
        bytes w ++ (bytes l ++ (bytes w' ++ ']' :: r)) := by
      simp
    rw [htext]
    exact ⟨_, blanks_ws hw .nil, .last (ih hl _ (end_ws hw' rfl)) (blanks_ws hw' .nil)⟩
  · -- an element and a comma
    intro k w l w' l' v vs hw _ hw' _ ih ihmore hkeeps ws r
    have hl : KeepsPairs l := hkeeps.of_infix ⟨w, w' ++ ',' :: l', by simp⟩
    have hl' : KeepsPairs l' := hkeeps.of_infix ⟨w ++ l ++ w' ++ [','], [], by simp⟩
    rcases ihmore hl' (ws ++ [jsonOf v]) r with ⟨l'', hblanks, hmore⟩
    rw [← List.append_cons] at hmore
    have htext : bytes (w ++ l ++ w' ++ ',' :: l') ++ ']' :: r =
        bytes w ++ (bytes l ++ (bytes w' ++ ',' :: (bytes l' ++ ']' :: r))) := by
      simp [bytes_cons]
    rw [htext]
    exact ⟨_, blanks_ws hw .nil,
      .next (ih hl _ (end_ws hw' rfl)) (blanks_ws hw' .nil) hblanks hmore⟩
  · -- the last member
    intro k w name w₁ w₂ l w' cs v hw hname hw₁ hw₂ _ hw' ih hkeeps ns r
    have hn : KeepsPairs name := hkeeps.of_infix
      ⟨w ++ ['"'], w₁ ++ ':' :: w₂ ++ l ++ w', by simp⟩
    have hl : KeepsPairs l := hkeeps.of_infix
      ⟨w ++ '"' :: name ++ w₁ ++ ':' :: w₂, w', rfl⟩
    have htext : bytes (w ++ '"' :: name ++ w₁ ++ ':' :: w₂ ++ l ++ w') ++ '\x7d' :: r =
        bytes w ++ ('"' :: (bytes name ++ (bytes w₁ ++ ':' :: (bytes w₂ ++ (bytes l ++
          (bytes w' ++ '\x7d' :: r)))))) := by
      simp [bytes_cons]
    rw [htext]
    exact ⟨_, blanks_ws hw .nil, .last (.inl rfl) (quoted_of_chars hname hn _) (blanks_ws hw₁ .nil)
      (blanks_ws hw₂ .nil) (ih hl _ (end_ws hw' rfl)) (blanks_ws hw' .nil)⟩
  · -- a member and a comma
    intro k w name w₁ w₂ l w' l' cs v ms hw hname hw₁ hw₂ _ hw' _ ih ihmore hkeeps ns r
    have hn : KeepsPairs name := hkeeps.of_infix
      ⟨w ++ ['"'], w₁ ++ ':' :: w₂ ++ l ++ w' ++ ',' :: l', by simp⟩
    have hl : KeepsPairs l := hkeeps.of_infix
      ⟨w ++ '"' :: name ++ w₁ ++ ':' :: w₂, w' ++ ',' :: l', by simp⟩
    have hl' : KeepsPairs l' := hkeeps.of_infix
      ⟨w ++ '"' :: name ++ w₁ ++ ':' :: w₂ ++ l ++ w' ++ [','], [], by simp⟩
    rcases ihmore hl' (Assoc.set (upToNul (bytes cs)) (jsonOf v) ns) r with ⟨l'', hblanks, hmore⟩
    have htext :
        bytes (w ++ '"' :: name ++ w₁ ++ ':' :: w₂ ++ l ++ w' ++ ',' :: l') ++ '\x7d' :: r =
        bytes w ++ ('"' :: (bytes name ++ (bytes w₁ ++ ':' :: (bytes w₂ ++ (bytes l ++
          (bytes w' ++ ',' :: (bytes l' ++ '\x7d' :: r))))))) := by
      simp [bytes_cons]
    rw [htext]
    exact ⟨_, blanks_ws hw .nil, .next (.inl rfl) (quoted_of_chars hname hn _) (blanks_ws hw₁ .nil)
      (blanks_ws hw₂ .nil) (ih hl _ (end_ws hw' rfl)) (blanks_ws hw' .nil) hblanks hmore⟩

/-- Every text of the RFC's grammar in which no pair is replaced is read, with the value
that it stands for. -/
theorem standard_text_accepted {l : List Char} {v : JsonText.Value} (h : JsonText.TextOf 31 l v)
    (hkeeps : KeepsPairs l) (hlen : (bytes l).length ≤ INT_MAX.1) :
    jsonTokenerParseVerbose (bytes l) = some (.success, jsonOf v) := by
  cases h with
  | @mk w l w' _ hw hv hw' =>
    have hl : KeepsPairs l := hkeeps.of_infix ⟨w, w', rfl⟩
    have hvalue := value_of_denotes hv hl (bytes w') (by simpa using end_ws hw' (r := []) rfl)
    have hafter : Blanks (bytes w') [] := by simpa using blanks_ws hw' (.nil (r := []))
    refine parseVerbose_iff.mpr ⟨?_, ?_⟩
    · have hle : (upToNul (bytes (w ++ l ++ w'))).length ≤ (bytes (w ++ l ++ w')).length :=
        (List.takeWhile_prefix _).length_le
      omega
    · rw [bytes_append, bytes_append, List.append_assoc]
      exact .whole (blanks_ws hw .nil) hvalue hafter ⟨rfl, by decide⟩

/-- An array of a number and of a string with a character of two bytes and a pair. -/
theorem standard_text_accepted_array :
    jsonTokenerParseVerbose (bytes "[1, \"é\\ud83d\\ude00\"]".toList) =
      some (.success, .array [.int 1, .string (bytes ['é', '😀'])]) := by
  have hdigit : Digits ['1'] := ⟨by decide, fun c hc => by rw [List.mem_singleton.mp hc]; rfl⟩
  have hone : NumberText ([] ++ ['1'] ++ [] ++ []) :=
    .mk (.inl rfl) (.digits hdigit (by decide)) .absent .absent
  have hpair : Chars "\\ud83d\\ude00\"".toList ['😀'] :=
    .surrogates (u := 0xD83D) (v := 0xDE00) rfl (by decide) (by decide) rfl (by decide)
      (by decide) rfl .quotationMark
  have hstring : Denotes 30 "\"é\\ud83d\\ude00\"".toList (.string ['é', '😀']) :=
    .string (.unescaped (by decide) (by decide) (by decide) hpair)
  have hnone : JsonText.Ws [] := fun _ h => absurd h List.not_mem_nil
  have hblank : JsonText.Ws [' '] := fun _ h => .inl (List.mem_singleton.mp h)
  have htext : JsonText.TextOf 31 "[1, \"é\\ud83d\\ude00\"]".toList
      (.array [.number ['1'], .string ['é', '😀']]) :=
    .mk hnone (.array (.next hnone (.number hone) hnone (.last hblank hstring hnone))) hnone
  have hkeeps : KeepsPairs "[1, \"é\\ud83d\\ude00\"]".toList := by
    rintro e he ⟨hu, -, -, hv, -, -, hreplaced⟩
    simp [List.infix_cons_iff] at he
    obtain ⟨rfl, rfl, rfl, rfl, rfl, rfl, rfl, rfl⟩ := he
    cases hu
    cases hv
    revert hreplaced
    unfold IsHigh IsLow decodeSurrogatePair
    decide
  exact standard_text_accepted htext hkeeps (length_le_INT_MAX (by decide))

end MqttMsgHub
