import Mathlib.Data.List.Find
import MqttMsgHub.CTypes
import MqttMsgHub.Lib.JsonString
import MqttMsgHub.Lib.Ptr

/-! # `string_json_friendly`

`stringutils.c` escapes a string in place: the replacements are collected in a
block of twice the string's length, which is then copied back over the string. The
string is given as the buffer it stands in, `s ++ 0 :: room`.

* `newstr_eq` — what is written to the block, and that it fits just when a
  byte is not replaced;
* `chars_jsonChars_iff` — the replacements read back as JSON, character by
  character;
* `json_friendly_iff` — when the result is a literal for the string.
-/

namespace MqttMsgHub

open JsonString

/-! ## The code -/

/-- `json_replace_char`. -/
structure JsonReplaceChar where
  replaceChar : Char
  withString : Text

def gJsonReplaceChars : List JsonReplaceChar :=
  [⟨'\\', ['\\', '\\']⟩,
   ⟨'/', ['\\', '/']⟩,
   ⟨'\x08', ['\\', 'b']⟩,
   ⟨'\x0c', ['\\', 'f']⟩,
   ⟨'\n', ['\\', 'n']⟩,
   ⟨'\r', ['\\', 'r']⟩,
   ⟨'\t', ['\\', 't']⟩,
   ⟨'\'', ['\\', '\'']⟩,
   ⟨'"', ['\\', '"']⟩]

def findJsonReplaceChar (c : UInt8) : Option JsonReplaceChar :=
  gJsonReplaceChars.find? fun jrc => jrc.replaceChar.toUInt8 == c

/-- `while(*p)`, on the block with `q` and on the cells from `p` on. -/
def jsonReplaceLoop (m : List UInt8 × ℤ) : List UInt8 → Option (List UInt8 × ℤ)
  | [] => none
  | c :: p =>
    if c = 0 then some m
    else
      match findJsonReplaceChar c with
      | some jrc => do
        let m ← (jrc.withString.map Char.toUInt8).foldlM Ptr.put m
        jsonReplaceLoop m p
      | none => do
        let m ← Ptr.put m c
        jsonReplaceLoop m p

/-- `newstr` before it is copied: the block of `malloc` holds what the heap held
there. -/
def newstr (heap : ℕ → UInt8) (str : List UInt8) : Option (List UInt8) := do
  let len ← strlen str
  let m ← jsonReplaceLoop ((List.range (len * 2)).map heap, 0) str
  Ptr.write m.1 m.2 0

/-- `string_json_friendly`, on the caller's buffer; `none` when an access leaves a buffer. -/
def stringJsonFriendly (heap : ℕ → UInt8) (str : List UInt8) : Option (List UInt8) := do
  let block ← newstr heap str
  Ptr.copyInto 0 str block

/-! ## What is written -/

variable {heap : ℕ → UInt8} {s room : List UInt8}

/-- The bytes that stand for a byte in the result. -/
def jsonBytes (c : UInt8) : List UInt8 :=
  match findJsonReplaceChar c with
  | some jrc => jrc.withString.map Char.toUInt8
  | none => [c]

/-- The byte is replaced. -/
def isReplaced (c : UInt8) : Bool := (findJsonReplaceChar c).isSome

/-- Every replacement is two characters, none of them NUL. -/
theorem withString_of_mem {jrc : JsonReplaceChar} (h : jrc ∈ gJsonReplaceChars) :
    jrc.withString.length = 2 ∧ 0 ∉ jrc.withString.map Char.toUInt8 := by
  revert jrc
  decide

theorem length_jsonBytes (c : UInt8) : (jsonBytes c).length = if isReplaced c then 2 else 1 := by
  unfold jsonBytes isReplaced
  cases hfind : findJsonReplaceChar c with
  | none => rfl
  | some jrc =>
    have hmem : jrc ∈ gJsonReplaceChars := List.mem_of_find?_eq_some hfind
    rw [List.length_map, (withString_of_mem hmem).1]
    rfl

theorem length_flatMap_jsonBytes (s : List UInt8) :
    (s.flatMap jsonBytes).length = s.length + s.countP isReplaced := by
  induction s with
  | nil => rfl
  | cons c s ih =>
    rw [List.flatMap_cons, List.length_append, ih, length_jsonBytes, List.length_cons,
      List.countP_cons]
    split <;> omega

theorem zero_notMem_jsonBytes {c : UInt8} (hc : c ≠ 0) : 0 ∉ jsonBytes c := by
  unfold jsonBytes
  cases hfind : findJsonReplaceChar c with
  | none => simpa using hc.symm
  | some jrc => exact (withString_of_mem (List.mem_of_find?_eq_some hfind)).2

theorem zero_notMem_flatMap_jsonBytes (hs : 0 ∉ s) : 0 ∉ s.flatMap jsonBytes := by
  rw [List.mem_flatMap]
  rintro ⟨c, hc, hzero⟩
  exact zero_notMem_jsonBytes (ne_of_mem_of_not_mem hc hs) hzero

/-- The loop writes the replacements one behind the other and stops at the NUL. -/
theorem jsonReplaceLoop_eq (hs : 0 ∉ s) (room : List UInt8) (m : List UInt8 × ℤ) :
    jsonReplaceLoop m (s ++ 0 :: room) = (s.flatMap jsonBytes).foldlM Ptr.put m := by
  induction s generalizing m with
  | nil => rfl
  | cons c s ih =>
    rw [List.mem_cons, not_or] at hs
    rw [List.cons_append, jsonReplaceLoop, if_neg (Ne.symm hs.1), List.flatMap_cons,
      List.foldlM_append, jsonBytes]
    cases findJsonReplaceChar c with
    | some jrc => simp only [ih hs.2]
    | none => simp only [ih hs.2, List.foldlM_cons, List.foldlM_nil, bind_pure]

/-- Replacing every byte leaves no room for the NUL; one byte kept is enough. -/
theorem newstr_fits_iff (s : List UInt8) :
    (s.flatMap jsonBytes).length < s.length * 2 ↔ ∃ c ∈ s, findJsonReplaceChar c = none := by
  have hle : s.countP isReplaced ≤ s.length := List.countP_le_length
  have hall : s.countP isReplaced = s.length ↔ ∀ c ∈ s, isReplaced c = true := List.countP_eq_length
  rw [length_flatMap_jsonBytes]
  constructor
  · intro hlt
    by_contra hnone
    have hreplaced : s.countP isReplaced = s.length := by
      apply hall.mpr
      intro c hc
      exact Option.isSome_iff_ne_none.mpr fun h => hnone ⟨c, hc, h⟩
    omega
  · rintro ⟨c, hc, hnone⟩
    have hne : s.countP isReplaced ≠ s.length := by
      intro h
      have hreplaced := hall.mp h c hc
      rw [isReplaced, hnone] at hreplaced
      cases hreplaced
    omega

/-- The block that is copied back: every write stays in it just when the replacements
and the NUL fit. -/
theorem newstr_eq (hs : 0 ∉ s) (heap : ℕ → UInt8) (room : List UInt8) :
    (∃ rest, (s.flatMap jsonBytes).length < s.length * 2 ∧
        newstr heap (s ++ 0 :: room) = some (s.flatMap jsonBytes ++ 0 :: rest)) ∨
      (s.length * 2 ≤ (s.flatMap jsonBytes).length ∧ newstr heap (s ++ 0 :: room) = none) := by
  set bytes := s.flatMap jsonBytes with hbytes
  set block := (List.range (s.length * 2)).map heap with hblock
  have hlength : block.length = s.length * 2 := by rw [hblock, List.length_map, List.length_range]
  have hloop : newstr heap (s ++ 0 :: room) =
      (if bytes.length ≤ block.length then some (bytes ++ block.drop bytes.length, (bytes.length : ℤ))
        else none) >>= fun m => Ptr.write m.1 m.2 0 := by
    have hput := Ptr.foldlM_put (a := []) (s := bytes) (b := block) (p := 0) rfl
    rw [List.nil_append, List.nil_append, Int.zero_add] at hput
    rw [newstr, strlen_append hs, ← hput, ← jsonReplaceLoop_eq hs room]
    rfl
  rw [hloop]
  by_cases hfits : bytes.length < block.length
  · left
    rw [if_pos hfits.le, List.drop_eq_getElem_cons hfits]
    exact ⟨_, hlength ▸ hfits, Ptr.write_append rfl 0⟩
  · right
    refine ⟨hlength ▸ not_lt.mp hfits, ?_⟩
    by_cases hle : bytes.length ≤ block.length
    · -- the replacements fill the block, the NUL is written behind it
      have hdrop : block.drop bytes.length = [] := List.drop_eq_nil_iff.mpr (not_lt.mp hfits)
      rw [if_pos hle, hdrop, List.append_nil]
      exact if_neg fun h => (lt_irrefl _ h.2)
    · rw [if_neg hle]
      rfl

/-! ## The replacements as JSON -/

/-- `findJsonReplaceChar` on a character of Unicode. -/
def jsonReplaceChar (c : Char) : Option JsonReplaceChar :=
  gJsonReplaceChars.find? fun jrc => jrc.replaceChar == c

/-- The characters that stand for a character in the result. -/
def jsonChars (c : Char) : List Char :=
  match jsonReplaceChar c with
  | some jrc => jrc.withString
  | none => [c]

/-- JSON has an escape for the byte as the table writes it, or none is needed. -/
def JsonByte (c : UInt8) : Prop := c ≠ '\''.toUInt8 ∧ (c < ' '.toUInt8 → isReplaced c = true)

/-- `JsonByte` on a character of Unicode. -/
def JsonChar (c : Char) : Prop := c ≠ '\'' ∧ (c < ' ' → (jsonReplaceChar c).isSome)

/-- The table is in ASCII. -/
theorem ascii_of_mem {jrc : JsonReplaceChar} (h : jrc ∈ gJsonReplaceChars) :
    jrc.replaceChar.toNat < 128 ∧ jrc.replaceChar.toUInt8 < 128 ∧
      utf8 jrc.withString = jrc.withString.map Char.toUInt8 := by
  revert jrc
  decide

theorem findJsonReplaceChar_toUInt8 {c : Char} (hc : c.toNat < 128) :
    findJsonReplaceChar c.toUInt8 = jsonReplaceChar c := by
  unfold findJsonReplaceChar jsonReplaceChar
  apply List.find?_congr
  intro jrc hmem
  rw [Bool.eq_iff_iff, beq_iff_eq, beq_iff_eq]
  exact toUInt8_eq_iff (ascii_of_mem hmem).1 hc

theorem findJsonReplaceChar_of_ge {b : UInt8} (hb : 128 ≤ b) : findJsonReplaceChar b = none := by
  apply List.find?_eq_none.mpr
  intro jrc hmem heq
  rw [beq_iff_eq] at heq
  exact UInt8.not_lt.mpr hb (heq ▸ (ascii_of_mem hmem).2.1)

theorem jsonReplaceChar_of_ge {c : Char} (hc : 128 ≤ c.toNat) : jsonReplaceChar c = none := by
  apply List.find?_eq_none.mpr
  intro jrc hmem heq
  rw [beq_iff_eq] at heq
  exact absurd (heq ▸ (ascii_of_mem hmem).1) (not_lt.mpr hc)

/-- Byte by byte, a character gets the bytes of its replacement. -/
theorem flatMap_jsonBytes_encode (c : Char) :
    (String.utf8EncodeChar c).flatMap jsonBytes = utf8 (jsonChars c) := by
  rcases encode_cases c with ⟨hc, hencode⟩ | ⟨hc, hbytes⟩
  · rw [hencode, List.flatMap_singleton, jsonBytes, jsonChars, findJsonReplaceChar_toUInt8 hc]
    cases hfind : jsonReplaceChar c with
    | none => simp [hencode]
    | some jrc => exact (ascii_of_mem (List.mem_of_find?_eq_some hfind)).2.2.symm
  · have hkept : (String.utf8EncodeChar c).flatMap jsonBytes =
        (String.utf8EncodeChar c).flatMap fun b => [b] := by
      apply List.flatMap_congr
      intro b hb
      rw [jsonBytes, findJsonReplaceChar_of_ge (hbytes b hb)]
    rw [hkept, jsonChars, jsonReplaceChar_of_ge hc]
    simp

theorem flatMap_jsonBytes_utf8 (cs : List Char) :
    (utf8 cs).flatMap jsonBytes = utf8 (cs.flatMap jsonChars) := by
  induction cs with
  | nil => rfl
  | cons c cs ih =>
    rw [utf8_cons, List.flatMap_append, flatMap_jsonBytes_encode, ih, List.flatMap_cons, utf8_append]

theorem jsonByte_encode_iff (c : Char) :
    (∀ b ∈ String.utf8EncodeChar c, JsonByte b) ↔ JsonChar c := by
  rcases encode_cases c with ⟨hc, hencode⟩ | ⟨hc, hbytes⟩
  · rw [hencode, List.forall_mem_singleton, JsonByte, JsonChar, isReplaced,
      findJsonReplaceChar_toUInt8 hc, toUInt8_lt_iff hc (by decide), ne_eq, ne_eq,
      toUInt8_eq_iff hc (by decide)]
  · constructor
    · intro _
      constructor
      · rintro rfl
        revert hc
        decide
      · intro hlt
        have hsmall : c.toNat < 32 := hlt
        omega
    · intro _ b hb
      have hge : 128 ≤ b := hbytes b hb
      constructor
      · rintro rfl
        revert hge
        decide
      · intro hlt
        exact absurd (UInt8.lt_trans hlt (by decide)) (UInt8.not_lt.mpr hge)

/-- A replacement is an escape of JSON for its character, the apostrophe's apart. -/
theorem unescape_of_mem {jrc : JsonReplaceChar} (h : jrc ∈ gJsonReplaceChars) :
    ∃ e, jrc.withString = ['\\', e] ∧ e ≠ 'u' ∧
      unescape e = if jrc.replaceChar = '\'' then none else some jrc.replaceChar := by
  simp only [gJsonReplaceChars, List.mem_cons, List.not_mem_nil, or_false] at h
  rcases h with rfl | rfl | rfl | rfl | rfl | rfl | rfl | rfl | rfl <;>
    exact ⟨_, rfl, by decide, by decide⟩

/-- One character: its replacement is read as the character, or not at all. -/
theorem chars_jsonChars_iff (c : Char) (l v : List Char) :
    Chars (jsonChars c ++ l) v ↔ JsonChar c ∧ ∃ v', v = c :: v' ∧ Chars l v' := by
  unfold jsonChars JsonChar
  cases hfind : jsonReplaceChar c with
  | some jrc =>
    have hc : jrc.replaceChar = c := by simpa using List.find?_some hfind
    rcases unescape_of_mem (List.mem_of_find?_eq_some hfind) with ⟨e, hwith, hu, hunescape⟩
    rw [hc] at hunescape
    show Chars (jrc.withString ++ l) v ↔ _
    rw [hwith, List.cons_append, List.singleton_append, chars_escape_iff hu, hunescape]
    by_cases hquote : c = '\''
    · simp [hquote]
    · simp [hquote]
  | none =>
    -- the table has the quotation mark, the backslash and the apostrophe
    have hne : ∀ d, (jsonReplaceChar d).isSome → c ≠ d := by
      rintro d hd rfl
      rw [hfind] at hd
      cases hd
    show Chars (c :: l) v ↔ _
    rw [chars_unescaped_iff (hne '"' (by decide)) (hne '\\' (by decide))]
    have hspace : ' ' ≤ c ↔ c ≠ '\'' ∧ (c < ' ' → (none : Option JsonReplaceChar).isSome) := by
      have hquote : c ≠ '\'' := hne '\'' (by decide)
      simp [hquote]
    rw [hspace]

/-- The whole string, in front of the closing quotation mark. -/
theorem chars_flatMap_iff (cs v : List Char) :
    Chars (cs.flatMap jsonChars ++ ['"']) v ↔ (∀ c ∈ cs, JsonChar c) ∧ v = cs := by
  induction cs generalizing v with
  | nil =>
    rw [List.flatMap_nil, List.nil_append, chars_quote_iff]
    simp
  | cons c cs ih =>
    rw [List.flatMap_cons, List.append_assoc, chars_jsonChars_iff, List.forall_mem_cons]
    constructor
    · rintro ⟨hc, v', rfl, hrest⟩
      rcases (ih v').mp hrest with ⟨hcs, rfl⟩
      exact ⟨⟨hc, hcs⟩, rfl⟩
    · rintro ⟨⟨hc, hcs⟩, rfl⟩
      exact ⟨hc, cs, rfl, (ih cs).mpr ⟨hcs, rfl⟩⟩

theorem jsonByte_utf8_iff (cs : List Char) :
    (∀ b ∈ utf8 cs, JsonByte b) ↔ ∀ c ∈ cs, JsonChar c := by
  induction cs with
  | nil => simp
  | cons c cs ih =>
    rw [utf8_cons, List.forall_mem_append, List.forall_mem_cons, jsonByte_encode_iff, ih]

/-- `"`, as a byte. -/
def quotationMark : UInt8 := '"'.toUInt8

/-- The replaced bytes as a literal, whatever buffer they stand in. -/
theorem denotes_jsonBytes_iff (s : List UInt8) :
    Denotes (quotationMark :: s.flatMap jsonBytes ++ [quotationMark]) s ↔
      (∃ cs, s = utf8 cs) ∧ ∀ c ∈ s, JsonByte c := by
  have hliteral : ∀ cs, quotationMark :: (utf8 cs).flatMap jsonBytes ++ [quotationMark] =
      utf8 ('"' :: (cs.flatMap jsonChars ++ ['"'])) := by
    intro cs
    rw [flatMap_jsonBytes_utf8, utf8_cons, utf8_append]
    rfl
  constructor
  · rintro ⟨l, cs, hl, hchars, rfl⟩
    rw [hliteral] at hl
    have htail : cs.flatMap jsonChars ++ ['"'] = l := (List.cons.inj (utf8_injective hl)).2
    rw [← htail, chars_flatMap_iff] at hchars
    exact ⟨⟨cs, rfl⟩, (jsonByte_utf8_iff cs).mpr hchars.1⟩
  · rintro ⟨⟨cs, rfl⟩, hbytes⟩
    refine ⟨_, cs, hliteral cs, ?_, rfl⟩
    exact (chars_flatMap_iff cs cs).mpr ⟨(jsonByte_utf8_iff cs).mp hbytes, rfl⟩

/-! ## The call -/

/-- The bytes of the string in a buffer. -/
def cBytes (buf : List UInt8) : List UInt8 := buf.takeWhile (· ≠ 0)

/-- The call writes to the bytes of its buffers only, and what it leaves is, between
quotation marks, a literal for `s`. -/
def JsonFriendly (heap : ℕ → UInt8) (s room : List UInt8) : Prop :=
  ∃ buf, stringJsonFriendly heap (s ++ 0 :: room) = some buf ∧
    Denotes (quotationMark :: cBytes buf ++ [quotationMark]) s

/-- Both buffers have room, or the call leaves one of them. -/
theorem stringJsonFriendly_eq_some_iff (hs : 0 ∉ s) (buf : List UInt8) :
    stringJsonFriendly heap (s ++ 0 :: room) = some buf ↔
      (∃ c ∈ s, findJsonReplaceChar c = none) ∧ s.countP isReplaced ≤ room.length ∧
        buf = s.flatMap jsonBytes ++ 0 :: room.drop (s.countP isReplaced) := by
  have hlength := length_flatMap_jsonBytes s
  rcases newstr_eq hs heap room with ⟨rest, hfits, hnew⟩ | ⟨hfull, hnew⟩
  · rw [stringJsonFriendly, hnew, Option.bind_eq_bind, Option.bind_some,
      Ptr.copyInto_eq (zero_notMem_flatMap_jsonBytes hs)]
    have hroom : (s.flatMap jsonBytes).length < (s ++ 0 :: room).length ↔
        s.countP isReplaced ≤ room.length := by
      rw [List.length_append, List.length_cons]
      omega
    have hdrop : (s ++ 0 :: room).drop ((s.flatMap jsonBytes).length + 1) =
        room.drop (s.countP isReplaced) := by
      rw [hlength, Nat.add_assoc, List.drop_length_add_append, List.drop_succ_cons]
    rw [hdrop]
    simp only [hroom, (newstr_fits_iff s).mp hfits, true_and]
    split
    · rename_i hle
      simp [hle, eq_comm]
    · rename_i hle
      simp [hle]
  · have hnone : ¬ ∃ c ∈ s, findJsonReplaceChar c = none := by
      rw [← newstr_fits_iff]
      omega
    rw [stringJsonFriendly, hnew]
    simp [hnone]

theorem cBytes_append (hs : 0 ∉ s) (rest : List UInt8) : cBytes (s ++ 0 :: rest) = s := by
  unfold cBytes
  rw [List.takeWhile_append_of_pos]
  · simp
  · intro c hc
    rw [decide_eq_true_eq]
    exact ne_of_mem_of_not_mem hc hs

/-- The result is a literal for the string just when a byte of it is kept, the buffer
has room for the bytes that are added, the string is UTF-8, it has no apostrophe, and
every control character of it is in the table. -/
theorem json_friendly_iff (heap : ℕ → UInt8) (s room : List UInt8) (hs : 0 ∉ s) :
    JsonFriendly heap s room ↔
      (∃ c ∈ s, findJsonReplaceChar c = none) ∧ s.countP isReplaced ≤ room.length ∧
        (∃ cs, s = utf8 cs) ∧ ∀ c ∈ s, JsonByte c := by
  have hresult : ∀ rest, cBytes (s.flatMap jsonBytes ++ 0 :: rest) = s.flatMap jsonBytes := by
    intro rest
    exact cBytes_append (zero_notMem_flatMap_jsonBytes hs) rest
  constructor
  · rintro ⟨buf, hcall, hdenotes⟩
    rcases (stringJsonFriendly_eq_some_iff hs buf).mp hcall with ⟨hkept, hroom, rfl⟩
    rw [hresult, denotes_jsonBytes_iff] at hdenotes
    exact ⟨hkept, hroom, hdenotes⟩
  · rintro ⟨hkept, hroom, hjson⟩
    refine ⟨_, (stringJsonFriendly_eq_some_iff hs _).mpr ⟨hkept, hroom, rfl⟩, ?_⟩
    rw [hresult, denotes_jsonBytes_iff]
    exact hjson

/-- `a"b`, in a buffer of five bytes. -/
theorem json_friendly_iff_quoted : JsonFriendly (fun _ => 0) (utf8 ['a', '"', 'b']) [0] := by
  rw [json_friendly_iff _ _ _ (by decide)]
  refine ⟨⟨'a'.toUInt8, by decide, by decide⟩, by decide, ⟨_, rfl⟩, ?_⟩
  rw [jsonByte_utf8_iff]
  simp only [List.forall_mem_cons, List.not_mem_nil, JsonChar]
  exact ⟨⟨by decide, by decide⟩, ⟨by decide, by decide⟩, ⟨by decide, by decide⟩, by simp⟩

/-- A line feed, in a buffer of four bytes: three are written to the two of `newstr`. -/
theorem line_feed_not_json_friendly :
    ¬ ∀ heap s room, 0 ∉ s → s.length ≤ room.length → JsonFriendly heap s room := by
  intro h
  rcases h (fun _ => 0) (utf8 ['\n']) [0, 0] (by decide) (by decide) with ⟨buf, hcall, _⟩
  have hnone : stringJsonFriendly (fun _ => 0) (utf8 ['\n'] ++ 0 :: [0, 0]) = none := by decide
  rw [hnone] at hcall
  cases hcall

end MqttMsgHub
