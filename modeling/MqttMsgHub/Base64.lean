import Mathlib.Logic.Function.Basic
import MqttMsgHub.CTypes
import MqttMsgHub.Lib.Loop

/-! # Base64

`base64.c`: the encoder and the decoder walk over their input by index, with a
`switch` on the index modulo 3 and modulo 4. A read outside of the input and a
write outside of the output buffer are undefined.

* `base64Encrypt_eq` — the text is the list of the sextets of the input, filled
  up with `=`;
* `base64Decrypt_encoded` — the decoder gives the input back and touches no
  other byte of its buffer;
* `encoded_fits` — `calc_base64_encrypted_size` is enough for every length.
-/

namespace MqttMsgHub

open Loop

/-! ## The encoder -/

/-- `base64en`. -/
def base64en : Text :=
  ['A', 'B', 'C', 'D', 'E', 'F', 'G', 'H',
   'I', 'J', 'K', 'L', 'M', 'N', 'O', 'P',
   'Q', 'R', 'S', 'T', 'U', 'V', 'W', 'X',
   'Y', 'Z', 'a', 'b', 'c', 'd', 'e', 'f',
   'g', 'h', 'i', 'j', 'k', 'l', 'm', 'n',
   'o', 'p', 'q', 'r', 's', 't', 'u', 'v',
   'w', 'x', 'y', 'z', '0', '1', '2', '3',
   '4', '5', '6', '7', '8', '9', '+', '/']

/-- `a - b` on `unsigned long`. -/
def ulongSub (a b : ℕ) : ℕ := (a + (18446744073709551616 - b)) % 18446744073709551616

/-- `out[j++] = c` in a buffer of `size` bytes, where `j` characters have been
written. -/
def putChar (size : ℕ) (out : Text) (c : Char) : Option Text :=
  if out.length < size then some (out ++ [c]) else none

/-- `out[j++] = base64en[v]`. -/
def putSextet (size : ℕ) (out : Text) (v : ℕ) : Option Text :=
  base64en[v]?.bind (putChar size out)

/-- One iteration of the loop of `base64_encrypt`. -/
def base64EncryptBody (inp : List UInt8) (size i : ℕ) (out : Text) : Option (Flow Text Empty) :=
  match i % 3 with
  | 0 => do
    let b ← inp[i]?
    let out ← putSextet size out ((b.toNat >>> 2) &&& 0x3F)
    return .next out
  | 1 => do
    let a ← inp[i - 1]?
    let b ← inp[i]?
    let out ← putSextet size out (((a.toNat &&& 0x3) <<< 4) + ((b.toNat >>> 4) &&& 0xF))
    return .next out
  | _ => do
    let a ← inp[i - 1]?
    let b ← inp[i]?
    let out ← putSextet size out (((a.toNat &&& 0xF) <<< 2) + ((b.toNat >>> 6) &&& 0x3))
    let out ← putSextet size out (b.toNat &&& 0x3F)
    return .next out

/-- The padding after the loop; `i` is the index of the last byte. -/
def base64Pad (inp : List UInt8) (size i : ℕ) (out : Text) : Option Text :=
  if i % 3 = 0 then do
    let b ← inp[i]?
    let out ← putSextet size out ((b.toNat &&& 0x3) <<< 4)
    let out ← putChar size out '='
    putChar size out '='
  else if i % 3 = 1 then do
    let b ← inp[i]?
    let out ← putSextet size out ((b.toNat &&& 0xF) <<< 2)
    putChar size out '='
  else some out

/-- `base64_encrypt` into a buffer of `size` bytes: the string that it leaves
there. -/
def base64Encrypt (inp : List UInt8) (inlen size : ℕ) : Option Text :=
  match forLoop (base64EncryptBody inp size) 0 inlen [] with
  | some (.next out) => do
    let out ← base64Pad inp size (ulongSub inlen 1) out
    -- out[j] = 0
    if out.length < size then some out else none
  | _ => none

/-- `calc_base64_encrypted_size`, on `unsigned long`. -/
def calcBase64EncryptedSize (inputSize : ℕ) : ℕ :=
  (inputSize * 4 % 18446744073709551616 / 3 + inputSize / 96 + 6) % 18446744073709551616

/-! ## The decoder -/

/-- `BASE64_OK` and `BASE64_INVALID`. -/
inductive Base64Rc where
  | ok
  | invalid
deriving Repr, DecidableEq

/-- `base64de`. -/
def base64de : List ℤ :=
  [62, -1, -1, -1, 63, 52, 53, 54,
   55, 56, 57, 58, 59, 60, 61, -1,
   -1, -1, -1, -1, -1, -1, 0, 1,
   2, 3, 4, 5, 6, 7, 8, 9,
   10, 11, 12, 13, 14, 15, 16, 17,
   18, 19, 20, 21, 22, 23, 24, 25,
   -1, -1, -1, -1, -1, -1, 26, 27,
   28, 29, 30, 31, 32, 33, 34, 35,
   36, 37, 38, 39, 40, 41, 42, 43,
   44, 45, 46, 47, 48, 49, 50, 51]

/-- The value of a character between `BASE64DE_FIRST` and `BASE64DE_LAST` that the
table does not leave out. -/
def base64Value (c : Char) : Option ℕ :=
  if c < '+' || 'z' < c then none
  else
    match base64de[c.toNat - '+'.toNat]? with
    | some v => if v = -1 then none else some v.toNat
    | none => none

/-- A buffer of `size` bytes. -/
structure Buffer where
  size : ℕ
  cell : ℕ → UInt8

/-- `buf[k] = x`, converted to `unsigned char`. -/
def Buffer.set (buf : Buffer) (k x : ℕ) : Buffer :=
  { buf with cell := Function.update buf.cell k (UInt8.ofNat x) }

/-- The same within the bounds of the buffer. -/
def Buffer.store (buf : Buffer) (k x : ℕ) : Option Buffer :=
  if k < buf.size then some (buf.set k x) else none

/-- `buf[k] += x`. -/
def Buffer.add (buf : Buffer) (k x : ℕ) : Option Buffer := buf.store k ((buf.cell k).toNat + x)

/-- The first `n` bytes. -/
def Buffer.bytes (buf : Buffer) (n : ℕ) : List UInt8 := (List.range n).map buf.cell

/-- The variables of `base64_decrypt`. -/
structure DecryptState where
  out : Buffer
  j : ℕ
  outLen : ℕ

/-- `i < bound || in[pos] != '='`, with the short circuit. -/
def notPadded (inp : Text) (i bound pos : ℕ) : Option Bool :=
  if i < bound then some true else inp[pos]?.map (· ≠ '=')

/-- `out[j++] += x; (*outLen)++;` and, where the padding test allows it,
`out[j] = y`. -/
def completeByte (st : DecryptState) (x : ℕ) (more : Bool) (y : ℕ) : Option DecryptState := do
  let out ← st.out.add st.j x
  let out ← if more then out.store (st.j + 1) y else some out
  return ⟨out, st.j + 1, st.outLen + 1⟩

/-- The `switch` of `base64_decrypt` on a character of value `c`. -/
def base64DecryptSwitch (inp : Text) (inlen i c : ℕ) (st : DecryptState) : Option DecryptState :=
  match i % 4 with
  | 0 => do
    let out ← st.out.store st.j ((c <<< 2) &&& 0xFF)
    return { st with out }
  | 1 => do
    let more ← notPadded inp i (ulongSub inlen 3) (ulongSub inlen 2)
    completeByte st ((c >>> 4) &&& 0x3) more ((c &&& 0xF) <<< 4)
  | 2 => do
    let more ← notPadded inp i (ulongSub inlen 2) (ulongSub inlen 1)
    completeByte st ((c >>> 2) &&& 0xF) more ((c &&& 0x3) <<< 6)
  | _ => completeByte st c false 0

/-- One iteration of the loop of `base64_decrypt`. -/
def base64DecryptBody (inp : Text) (inlen i : ℕ) (st : DecryptState) :
    Option (Flow DecryptState (Base64Rc × DecryptState)) := do
  let x ← inp[i]?
  if x = '=' then return .ret (.ok, st)
  else
    match base64Value x with
    | none => return .ret (.invalid, st)
    | some c =>
      let st ← base64DecryptSwitch inp inlen i c st
      return .next st

/-- `base64_decrypt` into the buffer `out`: its result with the buffer and
`*outLen` at the end. -/
def base64Decrypt (inp : Text) (inlen : ℕ) (out : Buffer) : Option (Base64Rc × Buffer × ℕ) :=
  match forLoop (base64DecryptBody inp inlen) 0 inlen ⟨out, 0, 0⟩ with
  | some (.next st) => some (.ok, st.out, st.outLen)
  | some (.ret (rc, st)) => some (rc, st.out, st.outLen)
  | none => none

/-! ## Sextets -/

variable {inp : List UInt8} {size i n k : ℕ} {out : Text}

theorem and_0x3 (x : ℕ) : x &&& 0x3 = x % 4 := Nat.and_two_pow_sub_one_eq_mod x 2

theorem and_0xF (x : ℕ) : x &&& 0xF = x % 16 := Nat.and_two_pow_sub_one_eq_mod x 4

theorem and_0x3F (x : ℕ) : x &&& 0x3F = x % 64 := Nat.and_two_pow_sub_one_eq_mod x 6

theorem and_0xFF (x : ℕ) : x &&& 0xFF = x % 256 := Nat.and_two_pow_sub_one_eq_mod x 8

/-- A byte of the input, 0 behind its end. -/
def byteAt (inp : List UInt8) (k : ℕ) : ℕ := (inp.getD k 0).toNat

theorem byteAt_lt (inp : List UInt8) (k : ℕ) : byteAt inp k < 256 := (inp.getD k 0).toNat_lt

theorem byteAt_of_le (h : inp.length ≤ k) : byteAt inp k = 0 := by
  simp [byteAt, List.getElem?_eq_none h]

theorem getElem?_of_lt (h : k < inp.length) : ∃ b, inp[k]? = some b ∧ b.toNat = byteAt inp k :=
  ⟨inp[k], List.getElem?_eq_getElem h, by simp [byteAt, h]⟩

/-- The `k`-th group of six bits of the input. -/
def sextet (inp : List UInt8) (k : ℕ) : ℕ :=
  match k % 4 with
  | 0 => byteAt inp (k / 4 * 3) / 4
  | 1 => byteAt inp (k / 4 * 3) % 4 * 16 + byteAt inp (k / 4 * 3 + 1) / 16
  | 2 => byteAt inp (k / 4 * 3 + 1) % 16 * 4 + byteAt inp (k / 4 * 3 + 2) / 64
  | _ => byteAt inp (k / 4 * 3 + 2) % 64

theorem sextet_zero (inp : List UInt8) (g : ℕ) : sextet inp (4 * g) = byteAt inp (3 * g) / 4 := by
  have hmod : 4 * g % 4 = 0 := by omega
  have hdiv : 4 * g / 4 * 3 = 3 * g := by omega
  simp only [sextet, hmod, hdiv]

theorem sextet_one (inp : List UInt8) (g : ℕ) :
    sextet inp (4 * g + 1) = byteAt inp (3 * g) % 4 * 16 + byteAt inp (3 * g + 1) / 16 := by
  have hmod : (4 * g + 1) % 4 = 1 := by omega
  have hdiv : (4 * g + 1) / 4 * 3 = 3 * g := by omega
  simp only [sextet, hmod, hdiv]

theorem sextet_two (inp : List UInt8) (g : ℕ) :
    sextet inp (4 * g + 2) = byteAt inp (3 * g + 1) % 16 * 4 + byteAt inp (3 * g + 2) / 64 := by
  have hmod : (4 * g + 2) % 4 = 2 := by omega
  have hdiv : (4 * g + 2) / 4 * 3 = 3 * g := by omega
  simp only [sextet, hmod, hdiv]

theorem sextet_three (inp : List UInt8) (g : ℕ) :
    sextet inp (4 * g + 3) = byteAt inp (3 * g + 2) % 64 := by
  have hmod : (4 * g + 3) % 4 = 3 := by omega
  have hdiv : (4 * g + 3) / 4 * 3 = 3 * g := by omega
  simp only [sextet, hmod, hdiv]

theorem sextet_lt (inp : List UInt8) (k : ℕ) : sextet inp k < 64 := by
  have h₀ := byteAt_lt inp (k / 4 * 3)
  have h₁ := byteAt_lt inp (k / 4 * 3 + 1)
  have h₂ := byteAt_lt inp (k / 4 * 3 + 2)
  unfold sextet
  split <;> omega

/-- The digit of a sextet. -/
def base64Digit (v : ℕ) : Char := base64en.getD v '='

theorem base64en_getElem? {v : ℕ} (h : v < 64) : base64en[v]? = some (base64Digit v) := by
  have hlen : v < base64en.length := h
  simp [base64Digit, hlen]

theorem base64Digit_ne_pad : ∀ v < 64, base64Digit v ≠ '=' := by decide

/-- The two tables belong together. -/
theorem base64Value_digit : ∀ v < 64, base64Value (base64Digit v) = some v := by decide

/-- The digits of the first `m` sextets. -/
def digits (inp : List UInt8) (m : ℕ) : Text := (List.range m).map fun k => base64Digit (sextet inp k)

@[simp] theorem length_digits (inp : List UInt8) (m : ℕ) : (digits inp m).length = m := by
  simp [digits]

theorem digits_succ (inp : List UInt8) (m : ℕ) :
    digits inp (m + 1) = digits inp m ++ [base64Digit (sextet inp m)] := by
  simp [digits, List.range_succ]

/-- How many sextets `n` bytes fill, the last one perhaps in part. -/
def sextetCount (n : ℕ) : ℕ := n + (n + 2) / 3

/-- The length of the text for `n` bytes. -/
def encodedLength (n : ℕ) : ℕ := (n + 2) / 3 * 4

/-- The digits of the input, filled up with `=`. -/
def encoded (inp : List UInt8) : Text :=
  digits inp (sextetCount inp.length) ++
    List.replicate (encodedLength inp.length - sextetCount inp.length) '='

theorem length_encoded (inp : List UInt8) : (encoded inp).length = encodedLength inp.length := by
  simp only [encoded, List.length_append, length_digits, List.length_replicate, sextetCount,
    encodedLength]
  omega

/-! ## What the encoder writes -/

theorem putChar_of_lt {c : Char} (h : out.length < size) :
    putChar size out c = some (out ++ [c]) := by
  rw [putChar, if_pos h]

theorem putSextet_of_lt {m v : ℕ} (hm : m < size) (hv : v = sextet inp m) :
    putSextet size (digits inp m) v = some (digits inp (m + 1)) := by
  have hlen : (digits inp m).length < size := by rwa [length_digits]
  rw [putSextet, hv, base64en_getElem? (sextet_lt inp m), digits_succ]
  exact putChar_of_lt hlen

section Group

variable {g : ℕ}

/-- The first byte of a group fills one sextet. -/
theorem base64EncryptBody_zero (hi : 3 * g < inp.length) (hroom : 4 * g < size) :
    base64EncryptBody inp size (3 * g) (digits inp (4 * g)) =
      some (.next (digits inp (4 * g + 1))) := by
  rcases getElem?_of_lt hi with ⟨b, hb, hbyte⟩
  have hmod : 3 * g % 3 = 0 := by omega
  have hv : b.toNat >>> 2 &&& 0x3F = sextet inp (4 * g) := by
    have hlt := byteAt_lt inp (3 * g)
    rw [sextet_zero, and_0x3F, Nat.shiftRight_eq_div_pow, hbyte]
    omega
  simp only [base64EncryptBody, hmod, hb, Option.bind_eq_bind, Option.bind_some,
    putSextet_of_lt hroom hv]
  rfl

theorem base64EncryptBody_one (hi : 3 * g + 1 < inp.length) (hroom : 4 * g + 1 < size) :
    base64EncryptBody inp size (3 * g + 1) (digits inp (4 * g + 1)) =
      some (.next (digits inp (4 * g + 2))) := by
  rcases getElem?_of_lt hi with ⟨b, hb, hbyte⟩
  rcases getElem?_of_lt (Nat.lt_of_succ_lt hi) with ⟨a, ha, habyte⟩
  have hmod : (3 * g + 1) % 3 = 1 := by omega
  have hv : ((a.toNat &&& 0x3) <<< 4) + (b.toNat >>> 4 &&& 0xF) = sextet inp (4 * g + 1) := by
    have hlt := byteAt_lt inp (3 * g + 1)
    rw [sextet_one, and_0x3, and_0xF, Nat.shiftRight_eq_div_pow, Nat.shiftLeft_eq, hbyte, habyte]
    omega
  simp only [base64EncryptBody, hmod, ha, hb, Nat.add_sub_cancel, Option.bind_eq_bind,
    Option.bind_some, putSextet_of_lt hroom hv]
  rfl

/-- The third byte of a group completes two sextets. -/
theorem base64EncryptBody_two (hi : 3 * g + 2 < inp.length) (hroom : 4 * g + 3 < size) :
    base64EncryptBody inp size (3 * g + 2) (digits inp (4 * g + 2)) =
      some (.next (digits inp (4 * g + 4))) := by
  rcases getElem?_of_lt hi with ⟨b, hb, hbyte⟩
  rcases getElem?_of_lt (Nat.lt_of_succ_lt hi) with ⟨a, ha, habyte⟩
  have hmod : (3 * g + 2) % 3 = 2 := by omega
  have hindex : 3 * g + 2 - 1 = 3 * g + 1 := by omega
  have hv : ((a.toNat &&& 0xF) <<< 2) + (b.toNat >>> 6 &&& 0x3) = sextet inp (4 * g + 2) := by
    have hlt := byteAt_lt inp (3 * g + 2)
    rw [sextet_two, and_0xF, and_0x3, Nat.shiftRight_eq_div_pow, Nat.shiftLeft_eq, hbyte, habyte]
    omega
  have hv' : b.toNat &&& 0x3F = sextet inp (4 * g + 3) := by
    rw [sextet_three, and_0x3F, hbyte]
  simp only [base64EncryptBody, hmod, hindex, ha, hb, Option.bind_eq_bind, Option.bind_some,
    putSextet_of_lt (Nat.lt_of_succ_lt hroom) hv, putSextet_of_lt hroom hv']
  rfl

/-- One byte in the last group: two pads. -/
theorem base64Pad_zero (hlen : inp.length = 3 * g + 1) (hroom : 4 * g + 3 < size) :
    base64Pad inp size (3 * g) (digits inp (4 * g + 1)) =
      some (digits inp (4 * g + 2) ++ List.replicate 2 '=') := by
  rcases getElem?_of_lt (show 3 * g < inp.length by omega) with ⟨b, hb, hbyte⟩
  have hmod : 3 * g % 3 = 0 := by omega
  have hv : (b.toNat &&& 0x3) <<< 4 = sextet inp (4 * g + 1) := by
    rw [sextet_one, byteAt_of_le hlen.le, and_0x3, Nat.shiftLeft_eq, hbyte]
    omega
  simp only [base64Pad, hmod, hb, Option.bind_eq_bind, Option.bind_some, if_true,
    putSextet_of_lt (show 4 * g + 1 < size by omega) hv]
  rw [putChar_of_lt (by rw [length_digits]; omega), Option.bind_some,
    putChar_of_lt (by rw [List.length_append, length_digits, List.length_singleton]; omega),
    List.append_assoc]
  rfl

/-- Two bytes in the last group: one pad. -/
theorem base64Pad_one (hlen : inp.length = 3 * g + 2) (hroom : 4 * g + 3 < size) :
    base64Pad inp size (3 * g + 1) (digits inp (4 * g + 2)) =
      some (digits inp (4 * g + 3) ++ List.replicate 1 '=') := by
  rcases getElem?_of_lt (show 3 * g + 1 < inp.length by omega) with ⟨b, hb, hbyte⟩
  have hmod : (3 * g + 1) % 3 = 1 := by omega
  have hv : (b.toNat &&& 0xF) <<< 2 = sextet inp (4 * g + 2) := by
    rw [sextet_two, byteAt_of_le hlen.le, and_0xF, Nat.shiftLeft_eq, hbyte]
    omega
  simp only [base64Pad, hmod, hb, Option.bind_eq_bind, Option.bind_some, if_true,
    Nat.one_ne_zero, if_false, putSextet_of_lt (show 4 * g + 2 < size by omega) hv]
  rw [putChar_of_lt (by rw [length_digits]; omega)]
  rfl

end Group

/-- After `i` bytes the sextets that they fill have been written. -/
theorem base64EncryptBody_digits (hi : i < inp.length) (hsize : encodedLength inp.length < size) :
    base64EncryptBody inp size i (digits inp (i + i / 3)) =
      some (.next (digits inp (i + 1 + (i + 1) / 3))) := by
  have hroom : i + i / 3 + 1 < size := by
    unfold encodedLength at hsize
    omega
  rcases (⟨i / 3, by omega⟩ : ∃ g, i = 3 * g ∨ i = 3 * g + 1 ∨ i = 3 * g + 2) with
    ⟨g, rfl | rfl | rfl⟩
  · have hbefore : 3 * g + 3 * g / 3 = 4 * g := by omega
    have hafter : 3 * g + 1 + (3 * g + 1) / 3 = 4 * g + 1 := by omega
    rw [hbefore, hafter]
    exact base64EncryptBody_zero hi (by omega)
  · have hbefore : 3 * g + 1 + (3 * g + 1) / 3 = 4 * g + 1 := by omega
    have hafter : 3 * g + 1 + 1 + (3 * g + 1 + 1) / 3 = 4 * g + 2 := by omega
    rw [hbefore, hafter]
    exact base64EncryptBody_one hi (by omega)
  · have hbefore : 3 * g + 2 + (3 * g + 2) / 3 = 4 * g + 2 := by omega
    have hafter : 3 * g + 2 + 1 + (3 * g + 2 + 1) / 3 = 4 * g + 4 := by omega
    rw [hbefore, hafter]
    exact base64EncryptBody_two hi (by omega)

theorem encoded_eq {m p : ℕ} (hcount : inp.length + (inp.length + 2) / 3 = m)
    (hlen : (inp.length + 2) / 3 * 4 = m + p) :
    encoded inp = digits inp m ++ List.replicate p '=' := by
  rw [encoded, sextetCount, encodedLength, hcount, hlen, Nat.add_sub_cancel_left]

/-- The padding completes the last group. -/
theorem base64Pad_digits (hne : inp ≠ []) (hsize : encodedLength inp.length < size) :
    base64Pad inp size (inp.length - 1) (digits inp (inp.length + inp.length / 3)) =
      some (encoded inp) := by
  have hpos : 0 < inp.length := List.length_pos_iff.mpr hne
  unfold encodedLength at hsize
  rcases (⟨(inp.length - 1) / 3, by omega⟩ : ∃ g, inp.length = 3 * g + 1 ∨ inp.length = 3 * g + 2 ∨
    inp.length = 3 * g + 3) with ⟨g, hlen | hlen | hlen⟩
  · have hlast : inp.length - 1 = 3 * g := by omega
    have hbefore : inp.length + inp.length / 3 = 4 * g + 1 := by omega
    rw [hlast, hbefore, encoded_eq (m := 4 * g + 2) (p := 2) (by omega) (by omega)]
    exact base64Pad_zero hlen (by omega)
  · have hlast : inp.length - 1 = 3 * g + 1 := by omega
    have hbefore : inp.length + inp.length / 3 = 4 * g + 2 := by omega
    rw [hlast, hbefore, encoded_eq (m := 4 * g + 3) (p := 1) (by omega) (by omega)]
    exact base64Pad_one hlen (by omega)
  · have hlast : inp.length - 1 = 3 * g + 2 := by omega
    have hbefore : inp.length + inp.length / 3 = 4 * g + 4 := by omega
    have hmod : (3 * g + 2) % 3 = 2 := by omega
    rw [hlast, hbefore, encoded_eq (m := 4 * g + 4) (p := 0) (by omega) (by omega)]
    simp [base64Pad, hmod]

theorem ulongSub_of_le {a b : ℕ} (hle : b ≤ a) (hlt : a < 18446744073709551616) (hb : 0 < b) :
    ulongSub a b = a - b := by
  unfold ulongSub
  omega

/-- The encoder's text, in every buffer with room for it and its terminator. -/
theorem base64Encrypt_eq (hne : inp ≠ []) (hmax : inp.length < 18446744073709551616)
    (hsize : encodedLength inp.length < size) :
    base64Encrypt inp inp.length size = some (encoded inp) := by
  have hpos : 0 < inp.length := List.length_pos_iff.mpr hne
  have hstep : ∀ i out, 0 ≤ i → i < 0 + inp.length → out = digits inp (i + i / 3) →
      ∃ out', base64EncryptBody inp size i out = some (.next out') ∧
        out' = digits inp (i + 1 + (i + 1) / 3) := by
    rintro i out - hi rfl
    exact ⟨_, base64EncryptBody_digits (by omega) hsize, rfl⟩
  have hinit : [] = digits inp (0 + 0 / 3) := rfl
  rcases forLoop_of_invariant (P := fun i out => out = digits inp (i + i / 3)) hstep hinit with
    ⟨out, hout, hloop⟩
  rw [Nat.zero_add] at hout
  have hnul : (encoded inp).length < size := by rwa [length_encoded]
  rw [base64Encrypt, hloop]
  simp only [hout, ulongSub_of_le hpos hmax Nat.one_pos, base64Pad_digits hne hsize,
    Option.bind_eq_bind, Option.bind_some, hnul, if_true]

/-! ## What the decoder makes of it -/

theorem encoded_digit (h : k < sextetCount inp.length) :
    (encoded inp)[k]? = some (base64Digit (sextet inp k)) := by
  rw [encoded, List.getElem?_append_left (by simpa using h)]
  simp [digits, h]

theorem encoded_pad (h : sextetCount inp.length ≤ k) (hk : k < encodedLength inp.length) :
    (encoded inp)[k]? = some '=' := by
  have hcount : k - sextetCount inp.length <
      encodedLength inp.length - sextetCount inp.length := by omega
  rw [encoded, List.getElem?_append_right (by simpa using h)]
  simp [hcount]

@[simp] theorem Buffer.set_size (buf : Buffer) (k x : ℕ) : (buf.set k x).size = buf.size := rfl

theorem Buffer.set_cell_self (buf : Buffer) (k x : ℕ) : ((buf.set k x).cell k).toNat = x % 256 := by
  simp [Buffer.set]

theorem Buffer.set_cell_ne (buf : Buffer) {k l : ℕ} (x : ℕ) (h : l ≠ k) :
    (buf.set k x).cell l = buf.cell l := by
  simp [Buffer.set, h]

variable {buf : Buffer} {j x y : ℕ} {st : DecryptState}

/-- The first `j` bytes of the input have been written, and no byte behind its
end. -/
structure Decoded (inp : List UInt8) (buf : Buffer) (j : ℕ) (st : DecryptState) : Prop where
  size_eq : st.out.size = buf.size
  j_eq : st.j = j
  outLen_eq : st.outLen = j
  before : ∀ k < j, (st.out.cell k).toNat = byteAt inp k
  behind : ∀ k, inp.length ≤ k → st.out.cell k = buf.cell k

/-- The next byte may hold anything. -/
theorem Decoded.start (h : Decoded inp buf j st) (hj : j < inp.length) (x : ℕ) :
    Decoded inp buf j { st with out := st.out.set j x } where
  size_eq := h.size_eq
  j_eq := h.j_eq
  outLen_eq := h.outLen_eq
  before := by
    intro k hk
    rw [Buffer.set_cell_ne _ _ hk.ne]
    exact h.before k hk
  behind := by
    intro k hk
    rw [Buffer.set_cell_ne _ _ (by omega)]
    exact h.behind k hk

/-- The next byte is complete. -/
theorem Decoded.finish (h : Decoded inp buf j st) (hj : j < inp.length)
    (hx : ((st.out.cell j).toNat + x) % 256 = byteAt inp j) :
    Decoded inp buf (j + 1) ⟨st.out.set j ((st.out.cell j).toNat + x), j + 1, st.outLen + 1⟩ where
  size_eq := h.size_eq
  j_eq := rfl
  outLen_eq := by rw [h.outLen_eq]
  before := by
    intro k hk
    by_cases hkj : k = j
    · rw [hkj, Buffer.set_cell_self, hx]
    · rw [Buffer.set_cell_ne _ _ hkj]
      exact h.before k (by omega)
  behind := (h.start hj _).behind

/-- The value of the lowest bit that the first `r` characters of a group hold of the
byte they begin. -/
def lowestBit : ℕ → ℕ
  | 1 => 4
  | 2 => 16
  | 3 => 64
  | _ => 1

/-- After `i` characters: the bytes they complete, and of the next one the bits
that they hold. -/
structure DecodedUpTo (inp : List UInt8) (buf : Buffer) (i : ℕ) (st : DecryptState) : Prop where
  decoded : Decoded inp buf (3 * i / 4) st
  partly : i % 4 ≠ 0 → 3 * i / 4 < inp.length →
    (st.out.cell (3 * i / 4)).toNat =
      byteAt inp (3 * i / 4) / lowestBit (i % 4) * lowestBit (i % 4)

/-- The padding tests of the decoder, on the second and the third character of a
group, say whether there is a next byte. -/
theorem notPadded_encoded {g r : ℕ} (hr : r = 1 ∨ r = 2) (hg : 3 * g + r ≤ inp.length)
    (hmax : encodedLength inp.length < 18446744073709551616) :
    notPadded (encoded inp) (4 * g + r) (ulongSub (encodedLength inp.length) (4 - r))
      (ulongSub (encodedLength inp.length) (3 - r)) = some (decide (3 * g + r < inp.length)) := by
  have hlen : 4 * g + 4 ≤ encodedLength inp.length := by
    unfold encodedLength
    omega
  rw [notPadded, ulongSub_of_le (by omega) hmax (by omega), ulongSub_of_le (by omega) hmax (by omega)]
  split
  · rename_i hlt
    have hnext : 3 * g + r < inp.length := by
      unfold encodedLength at hlt
      omega
    rw [decide_eq_true hnext]
  · -- the last group: the next character is a digit or a pad
    rename_i hge
    have hpos : encodedLength inp.length - (3 - r) = 4 * g + r + 1 := by
      unfold encodedLength at hge hlen ⊢
      omega
    rw [hpos]
    by_cases hnext : 3 * g + r < inp.length
    · have hdigit := base64Digit_ne_pad _ (sextet_lt inp (4 * g + r + 1))
      rw [encoded_digit (by unfold sextetCount; omega)]
      simp [hnext, hdigit]
    · rw [encoded_pad (by unfold sextetCount; omega) (by omega)]
      simp [hnext]

/-- A character that completes a byte and begins the next one, if there is one. -/
theorem completeByte_spec (h : Decoded inp buf j st) (hj : j < inp.length)
    (hsize : inp.length ≤ buf.size) (hx : ((st.out.cell j).toNat + x) % 256 = byteAt inp j)
    {more : Bool} (hmore : more = true → j + 1 < inp.length) (y : ℕ) :
    ∃ st', completeByte st x more y = some st' ∧ Decoded inp buf (j + 1) st' ∧
      (more = true → (st'.out.cell (j + 1)).toNat = y % 256) := by
  have hroom : j < st.out.size := by
    rw [h.size_eq]
    omega
  rw [completeByte, Buffer.add, Buffer.store, h.j_eq, if_pos hroom]
  cases more with
  | true =>
    have hnext := hmore rfl
    have hroom' : j + 1 < (st.out.set j ((st.out.cell j).toNat + x)).size := by
      rw [Buffer.set_size, h.size_eq]
      omega
    have hstore : (st.out.set j ((st.out.cell j).toNat + x)).store (j + 1) y =
        some ((st.out.set j ((st.out.cell j).toNat + x)).set (j + 1) y) := by
      rw [Buffer.store, if_pos hroom']
    refine ⟨_, by simp only [Option.bind_eq_bind, Option.bind_some, if_true, hstore]; rfl,
      (h.finish hj hx).start hnext y, fun _ => ?_⟩
    rw [Buffer.set_cell_self]
  | false => exact ⟨_, rfl, h.finish hj hx, fun h' => nomatch h'⟩

/-- A character that completes a byte. -/
theorem DecodedUpTo.complete (h : DecodedUpTo inp buf i st) (hj : 3 * i / 4 = j)
    (hj' : 3 * (i + 1) / 4 = j + 1) (hlt : j < inp.length) (hsize : inp.length ≤ buf.size)
    (hx : ((st.out.cell j).toNat + x) % 256 = byteAt inp j) {more : Bool}
    (hmore : more = true → j + 1 < inp.length)
    (hy : (i + 1) % 4 ≠ 0 → j + 1 < inp.length → more = true ∧
      y % 256 = byteAt inp (j + 1) / lowestBit ((i + 1) % 4) * lowestBit ((i + 1) % 4)) :
    ∃ st', completeByte st x more y = some st' ∧ DecodedUpTo inp buf (i + 1) st' := by
  have hdec := h.decoded
  rw [hj] at hdec
  rcases completeByte_spec hdec hlt hsize hx hmore y with ⟨st', hst', hdec', hcell⟩
  refine ⟨st', hst', ?_, ?_⟩
  · rwa [hj']
  · intro hmod hlt'
    rw [hj'] at hlt' ⊢
    rcases hy hmod hlt' with ⟨htrue, hyval⟩
    rw [hcell htrue, hyval]

section Group

variable {g : ℕ}

/-- The first character of a group begins a byte. -/
theorem base64DecryptSwitch_zero (h : DecodedUpTo inp buf (4 * g) st) (hlt : 3 * g < inp.length)
    (hsize : inp.length ≤ buf.size) (text : Text) (inlen : ℕ) :
    ∃ st', base64DecryptSwitch text inlen (4 * g) (sextet inp (4 * g)) st = some st' ∧
      DecodedUpTo inp buf (4 * g + 1) st' := by
  have hmod : 4 * g % 4 = 0 := by omega
  have hmod' : (4 * g + 1) % 4 = 1 := by omega
  have hj : 3 * (4 * g) / 4 = 3 * g := by omega
  have hj' : 3 * (4 * g + 1) / 4 = 3 * g := by omega
  have hdec := h.decoded
  rw [hj] at hdec
  have hroom : 3 * g < st.out.size := by
    rw [hdec.size_eq]
    omega
  have hstore : st.out.store st.j (sextet inp (4 * g) <<< 2 &&& 0xFF) =
      some (st.out.set (3 * g) (sextet inp (4 * g) <<< 2 &&& 0xFF)) := by
    rw [hdec.j_eq, Buffer.store, if_pos hroom]
  simp only [base64DecryptSwitch, hmod, hstore, Option.bind_eq_bind, Option.bind_some]
  refine ⟨_, rfl, ?_, ?_⟩
  · rw [hj']
    exact hdec.start hlt _
  · intro _ _
    have hbyte := byteAt_lt inp (3 * g)
    rw [hj', hmod', lowestBit, Buffer.set_cell_self, and_0xFF, Nat.shiftLeft_eq, sextet_zero]
    omega

theorem base64DecryptSwitch_one (h : DecodedUpTo inp buf (4 * g + 1) st) (hlt : 3 * g < inp.length)
    (hsize : inp.length ≤ buf.size) (hmax : encodedLength inp.length < 18446744073709551616) :
    ∃ st', base64DecryptSwitch (encoded inp) (encodedLength inp.length) (4 * g + 1)
        (sextet inp (4 * g + 1)) st = some st' ∧ DecodedUpTo inp buf (4 * g + 1 + 1) st' := by
  have hmod : (4 * g + 1) % 4 = 1 := by omega
  have hmod' : (4 * g + 1 + 1) % 4 = 2 := by omega
  have hj : 3 * (4 * g + 1) / 4 = 3 * g := by omega
  have hpart := h.partly
  rw [hj, hmod, lowestBit] at hpart
  have hbyte' := byteAt_lt inp (3 * g + 1)
  have hx : ((st.out.cell (3 * g)).toNat + (sextet inp (4 * g + 1) >>> 4 &&& 0x3)) % 256 =
      byteAt inp (3 * g) := by
    have hbyte := byteAt_lt inp (3 * g)
    rw [hpart (by decide) hlt, and_0x3, Nat.shiftRight_eq_div_pow, sextet_one]
    omega
  have hy : (sextet inp (4 * g + 1) &&& 0xF) <<< 4 % 256 = byteAt inp (3 * g + 1) / 16 * 16 := by
    rw [and_0xF, Nat.shiftLeft_eq, sextet_one]
    omega
  have hnext : notPadded (encoded inp) (4 * g + 1) (ulongSub (encodedLength inp.length) 3)
      (ulongSub (encodedLength inp.length) 2) = some (decide (3 * g + 1 < inp.length)) :=
    notPadded_encoded (.inl rfl) hlt hmax
  simp only [base64DecryptSwitch, hmod, hnext, Option.bind_eq_bind, Option.bind_some]
  refine h.complete hj (by omega) hlt hsize hx of_decide_eq_true fun _ hlt' => ?_
  rw [hmod', lowestBit]
  exact ⟨decide_eq_true hlt', hy⟩

theorem base64DecryptSwitch_two (h : DecodedUpTo inp buf (4 * g + 2) st)
    (hlt : 3 * g + 1 < inp.length) (hsize : inp.length ≤ buf.size)
    (hmax : encodedLength inp.length < 18446744073709551616) :
    ∃ st', base64DecryptSwitch (encoded inp) (encodedLength inp.length) (4 * g + 2)
        (sextet inp (4 * g + 2)) st = some st' ∧ DecodedUpTo inp buf (4 * g + 2 + 1) st' := by
  have hmod : (4 * g + 2) % 4 = 2 := by omega
  have hmod' : (4 * g + 2 + 1) % 4 = 3 := by omega
  have hj : 3 * (4 * g + 2) / 4 = 3 * g + 1 := by omega
  have hpart := h.partly
  rw [hj, hmod, lowestBit] at hpart
  have hbyte' := byteAt_lt inp (3 * g + 2)
  have hx : ((st.out.cell (3 * g + 1)).toNat + (sextet inp (4 * g + 2) >>> 2 &&& 0xF)) % 256 =
      byteAt inp (3 * g + 1) := by
    have hbyte := byteAt_lt inp (3 * g + 1)
    rw [hpart (by decide) hlt, and_0xF, Nat.shiftRight_eq_div_pow, sextet_two]
    omega
  have hy : (sextet inp (4 * g + 2) &&& 0x3) <<< 6 % 256 = byteAt inp (3 * g + 2) / 64 * 64 := by
    rw [and_0x3, Nat.shiftLeft_eq, sextet_two]
    omega
  have hnext : notPadded (encoded inp) (4 * g + 2) (ulongSub (encodedLength inp.length) 2)
      (ulongSub (encodedLength inp.length) 1) = some (decide (3 * g + 2 < inp.length)) :=
    notPadded_encoded (.inr rfl) hlt hmax
  simp only [base64DecryptSwitch, hmod, hnext, Option.bind_eq_bind, Option.bind_some]
  refine h.complete hj (by omega) hlt hsize hx of_decide_eq_true fun _ hlt' => ?_
  rw [hmod', lowestBit]
  exact ⟨decide_eq_true hlt', hy⟩

/-- The last character of a group completes its third byte. -/
theorem base64DecryptSwitch_three (h : DecodedUpTo inp buf (4 * g + 3) st)
    (hlt : 3 * g + 2 < inp.length) (hsize : inp.length ≤ buf.size) (text : Text) (inlen : ℕ) :
    ∃ st', base64DecryptSwitch text inlen (4 * g + 3) (sextet inp (4 * g + 3)) st = some st' ∧
      DecodedUpTo inp buf (4 * g + 3 + 1) st' := by
  have hmod : (4 * g + 3) % 4 = 3 := by omega
  have hmod' : (4 * g + 3 + 1) % 4 = 0 := by omega
  have hj : 3 * (4 * g + 3) / 4 = 3 * g + 2 := by omega
  have hpart := h.partly
  rw [hj, hmod, lowestBit] at hpart
  have hx : ((st.out.cell (3 * g + 2)).toNat + sextet inp (4 * g + 3)) % 256 =
      byteAt inp (3 * g + 2) := by
    have hbyte := byteAt_lt inp (3 * g + 2)
    rw [hpart (by decide) hlt, sextet_three]
    omega
  have hlast : false = true → 3 * g + 2 + 1 < inp.length := fun h => nomatch h
  simp only [base64DecryptSwitch, hmod]
  exact h.complete hj (by omega) hlt hsize hx hlast fun hne => absurd hmod' hne

end Group

/-- One digit more. -/
theorem base64DecryptSwitch_encoded (h : DecodedUpTo inp buf i st)
    (hi : i < sextetCount inp.length) (hsize : inp.length ≤ buf.size)
    (hmax : encodedLength inp.length < 18446744073709551616) :
    ∃ st', base64DecryptSwitch (encoded inp) (encodedLength inp.length) i (sextet inp i) st =
      some st' ∧ DecodedUpTo inp buf (i + 1) st' := by
  unfold sextetCount at hi
  rcases (⟨i / 4, by omega⟩ : ∃ g, i = 4 * g ∨ i = 4 * g + 1 ∨ i = 4 * g + 2 ∨ i = 4 * g + 3) with
    ⟨g, rfl | rfl | rfl | rfl⟩
  · exact base64DecryptSwitch_zero h (by omega) hsize _ _
  · exact base64DecryptSwitch_one h (by omega) hsize hmax
  · exact base64DecryptSwitch_two h (by omega) hsize hmax
  · exact base64DecryptSwitch_three h (by omega) hsize _ _

/-- One iteration on a digit. -/
theorem base64DecryptBody_digit (h : DecodedUpTo inp buf i st)
    (hi : i < sextetCount inp.length) (hsize : inp.length ≤ buf.size)
    (hmax : encodedLength inp.length < 18446744073709551616) :
    ∃ st', base64DecryptBody (encoded inp) (encodedLength inp.length) i st = some (.next st') ∧
      DecodedUpTo inp buf (i + 1) st' := by
  rcases base64DecryptSwitch_encoded h hi hsize hmax with ⟨st', hst', h'⟩
  refine ⟨st', ?_, h'⟩
  have hlt := sextet_lt inp i
  simp only [base64DecryptBody, encoded_digit hi, base64Digit_ne_pad _ hlt, base64Value_digit _ hlt,
    hst', Option.bind_eq_bind, Option.bind_some, if_false]
  rfl

/-- The first pad ends the loop. -/
theorem base64DecryptBody_pad (hi : sextetCount inp.length ≤ i) (hlt : i < encodedLength inp.length)
    (inlen : ℕ) (st : DecryptState) :
    base64DecryptBody (encoded inp) inlen i st = some (.ret (.ok, st)) := by
  simp only [base64DecryptBody, encoded_pad hi hlt, Option.bind_eq_bind, Option.bind_some, if_true]
  rfl

theorem Decoded.bytes_eq (h : Decoded inp buf inp.length st) : st.out.bytes inp.length = inp := by
  apply List.ext_getElem
  · simp [Buffer.bytes]
  · intro k hk hk'
    have hcell := h.before k hk'
    simp only [byteAt, List.getD_eq_getElem?_getD, List.getElem?_eq_getElem hk', Option.getD_some]
      at hcell
    simp only [Buffer.bytes, List.getElem_map, List.getElem_range]
    exact UInt8.toNat_inj.mp hcell

/-- The decoder gives the input back, into every buffer with room for it, and
leaves the other bytes of the buffer as they are. -/
theorem base64Decrypt_encoded (hsize : inp.length ≤ buf.size)
    (hmax : encodedLength inp.length < 18446744073709551616) :
    ∃ out, base64Decrypt (encoded inp) (encodedLength inp.length) buf =
        some (.ok, out, inp.length) ∧ out.bytes inp.length = inp ∧
      ∀ k, inp.length ≤ k → out.cell k = buf.cell k := by
  have hinit : DecodedUpTo inp buf 0 ⟨buf, 0, 0⟩ :=
    ⟨⟨rfl, rfl, rfl, fun k hk => absurd hk (Nat.not_lt_zero k), fun _ _ => rfl⟩,
      fun h => absurd rfl h⟩
  have hstep : ∀ i st, 0 ≤ i → i < 0 + sextetCount inp.length → DecodedUpTo inp buf i st →
      ∃ st', base64DecryptBody (encoded inp) (encodedLength inp.length) i st = some (.next st') ∧
        DecodedUpTo inp buf (i + 1) st' := by
    intro i st _ hi h
    exact base64DecryptBody_digit h (by omega) hsize hmax
  have hdone : ∀ st, DecodedUpTo inp buf (0 + sextetCount inp.length) st →
      Decoded inp buf inp.length st := by
    intro st h
    have hall : 3 * (0 + sextetCount inp.length) / 4 = inp.length := by
      unfold sextetCount
      omega
    rw [← hall]
    exact h.decoded
  by_cases hfull : encodedLength inp.length = sextetCount inp.length
  · rcases forLoop_of_invariant hstep hinit with ⟨st, h, hloop⟩
    refine ⟨st.out, ?_, (hdone st h).bytes_eq, (hdone st h).behind⟩
    rw [← hfull] at hloop
    rw [base64Decrypt, hloop]
    simp only [(hdone st h).outLen_eq]
  · obtain ⟨l, hl⟩ : ∃ l, encodedLength inp.length = sextetCount inp.length + (l + 1) := by
      refine ⟨encodedLength inp.length - sextetCount inp.length - 1, ?_⟩
      unfold encodedLength sextetCount at hfull ⊢
      omega
    rcases forLoop_of_return (l := l) hstep (r := fun st => (Base64Rc.ok, st))
      (fun st _ => base64DecryptBody_pad (by omega) (by omega) _ st) hinit with ⟨st, h, hloop⟩
    refine ⟨st.out, ?_, (hdone st h).bytes_eq, (hdone st h).behind⟩
    rw [← hl] at hloop
    rw [base64Decrypt, hloop]
    simp only [(hdone st h).outLen_eq]

/-! ## Sizes -/

/-- The computed size has room for the text and its terminator. -/
theorem encoded_fits (hmax : n < 4294967296) : encodedLength n < calcBase64EncryptedSize n := by
  have hprod : n * 4 % 18446744073709551616 = n * 4 := Nat.mod_eq_of_lt (by omega)
  have hsum : (n * 4 / 3 + n / 96 + 6) % 18446744073709551616 = n * 4 / 3 + n / 96 + 6 :=
    Nat.mod_eq_of_lt (by omega)
  rw [encodedLength, calcBase64EncryptedSize, hprod, hsum]
  omega

end MqttMsgHub
