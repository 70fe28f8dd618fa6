import Mathlib.Algebra.Group.Nat.Defs
import Mathlib.Data.Fin.VecNotation
import Mathlib.Data.Fintype.Basic
import Mathlib.Logic.Equiv.Basic
import MqttMsgHub.CTypes
import MqttMsgHub.Lib.Chain

/-! # The encrypted payload

A published message is wrapped into a header of twelve bytes, the
initialisation vector and the AES-CBC ciphertext. The length of the content is
rounded up to whole blocks, and that many bytes are read from the content's
memory: the message, its NUL, and whatever stands behind it. The receiver takes
the length from the first NUL of the decrypted buffer; the length field of the
header is written but not read.

AES itself is a parameter (`Cipher`): of the block cipher only its being
inverted by the decryption is used.

* `round_trip_iff` — a message comes back as it was sent exactly when its NUL
  is encrypted with it, which it is not when the length is a multiple of the
  block size, and when the rounded length still is an `int`;
* `payload_depends_only_on_message_iff` — nothing behind the NUL is sent along
  exactly when the NUL is the last byte of a block or not encrypted at all,
  or when the rounded length is no `int`.
-/

namespace MqttMsgHub

/-- A block of AES, and a key of 128 bits. -/
abbrev Block := Fin 16 → UInt8

/-- The cipher that `find_cipher("aes")` gives, with the key first. -/
structure Cipher where
  ecbEncrypt : Block → Block → Block
  ecbDecrypt : Block → Block → Block
  decrypt_encrypt : ∀ key b, ecbDecrypt key (ecbEncrypt key b) = b

/-- How a call ends; `crash` is an abort or a read outside of a buffer. -/
inductive Result (α : Type*) where
  | success (a : α)
  | failure
  | crash
deriving DecidableEq

/-! ## CBC mode -/

def xorBlock (a b : Block) : Block := fun j => a j ^^^ b j

/-- `cbc_encrypt`, on `len` bytes from `pt` on. -/
def cbcEncrypt (aes : Cipher) (key iv : Block) (pt : ℕ → UInt8) (len : ℕ) : Option (List UInt8) :=
  if len % 16 ≠ 0 then none
  else some (Chain.join (Chain.encrypt xorBlock (aes.ecbEncrypt key) iv
    (Chain.cut 16 (len / 16) ((List.range len).map pt))))

/-- `cbc_decrypt`. -/
def cbcDecrypt (aes : Cipher) (key iv : Block) (ct : List UInt8) : Option (List UInt8) :=
  if ct.length % 16 ≠ 0 then none
  else some (Chain.join (Chain.decrypt xorBlock (aes.ecbDecrypt key) iv
    (Chain.cut 16 (ct.length / 16) ct)))

/-- The largest request that `malloc` can meet. -/
def PTRDIFF_MAX : ℕ := 9223372036854775807

/-- `((int)(len + 15) / 16) * 16` as an `unsigned long`. -/
def roundedLen (len : ℕ) : ℕ :=
  let x := (CInt.wrap ((len + 15) % 18446744073709551616 : ℕ)).1
  (x.tdiv 16 * 16 % 18446744073709551616).toNat

/-- `aes_cbc_encrypt`; `aes` is `none` when the cipher is not registered. -/
def aesCbcEncrypt (aes : Option Cipher) (content : ℕ → UInt8) (len : ℕ) (iv key : Block) :
    Result (List UInt8) :=
  match aes with
  | none => .failure
  | some aes =>
    -- the buffer cannot be allocated, and LTC_ARGCHK(ct != NULL) aborts
    if PTRDIFF_MAX < roundedLen len then .crash
    else
      match cbcEncrypt aes key iv content (roundedLen len) with
      | none => .failure
      | some out => .success out

/-- `aes_cbc_decrypt`: the buffer and its length as a string. -/
def aesCbcDecrypt (aes : Option Cipher) (ct : List UInt8) (iv key : Block) :
    Result (List UInt8 × ℕ) :=
  match aes with
  | none => .failure
  | some aes =>
    match cbcDecrypt aes key iv ct with
    | none => .failure
    | some out =>
      match strlen out with
      | none => .crash
      | some outlen => .success (out, outlen)

/-! ## The envelope -/

/-- The first `k` bytes of a number, least significant first. -/
def leBytes : ℕ → ℕ → List UInt8
  | 0, _ => []
  | k + 1, n => UInt8.ofNat n :: leBytes k (n / 256)

/-- The number that bytes stand for, least significant first. -/
def leNat : List UInt8 → ℕ
  | [] => 0
  | b :: bs => b.toNat + 256 * leNat bs

/-- `mqtt_encrypted_payload_header`. -/
structure PayloadHeader where
  encryptMethod : UInt16
  version : UInt16
  contentSize : UInt32
  reserved : UInt32
deriving DecidableEq

def ENCRYPT_CBC : UInt16 := 1

def ENCRYPT_CBC_VERSION : UInt16 := 1

/-- `PAYLOAD_HEADER_SIZE`. -/
def PAYLOAD_HEADER_SIZE : ℕ := 12

/-- `CBC_EX_DATA_SIZE`. -/
def CBC_EX_DATA_SIZE : ℕ := 16

/-- The header as it stands in memory. -/
def PayloadHeader.bytes (h : PayloadHeader) : List UInt8 :=
  leBytes 2 h.encryptMethod.toNat ++ leBytes 2 h.version.toNat ++ leBytes 4 h.contentSize.toNat ++
    leBytes 4 h.reserved.toNat

/-- The header at the start of a payload. -/
def readHeader (payload : List UInt8) : PayloadHeader where
  encryptMethod := UInt16.ofNat (leNat (payload.take 2))
  version := UInt16.ofNat (leNat ((payload.drop 2).take 2))
  contentSize := UInt32.ofNat (leNat ((payload.drop 4).take 4))
  reserved := UInt32.ofNat (leNat ((payload.drop 8).take 4))

/-- The header that `mqtt_payload_encrypt` writes. -/
def writtenHeader (len : ℕ) : PayloadHeader where
  encryptMethod := ENCRYPT_CBC
  version := ENCRYPT_CBC_VERSION
  contentSize := UInt32.ofNat len
  reserved := 0

/-- `mqtt_payload_encrypt`, with the key and the random initialisation vector. -/
def mqttPayloadEncrypt (aes : Option Cipher) (key iv : Block) (content : ℕ → UInt8) (len : ℕ) :
    Result (List UInt8 × PayloadHeader) :=
  match aesCbcEncrypt aes content len iv key with
  | .success out => .success ((writtenHeader len).bytes ++ List.ofFn iv ++ out, writtenHeader len)
  | .failure => .failure
  | .crash => .crash

/-- `mqtt_payload_decrypt`: the content, its length and the header. -/
def mqttPayloadDecrypt (aes : Option Cipher) (key : Block) (payload : List UInt8) :
    Result (List UInt8 × ℕ × PayloadHeader) :=
  if payload.length ≤ PAYLOAD_HEADER_SIZE + CBC_EX_DATA_SIZE then .failure
  else
    -- of the header only the method is looked at
    let header := readHeader payload
    if header.encryptMethod ≠ ENCRYPT_CBC then .failure
    else
      let iv : Block := fun j => (payload.drop PAYLOAD_HEADER_SIZE).getD j 0
      match aesCbcDecrypt aes (payload.drop (PAYLOAD_HEADER_SIZE + CBC_EX_DATA_SIZE)) iv key with
      | .success (content, contentlen) => .success (content, contentlen, header)
      | .failure => .failure
      | .crash => .crash

variable {aes : Cipher} {key iv : Block} {content : ℕ → UInt8} {len n : ℕ}

/-! ## The rounded length -/

theorem roundedLen_of_lt (h : len + 15 < 2147483648) : roundedLen len = (len + 15) / 16 * 16 := by
  have hmod : (len + 15) % 18446744073709551616 = len + 15 := Nat.mod_eq_of_lt (by omega)
  have hwrap : (CInt.wrap ((len + 15 : ℕ) : ℤ)).1 = ((len + 15 : ℕ) : ℤ) := by
    simp only [CInt.wrap]
    omega
  simp only [roundedLen, hmod, hwrap]
  rw [Int.tdiv_eq_ediv_of_nonneg (by omega)]
  omega

/-- Beyond `INT_MAX` the rounded length cannot be allocated, or it is too short
for the message. -/
theorem roundedLen_of_ge (h : 2147483648 ≤ len + 15) :
    PTRDIFF_MAX < roundedLen len ∨ roundedLen len < len := by
  have hx := (CInt.wrap ((len + 15) % 18446744073709551616 : ℕ)).2
  have hdef : (CInt.wrap ((len + 15) % 18446744073709551616 : ℕ)).1 =
      (((len + 15) % 18446744073709551616 : ℕ) + 2147483648) % 4294967296 - 2147483648 := rfl
  simp only [roundedLen, PTRDIFF_MAX]
  generalize (CInt.wrap ((len + 15) % 18446744073709551616 : ℕ)).1 = x at hx hdef ⊢
  rcases lt_or_ge x 0 with hneg | hpos
  · -- a negative quotient becomes a huge unsigned number, unless it is zero
    have hdiv : x.tdiv 16 = -(-x / 16) := by
      rw [← Int.tdiv_eq_ediv_of_nonneg (by omega), Int.neg_tdiv, Int.neg_neg]
    rw [hdiv]
    omega
  · -- at least 2 ^ 32 has been cut off
    rw [Int.tdiv_eq_ediv_of_nonneg hpos]
    omega

theorem roundedLen_mod (len : ℕ) : roundedLen len % 16 = 0 := by
  simp only [roundedLen]
  omega

/-! ## The bytes of the header -/

theorem length_leBytes (k n : ℕ) : (leBytes k n).length = k := by
  induction k generalizing n with
  | zero => rfl
  | succ k ih => simp [leBytes, ih]

theorem leNat_leBytes (k n : ℕ) : leNat (leBytes k n) = n % 256 ^ k := by
  induction k generalizing n with
  | zero => simp [leBytes, leNat, Nat.mod_one]
  | succ k ih =>
    have hbyte : (UInt8.ofNat n).toNat = n % 256 := rfl
    rw [leBytes, leNat, ih, hbyte, Nat.pow_succ, Nat.mul_comm (256 ^ k), Nat.mod_mul]

theorem length_headerBytes (h : PayloadHeader) : h.bytes.length = PAYLOAD_HEADER_SIZE := by
  simp [PayloadHeader.bytes, length_leBytes, PAYLOAD_HEADER_SIZE]

/-- The receiver sees the header that was written. -/
theorem readHeader_bytes (h : PayloadHeader) (rest : List UInt8) : readHeader (h.bytes ++ rest) = h := by
  rcases h with ⟨method, version, size, reserved⟩
  have h16 : ∀ n : UInt16, UInt16.ofNat (leNat (leBytes 2 n.toNat)) = n := by
    intro n
    have hn : n.toNat < 65536 := n.toNat_lt
    rw [leNat_leBytes, Nat.mod_eq_of_lt (by simpa using hn), UInt16.ofNat_toNat]
  have h32 : ∀ n : UInt32, UInt32.ofNat (leNat (leBytes 4 n.toNat)) = n := by
    intro n
    have hn : n.toNat < 4294967296 := n.toNat_lt
    rw [leNat_leBytes, Nat.mod_eq_of_lt (by simpa using hn), UInt32.ofNat_toNat]
  have hdrop : ∀ k m n, m ≥ k → (leBytes k n).drop m = [] := by
    intro k m n hm
    exact List.drop_of_length_le (by rw [length_leBytes]; exact hm)
  simp [readHeader, PayloadHeader.bytes, List.drop_append, length_leBytes, hdrop, h16, h32]

/-! ## Encryption and decryption -/

theorem xorBlock_xorBlock (a b : Block) : xorBlock (xorBlock a b) a = b := by
  funext j
  show a j ^^^ b j ^^^ a j = b j
  rw [UInt8.xor_comm (a j), UInt8.xor_assoc, UInt8.xor_self, UInt8.xor_zero]

/-- The bytes that are encrypted. -/
def plainBytes (content : ℕ → UInt8) (len : ℕ) : List UInt8 := (List.range (roundedLen len)).map content

theorem length_plainBytes (content : ℕ → UInt8) (len : ℕ) :
    (plainBytes content len).length = roundedLen len / 16 * 16 := by
  have hmod := roundedLen_mod len
  rw [plainBytes, List.length_map, List.length_range]
  omega

theorem plainBytes_eq_iff {content' : ℕ → UInt8} :
    plainBytes content' len = plainBytes content len ↔
      ∀ i < roundedLen len, content' i = content i := by
  simp only [plainBytes, List.map_inj_left, List.mem_range]

/-- The ciphertext of a message. -/
def cipherText (aes : Cipher) (key iv : Block) (content : ℕ → UInt8) (len : ℕ) : List UInt8 :=
  Chain.join (Chain.encrypt xorBlock (aes.ecbEncrypt key) iv
    (Chain.cut 16 (roundedLen len / 16) (plainBytes content len)))

theorem length_cipherText (aes : Cipher) (key iv : Block) (content : ℕ → UInt8) (len : ℕ) :
    (cipherText aes key iv content len).length = roundedLen len / 16 * 16 := by
  rw [cipherText, Chain.length_join, Chain.length_encrypt, Chain.length_cut]

theorem cbcEncrypt_rounded :
    cbcEncrypt aes key iv content (roundedLen len) = some (cipherText aes key iv content len) :=
  if_neg (not_not.mpr (roundedLen_mod len))

theorem aesCbcEncrypt_of_gt (h : PTRDIFF_MAX < roundedLen len) :
    aesCbcEncrypt (some aes) content len iv key = .crash := by
  unfold aesCbcEncrypt
  exact if_pos h

theorem aesCbcEncrypt_of_le (h : roundedLen len ≤ PTRDIFF_MAX) :
    aesCbcEncrypt (some aes) content len iv key = .success (cipherText aes key iv content len) := by
  unfold aesCbcEncrypt
  dsimp only
  rw [cbcEncrypt_rounded]
  exact if_neg (not_lt.mpr h)

/-- The envelope of a ciphertext. -/
def envelopeBytes (aes : Cipher) (key iv : Block) (content : ℕ → UInt8) (len : ℕ) : List UInt8 :=
  (writtenHeader len).bytes ++ List.ofFn iv ++ cipherText aes key iv content len

theorem encrypt_of_le (h : roundedLen len ≤ PTRDIFF_MAX) :
    mqttPayloadEncrypt (some aes) key iv content len =
      .success (envelopeBytes aes key iv content len, writtenHeader len) := by
  rw [mqttPayloadEncrypt, aesCbcEncrypt_of_le h]
  rfl

theorem encrypt_of_gt (h : PTRDIFF_MAX < roundedLen len) :
    mqttPayloadEncrypt (some aes) key iv content len = .crash := by
  rw [mqttPayloadEncrypt, aesCbcEncrypt_of_gt h]

/-- The bytes that were encrypted come back. -/
theorem cbcDecrypt_cipherText (aes : Cipher) (key iv : Block) (content : ℕ → UInt8) (len : ℕ) :
    cbcDecrypt aes key iv (cipherText aes key iv content len) = some (plainBytes content len) := by
  have hlen := length_cipherText aes key iv content len
  have hmod : roundedLen len / 16 * 16 % 16 = 0 := Nat.mul_mod_left _ _
  have hdiv : roundedLen len / 16 * 16 / 16 = roundedLen len / 16 := Nat.mul_div_cancel _ (by decide)
  have hblocks : Chain.cut 16 (roundedLen len / 16) (cipherText aes key iv content len) =
      Chain.encrypt xorBlock (aes.ecbEncrypt key) iv
        (Chain.cut 16 (roundedLen len / 16) (plainBytes content len)) := by
    have hcut := Chain.cut_join (Chain.encrypt xorBlock (aes.ecbEncrypt key) iv
      (Chain.cut 16 (roundedLen len / 16) (plainBytes content len)))
    rwa [Chain.length_encrypt, Chain.length_cut] at hcut
  simp only [cbcDecrypt, hlen, hmod, hdiv, hblocks, ne_eq, not_true_eq_false, if_false]
  rw [Chain.decrypt_encrypt (aes.decrypt_encrypt key) xorBlock_xorBlock,
    Chain.join_cut _ (length_plainBytes content len)]

/-- The parts of the envelope stand where the receiver looks for them. -/
theorem envelope_parts (aes : Cipher) (key iv : Block) (content : ℕ → UInt8) (len : ℕ) :
    (envelopeBytes aes key iv content len).length =
        PAYLOAD_HEADER_SIZE + CBC_EX_DATA_SIZE + roundedLen len / 16 * 16 ∧
      readHeader (envelopeBytes aes key iv content len) = writtenHeader len ∧
      (fun j : Fin 16 =>
        ((envelopeBytes aes key iv content len).drop PAYLOAD_HEADER_SIZE).getD j 0) = iv ∧
      (envelopeBytes aes key iv content len).drop (PAYLOAD_HEADER_SIZE + CBC_EX_DATA_SIZE) =
        cipherText aes key iv content len := by
  have hhead := length_headerBytes (writtenHeader len)
  have hdrop : (envelopeBytes aes key iv content len).drop PAYLOAD_HEADER_SIZE =
      List.ofFn iv ++ cipherText aes key iv content len := by
    rw [envelopeBytes, List.append_assoc, ← hhead, List.drop_left]
  refine ⟨?_, ?_, ?_, ?_⟩
  · rw [envelopeBytes, List.length_append, List.length_append, hhead, List.length_ofFn,
      length_cipherText, CBC_EX_DATA_SIZE]
  · rw [envelopeBytes, List.append_assoc, readHeader_bytes]
  · funext j
    have hj : j.1 < (List.ofFn iv).length := by
      rw [List.length_ofFn]
      exact j.2
    rw [hdrop, List.getD_append _ _ _ _ hj, List.getD_eq_getElem _ _ hj, List.getElem_ofFn]
  · have hiv : (List.ofFn iv).length = CBC_EX_DATA_SIZE := List.length_ofFn
    rw [← List.drop_drop, hdrop, ← hiv, List.drop_left]

/-- What the receiver makes of the parts of a payload. -/
theorem decrypt_of_parts {aes : Option Cipher} {payload ct : List UInt8} {header : PayloadHeader}
    (hsize : PAYLOAD_HEADER_SIZE + CBC_EX_DATA_SIZE < payload.length)
    (hhead : readHeader payload = header) (hmethod : header.encryptMethod = ENCRYPT_CBC)
    (hiv : (fun j : Fin 16 => (payload.drop PAYLOAD_HEADER_SIZE).getD j 0) = iv)
    (hct : payload.drop (PAYLOAD_HEADER_SIZE + CBC_EX_DATA_SIZE) = ct) :
    mqttPayloadDecrypt aes key payload =
      match aesCbcDecrypt aes ct iv key with
      | .success (content, contentlen) => .success (content, contentlen, header)
      | .failure => .failure
      | .crash => .crash := by
  subst hhead hiv hct
  rw [mqttPayloadDecrypt, if_neg (not_le.mpr hsize)]
  exact if_neg (not_not.mpr hmethod)

/-- What a decrypted buffer is taken for. -/
def received (out : List UInt8) (header : PayloadHeader) : Result (List UInt8 × ℕ × PayloadHeader) :=
  match strlen out with
  | none => .crash
  | some contentlen => .success (out, contentlen, header)

theorem decrypt_of_plain {aes : Cipher} {payload ct out : List UInt8} {header : PayloadHeader}
    (hsize : PAYLOAD_HEADER_SIZE + CBC_EX_DATA_SIZE < payload.length)
    (hhead : readHeader payload = header) (hmethod : header.encryptMethod = ENCRYPT_CBC)
    (hiv : (fun j : Fin 16 => (payload.drop PAYLOAD_HEADER_SIZE).getD j 0) = iv)
    (hct : payload.drop (PAYLOAD_HEADER_SIZE + CBC_EX_DATA_SIZE) = ct)
    (hplain : cbcDecrypt aes key iv ct = some out) :
    mqttPayloadDecrypt (some aes) key payload = received out header := by
  rw [decrypt_of_parts hsize hhead hmethod hiv hct, received]
  unfold aesCbcDecrypt
  dsimp only
  rw [hplain]
  dsimp only
  cases strlen out <;> rfl

theorem decrypt_envelope (hlen : 0 < roundedLen len) :
    mqttPayloadDecrypt (some aes) key (envelopeBytes aes key iv content len) =
      received (plainBytes content len) (writtenHeader len) := by
  obtain ⟨hsize, hhead, hiv, hct⟩ := envelope_parts aes key iv content len
  have hmod := roundedLen_mod len
  have hlong : PAYLOAD_HEADER_SIZE + CBC_EX_DATA_SIZE <
      (envelopeBytes aes key iv content len).length := by
    rw [hsize]
    omega
  exact decrypt_of_plain hlong hhead rfl hiv hct (cbcDecrypt_cipherText _ _ _ _ _)

/-- A payload without content is refused. -/
theorem decrypt_envelope_empty (hlen : roundedLen len = 0) :
    mqttPayloadDecrypt (some aes) key (envelopeBytes aes key iv content len) = .failure := by
  have hsize := (envelope_parts aes key iv content len).1
  rw [mqttPayloadDecrypt, if_pos]
  omega

/-! ## The length of the message -/

/-- A message of `len` bytes and its NUL, with anything behind. -/
structure IsMessage (content : ℕ → UInt8) (len : ℕ) : Prop where
  no_nul : ∀ i < len, content i ≠ 0
  nul : content len = 0

theorem strlen_range (h : IsMessage content len) (hn : len < n) :
    strlen ((List.range n).map content) = some len := by
  rw [strlen, List.findIdx?_eq_some_iff_getElem]
  refine ⟨by simpa using hn, ?_, ?_⟩
  · simp [h.nul]
  · intro j hj
    simpa using h.no_nul j hj

theorem strlen_range_of_le (h : IsMessage content len) (hn : n ≤ len) :
    strlen ((List.range n).map content) = none := by
  rw [strlen, List.findIdx?_eq_none_iff]
  intro b hb
  obtain ⟨i, hi, rfl⟩ := List.mem_map.mp hb
  rw [List.mem_range] at hi
  simpa using h.no_nul i (by omega)

/-! ## Round trip -/

/-- The receiver gets back what was sent. -/
def RoundTrips (aes : Cipher) (key iv : Block) (content : ℕ → UInt8) (len : ℕ) : Prop :=
  ∃ payload header, mqttPayloadEncrypt (some aes) key iv content len = .success (payload, header) ∧
    ∃ out header', mqttPayloadDecrypt (some aes) key payload = .success (out, len, header') ∧
      out.take len = (List.range len).map content

/-- The message comes back exactly when its NUL is among the encrypted bytes. -/
theorem roundTrips_iff_lt (hmsg : IsMessage content len) :
    RoundTrips aes key iv content len ↔ roundedLen len ≤ PTRDIFF_MAX ∧ len < roundedLen len := by
  constructor
  · rintro ⟨payload, header, henc, out, header', hdec, -⟩
    rcases Nat.lt_or_ge PTRDIFF_MAX (roundedLen len) with hbig | hfits
    · rw [encrypt_of_gt hbig] at henc
      cases henc
    · refine ⟨hfits, ?_⟩
      rw [encrypt_of_le hfits, Result.success.injEq, Prod.mk.injEq] at henc
      rw [← henc.1] at hdec
      by_contra hshort
      rw [not_lt] at hshort
      rcases Nat.eq_zero_or_pos (roundedLen len) with hzero | hpos
      · rw [decrypt_envelope_empty hzero] at hdec
        cases hdec
      · -- strlen runs out of the buffer
        rw [decrypt_envelope hpos, received, plainBytes, strlen_range_of_le hmsg hshort] at hdec
        cases hdec
  · rintro ⟨hfits, hlt⟩
    refine ⟨_, _, encrypt_of_le hfits, plainBytes content len, writtenHeader len, ?_, ?_⟩
    · rw [decrypt_envelope (by omega), received, plainBytes, strlen_range hmsg hlt]
    · rw [plainBytes, ← List.map_take, List.take_range, Nat.min_eq_left hlt.le]

/-- A message comes back as it was sent exactly when its length is no multiple of
the block size and the rounded length is an `int`. -/
theorem round_trip_iff (aes : Cipher) (key iv : Block) {content : ℕ → UInt8} {len : ℕ}
    (hmsg : IsMessage content len) :
    RoundTrips aes key iv content len ↔ len % 16 ≠ 0 ∧ len + 15 < 2147483648 := by
  rw [roundTrips_iff_lt hmsg]
  rcases Nat.lt_or_ge (len + 15) 2147483648 with hint | hover
  · rw [roundedLen_of_lt hint, PTRDIFF_MAX]
    omega
  · have hbad := roundedLen_of_ge hover
    omega

/-! ## Samples -/

/-- `CBC_ENCRYPT_KEY`. -/
def cbcEncryptKey : Block := fun _ => 0

/-- A block of zeros except for one byte. -/
def unitBlock (j : Fin 16) (b : UInt8) : Block := fun i => if i = j then b else 0

/-- AES-128 with the key of zeros, of the block of zeros. -/
def aesZero : Block :=
  ![0x66, 0xe9, 0x4b, 0xd4, 0xef, 0x8a, 0x2c, 0x3b, 0x88, 0x4c, 0xfa, 0x59, 0xca, 0x34, 0x2b, 0x2e]

/-- AES-128 with the key of zeros, of the block with a one in its third byte. -/
def aesUnit : Block :=
  ![0xb0, 0x13, 0xca, 0x8a, 0x62, 0xa8, 0x58, 0x05, 0x3e, 0x9f, 0xb6, 0x67, 0xed, 0x39, 0x82, 0x9e]

/-- A permutation of the blocks that agrees with AES-128, under the key of zeros,
on these two blocks. -/
def sampleCipher : Cipher where
  ecbEncrypt _ := (Equiv.swap (fun _ => 0) aesZero).trans (Equiv.swap (unitBlock 2 1) aesUnit)
  ecbDecrypt _ := ((Equiv.swap (fun _ => 0) aesZero).trans (Equiv.swap (unitBlock 2 1) aesUnit)).symm
  decrypt_encrypt _ b := Equiv.symm_apply_apply _ b

example : sampleCipher.ecbEncrypt cbcEncryptKey (fun _ => 0) = aesZero ∧
    sampleCipher.ecbEncrypt cbcEncryptKey (unitBlock 2 1) = aesUnit := by decide

/-- A text in memory, with zeros behind. -/
def textAt (s : List UInt8) : ℕ → UInt8 := fun i => s.getD i 0

/-- The initialisation vector that a first block cancels. -/
def firstBlock (content : ℕ → UInt8) : Block := fun j => content j

theorem isMessage_textAt {s : List UInt8} (h : 0 ∉ s) : IsMessage (textAt s) s.length := by
  constructor
  · intro i hi
    rw [textAt, List.getD_eq_getElem _ _ hi]
    exact fun heq => h (heq ▸ List.getElem_mem hi)
  · rw [textAt, List.getD_eq_default _ _ le_rfl]

theorem round_trip_iff_hi : RoundTrips sampleCipher cbcEncryptKey (firstBlock (textAt [104, 105]))
    (textAt [104, 105]) 2 :=
  (round_trip_iff sampleCipher cbcEncryptKey _ (isMessage_textAt (by decide))).mpr (by decide)

/-- A message of one whole block is not terminated when it has been decrypted. -/
theorem whole_block_lost :
    ¬ ∀ (aes : Cipher) (key iv : Block) (content : ℕ → UInt8) (len : ℕ), 1 ≤ len →
      IsMessage content len → RoundTrips aes key iv content len := by
  intro hclaim
  have hmsg : IsMessage (textAt (List.replicate 16 97)) 16 :=
    isMessage_textAt (s := List.replicate 16 97) (by decide)
  have hback := hclaim sampleCipher cbcEncryptKey (firstBlock (textAt (List.replicate 16 97)))
    _ 16 (by decide) hmsg
  rw [roundTrips_iff_lt hmsg, roundedLen_of_lt (by decide)] at hback
  exact absurd hback.2 (by decide)

/-! ## Independence -/

/-- A payload is the same for two memories exactly when the same bytes are
encrypted. -/
theorem encrypt_eq_iff {content' : ℕ → UInt8} (hfits : roundedLen len ≤ PTRDIFF_MAX) :
    mqttPayloadEncrypt (some aes) key iv content' len = mqttPayloadEncrypt (some aes) key iv content len ↔
      ∀ i < roundedLen len, content' i = content i := by
  rw [encrypt_of_le hfits, encrypt_of_le hfits]
  constructor
  · intro heq
    simp only [Result.success.injEq, Prod.mk.injEq, and_true, envelopeBytes,
      List.append_cancel_left_eq] at heq
    -- the ciphertext determines the bytes that were encrypted
    have hplain := cbcDecrypt_cipherText aes key iv content' len
    rw [heq, cbcDecrypt_cipherText, Option.some.injEq] at hplain
    exact plainBytes_eq_iff.mp hplain.symm
  · intro hsame
    rw [envelopeBytes, envelopeBytes, cipherText, cipherText, plainBytes_eq_iff.mpr hsame]

/-- Bytes behind the NUL have no influence on the payload exactly when the NUL is
the last byte of a block or not encrypted at all, or when the rounded length
is no `int`. -/
theorem payload_depends_only_on_message_iff (aes : Cipher) (key iv : Block) (content : ℕ → UInt8)
    (len : ℕ) :
    (∀ content' : ℕ → UInt8, (∀ i ≤ len, content' i = content i) →
      mqttPayloadEncrypt (some aes) key iv content' len =
        mqttPayloadEncrypt (some aes) key iv content len) ↔
    len % 16 = 0 ∨ len % 16 = 15 ∨ 2147483648 ≤ len + 15 := by
  have hreads : (PTRDIFF_MAX < roundedLen len ∨ roundedLen len ≤ len + 1) ↔
      len % 16 = 0 ∨ len % 16 = 15 ∨ 2147483648 ≤ len + 15 := by
    rcases Nat.lt_or_ge (len + 15) 2147483648 with hint | hover
    · rw [roundedLen_of_lt hint, PTRDIFF_MAX]
      omega
    · have hbad := roundedLen_of_ge hover
      omega
  rw [← hreads]
  constructor
  · intro hindep
    by_contra hlong
    rw [not_or, not_lt, not_le] at hlong
    -- the byte behind the NUL is encrypted: change it
    have hother : ∀ b : UInt8, (if b = 0 then (1 : UInt8) else 0) ≠ b := by
      intro b
      split
      · rename_i hb
        rw [hb]
        decide
      · rename_i hb
        exact fun h => hb h.symm
    have heq := hindep (Function.update content (len + 1)
      (if content (len + 1) = 0 then 1 else 0)) (by
        intro i hi
        rw [Function.update_of_ne (by omega)])
    have hsame := (encrypt_eq_iff hlong.1).mp heq (len + 1) hlong.2
    rw [Function.update_self] at hsame
    exact hother _ hsame
  · rintro (hbig | hshort) content' hagree
    · rw [encrypt_of_gt hbig, encrypt_of_gt hbig]
    · rcases Nat.lt_or_ge PTRDIFF_MAX (roundedLen len) with hbig | hfits
      · rw [encrypt_of_gt hbig, encrypt_of_gt hbig]
      · exact (encrypt_eq_iff hfits).mpr fun i hi => hagree i (by omega)

/-- The byte behind the NUL of a message of one byte is sent along. -/
theorem trailing_byte_sent :
    ¬ ∀ (aes : Cipher) (key iv : Block) (content content' : ℕ → UInt8) (len : ℕ), 1 ≤ len →
      (∀ i ≤ len, content' i = content i) →
      mqttPayloadEncrypt (some aes) key iv content' len =
        mqttPayloadEncrypt (some aes) key iv content len := by
  intro hclaim
  have heq := hclaim sampleCipher cbcEncryptKey (firstBlock (textAt [97])) (textAt [97])
    (textAt [97, 0, 1]) 1 le_rfl (by decide)
  have hfits : roundedLen 1 ≤ PTRDIFF_MAX := by
    rw [roundedLen_of_lt (by decide)]
    decide
  have hread : 2 < roundedLen 1 := by
    rw [roundedLen_of_lt (by decide)]
    decide
  exact absurd ((encrypt_eq_iff hfits).mp heq 2 hread) (by decide)

end MqttMsgHub
