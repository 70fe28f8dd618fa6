import MqttMsgHub.JsonAccepts
import MqttMsgHub.RequestBody

/-! # Values that are read back

A value that the tokener has read keeps the rules of `Readable`: unique member names
without NUL, doubles whose text can be read, no more levels than the tokener has. The
serialised text of such a value is in the grammar of `JsonDialect`, so that it is read
back as the same value.

* `Value.readable` — what is read is readable;
* `value_print` — a readable value is written in the grammar;
* `parse_print` — so a value that was read is read back from its serialised text;
* `cached_message_read_back` — and an accepted request from its cache file.
-/

namespace MqttMsgHub

variable {str l l' r pb s t : Text} {k k' : ℕ} {v w : Json} {vs ws : List Json}
  {ms ns : List (Text × Json)} {name : Text}

/-! ## Readable values -/

/-- The text of a double that the tokener reads. -/
def ReadableDouble (t : Text) : Prop :=
  Number t (.double t) ∨ t = "NaN".toList ∨ t = "Infinity".toList ∨ t = "-Infinity".toList

/-- The member names of an object that has been read. -/
structure ReadableNames (ms : List (Text × Json)) : Prop where
  nodup : (ms.map Prod.fst).Nodup
  noNul : ∀ m ∈ ms, '\x00' ∉ m.1

/-- A value that the tokener may have read, with at most `k` levels inside of it. -/
inductive Readable : ℕ → Json → Prop where
  | null {k : ℕ} : Readable k .null
  | boolean {k : ℕ} {b : Bool} : Readable k (.boolean b)
  | int {k : ℕ} {n : CInt64} : Readable k (.int n)
  | double {k : ℕ} {t : Text} : ReadableDouble t → Readable k (.double t)
  | string {k : ℕ} {s : Text} : Readable k (.string s)
  | array {k : ℕ} {vs : List Json} : (vs ≠ [] → 0 < k) → (∀ v ∈ vs, Readable (k - 1) v) →
      Readable k (.array vs)
  | object {k : ℕ} {ms : List (Text × Json)} : (ms ≠ [] → 0 < k) → ReadableNames ms →
      (∀ m ∈ ms, Readable (k - 1) m.2) → Readable k (.object ms)

theorem Readable.mono (h : Readable k v) (hle : k ≤ k') : Readable k' v := by
  induction h generalizing k' with
  | null => exact .null
  | boolean => exact .boolean
  | int => exact .int
  | double hdouble => exact .double hdouble
  | string => exact .string
  | array hlevel _ ih =>
    exact .array (fun hne => by have hpos := hlevel hne; omega) fun v hv => ih v hv (by omega)
  | object hlevel hnames _ ih =>
    exact .object (fun hne => by have hpos := hlevel hne; omega) hnames
      fun m hm => ih m hm (by omega)

theorem nul_notMem_upToNul (s : Text) : '\x00' ∉ upToNul s := by
  intro h
  have hne := List.mem_takeWhile_imp h
  simp at hne

theorem readableNames_nil : ReadableNames [] :=
  ⟨List.nodup_nil, fun _ hm => absurd hm List.not_mem_nil⟩

theorem ReadableNames.set (h : ReadableNames ms) (hname : '\x00' ∉ name) (v : Json) :
    ReadableNames (Assoc.set name v ms) where
  nodup := Assoc.nodup_keys_set h.nodup name v
  noNul := by
    intro m hm
    rcases Assoc.mem_set hm with rfl | hm
    · exact hname
    · exact h.noNul m hm

/-- A member is added to a readable object. -/
theorem Readable.add (h : Readable k (.object ms)) (hk : 0 < k) (hname : '\x00' ∉ name)
    (hv : Readable (k - 1) v) : Readable k (.object (Assoc.set name v ms)) := by
  cases h with
  | object _ hnames hms =>
    refine .object (fun _ => hk) (hnames.set hname v) ?_
    intro m hm
    rcases Assoc.mem_set hm with rfl | hm
    · exact hv
    · exact hms m hm

/-- An element behind others. -/
theorem Readable.snoc (h : Readable k (.array vs)) (hk : 0 < k) (hv : Readable (k - 1) v) :
    Readable k (.array (vs ++ [v])) := by
  cases h with
  | array _ hvs =>
    refine .array (fun _ => hk) ?_
    intro u hu
    rw [List.mem_append, List.mem_singleton] at hu
    rcases hu with hu | rfl
    · exact hvs u hu
    · exact hv

theorem Number.readable (h : Number t v) : Readable k v := by
  cases h with
  | int => exact .int
  | double hshape hfrac hparse => exact .double (.inl (.double hshape hfrac hparse))

/-- What is read is readable. -/
theorem Value.readable (h : Value k l v r) : Readable k v := by
  -- by induction on the derivation: what is read behind readable elements or members keeps
  -- them readable
  refine @Value.rec (fun k _ v _ _ => Readable k v)
    (fun k vs _ ws _ _ => Readable k (.array vs) → Readable k (.array ws))
    (fun k ms _ ns _ _ => Readable k (.object ms) → Readable k (.object ns))
    ?_ ?_ ?_ ?_ ?_ ?_ ?_ ?_ ?_ ?_ ?_ ?_ ?_ ?_ ?_ ?_ k l v r h
  · -- `null`
    exact fun _ => .null
  · -- `NaN`
    exact fun _ => .double (.inr (.inl rfl))
  · -- `Infinity`
    exact fun _ => .double (.inr (.inr (.inl rfl)))
  · -- `-Infinity`
    exact fun _ => .double (.inr (.inr (.inr rfl)))
  · -- `true`
    exact fun _ => .boolean
  · -- `false`
    exact fun _ => .boolean
  · -- a number
    exact fun hnumber _ => hnumber.readable
  · -- a string
    exact fun _ _ => .string
  · -- an array
    intro k l l' r vs _ _ ih
    exact ih (.array (fun hne => absurd rfl hne) fun v hv => absurd hv List.not_mem_nil)
  · -- an object
    intro k l l' r ms _ _ ih
    exact ih (.object (fun hne => absurd rfl hne) readableNames_nil
      fun m hm => absurd hm List.not_mem_nil)
  · -- no more elements
    exact fun hvs => hvs
  · -- the last element
    intro k vs v l l' r _ _ ih hvs
    exact hvs.snoc (Nat.succ_pos k) ih
  · -- an element and a comma
    intro k vs ws v l l₁ l₂ l₃ r _ _ _ _ ih ihmore hvs
    exact ihmore (hvs.snoc (Nat.succ_pos k) ih)
  · -- no more members
    exact fun hms => hms
  · -- the last member
    intro k ms q s l l₁ l₂ l₃ l₄ r v _ _ _ _ _ _ ih hms
    exact hms.add (Nat.succ_pos k) (nul_notMem_upToNul s) ih
  · -- a member and a comma
    intro k ms ns q s l l₁ l₂ l₃ l₄ l₅ l₆ r v _ _ _ _ _ _ _ _ ih ihmore hms
    exact ihmore (hms.add (Nat.succ_pos k) (nul_notMem_upToNul s) ih)

theorem Stops.readable (h : Stops k l v) : Readable k v := by
  induction h with
  | here hv => exact hv.readable
  | element _ _ _ ih => exact ih.mono (Nat.le_succ _)
  | member _ _ _ ih => exact ih.mono (Nat.le_succ _)

/-- A value that `json_tokener_parse` returns. -/
theorem readable_of_parse (h : jsonTokenerParse l = some v) : Readable 31 v := by
  rcases jsonTokenerParse_iff.mp h with ⟨-, -, htext⟩
  cases htext with
  | whole _ hv => exact hv.readable
  | stopped _ hstops => exact hstops.readable

/-! ## What is written -/

theorem codeUnit_control : ∀ n < 32, JsonString.codeUnit '0' '0' (jsonHexChar (n / 16))
    (jsonHexChar (n % 16)) = some n := by decide

/-- A character of a string is read back. -/
theorem quoted_escapeChar (c : Char) (h : Quoted '"' l s r) :
    Quoted '"' (jsonEscapeChar c ++ l) (c :: s) r := by
  have hescape : ∀ e, JsonString.unescape e = some c → Quoted '"' ('\\' :: e :: l) (c :: s) r :=
    fun e he => .escape he h
  unfold jsonEscapeChar
  -- the short escapes first, then the other control characters, then all the rest
  split_ifs with hb hn hr ht hf hquote hback hcontrol
  · exact hescape 'b' (by rw [hb]; rfl)
  · exact hescape 'n' (by rw [hn]; rfl)
  · exact hescape 'r' (by rw [hr]; rfl)
  · exact hescape 't' (by rw [ht]; rfl)
  · exact hescape 'f' (by rw [hf]; rfl)
  · exact hescape '"' (by rw [hquote]; rfl)
  · exact hescape '\\' (by rw [hback]; rfl)
  · have hlt : c.toNat < 32 := hcontrol
    have hcode : unescapedUtf c.toNat = [c] := by
      rw [unescapedUtf, if_pos (by omega), Char.ofNat_toNat]
    have hunit : Unicode none
        ('0' :: '0' :: jsonHexChar (c.toNat / 16) :: jsonHexChar (c.toNat % 16) :: l)
        (unescapedUtf c.toNat) l :=
      .unit (codeUnit_control c.toNat hlt)
        (fun hhigh => absurd hhigh.1 (by omega)) (fun hlow => absurd hlow.1 (by omega))
    rw [hcode] at hunit
    exact .unicode hunit h
  · refine .plain hquote hback ?_ h
    rintro rfl
    exact hcontrol (by decide)

theorem quoted_jsonQuote (s r : Text) : Quoted '"' (s.flatMap jsonEscapeChar ++ '"' :: r) s r := by
  induction s with
  | nil => exact .close
  | cons c s ih =>
    rw [List.flatMap_cons, List.append_assoc]
    exact quoted_escapeChar c ih

/-- A printed number: a sign or none, and digits. -/
theorem sprintfD_cases (n : ℤ) : ∃ (sign : Text) (c : Char) (ds : Text),
    (sign = [] ∨ sign = ['-']) ∧ (∀ d ∈ c :: ds, d.isDigit) ∧ sprintfD n = sign ++ c :: ds := by
  obtain ⟨c, ds, hcons⟩ := List.exists_cons_of_ne_nil (by simp : Nat.toDigits 10 n.natAbs ≠ [])
  have hdigits : ∀ d ∈ c :: ds, d.isDigit := by
    intro d hd
    rw [← hcons] at hd
    exact Nat.isDigit_of_mem_toDigits (by decide) (by decide) hd
  rcases lt_or_ge n 0 with hneg | hpos
  · exact ⟨['-'], c, ds, .inr rfl, hdigits, by rw [sprintfD_of_neg hneg, hcons]; rfl⟩
  · exact ⟨[], c, ds, .inl rfl, hdigits, by rw [sprintfD_of_nonneg hpos, hcons]; rfl⟩

/-- A printed number is read back. -/
theorem number_sprintfD (n : CInt64) : Number (sprintfD n.1) (.int n) := by
  rcases sprintfD_cases n.1 with ⟨sign, c, ds, hsign, hdigits, htext⟩
  have hc := hdigits c List.mem_cons_self
  have hwhole := whole_of_digits hsign hdigits
  have hshape : NumberShape (sign ++ c :: ds) := by
    refine ⟨starts_of_sign hsign hc ds, ?_, (follows_sign hsign).digits hdigits⟩
    intro d hd
    rcases hwhole d hd with hdigit | rfl
    · exact isNumberChar_of_isDigit hdigit
    · rfl
  have hparse : jsonParseInt64 (sprintfD n.1) = some n := by
    unfold jsonParseInt64
    rw [strtoll_sprintfD, if_pos]
    rcases unsigned_number hsign hc ds with ⟨hunsigned, hdrop⟩
    rw [htext, hdrop, hunsigned]
    exact hc
  rw [htext] at hparse ⊢
  exact .int hshape (not_fractional hwhole) hparse

/-- A double is written as it was read. -/
theorem ReadableDouble.value (h : ReadableDouble t) (hend : isNumberChar (peekChar r) = false) :
    Value k (t ++ r) (.double t) r := by
  rcases h with hnumber | rfl | rfl | rfl
  · exact .number hnumber hend
  · exact .nan rfl
  · exact .infinity rfl
  · exact .minusInfinity rfl

/-- What is written for a value is read as the value. -/
def Prints (k : ℕ) (v : Json) : Prop :=
  ∀ r : Text, isNumberChar (peekChar r) = false → Value k (jsonObjectToJsonString v ++ r) v r

/-- The elements of an array, behind others. -/
theorem elements_print (hprints : ∀ v ∈ vs, Prints k v) (ws : List Json) (r : Text) :
    Elements (k + 1) ws (jsonElements vs ++ ']' :: r) (ws ++ vs) r := by
  induction vs generalizing ws with
  | nil =>
    rw [List.append_nil]
    exact .close
  | cons v vs ih =>
    have hv := hprints v List.mem_cons_self
    cases vs with
    | nil => exact .last (hv _ rfl) .nil
    | cons u us =>
      have hmore := ih (fun w hw => hprints w (List.mem_cons_of_mem v hw)) (ws ++ [v])
      rw [← List.append_cons] at hmore
      have htext : jsonElements (v :: u :: us) ++ ']' :: r =
          jsonObjectToJsonString v ++ ',' :: (jsonElements (u :: us) ++ ']' :: r) := by
        simp [jsonElements]
      rw [htext]
      exact .next (hv _ rfl) .nil .nil hmore

theorem upToNul_of_notMem (h : '\x00' ∉ s) : upToNul s = s := by
  apply List.takeWhile_eq_self_iff.mpr
  intro c hc
  have hne : c ≠ '\x00' := by
    rintro rfl
    exact h hc
  simpa using hne

/-- The members of an object, behind others. -/
theorem members_print (hprints : ∀ m ∈ ms, Prints k m.2) (hnames : ReadableNames (ns ++ ms))
    (r : Text) : Members (k + 1) ns (jsonMembers ms ++ '\x7d' :: r) (ns ++ ms) r := by
  induction ms generalizing ns with
  | nil =>
    rw [List.append_nil]
    exact .close
  | cons m ms ih =>
    rcases m with ⟨name, v⟩
    have hv : Prints k v := hprints (name, v) List.mem_cons_self
    -- the name is not there yet
    have hset : Assoc.set (upToNul name) v ns = ns ++ [(name, v)] := by
      have hnul : '\x00' ∉ name := hnames.noNul (name, v) (by simp)
      have hnew : name ∉ ns.map Prod.fst := by
        have hnodup := hnames.nodup
        rw [List.map_append, List.nodup_append] at hnodup
        exact fun hmem => hnodup.2.2 name hmem name (by simp) rfl
      rw [upToNul_of_notMem hnul, Assoc.set_of_notMem hnew]
    have hname := quoted_jsonQuote name
    cases ms with
    | nil =>
      have htext : jsonMembers [(name, v)] ++ '\x7d' :: r = '"' :: (name.flatMap jsonEscapeChar ++
          '"' :: ':' :: (jsonObjectToJsonString v ++ '\x7d' :: r)) := by
        simp [jsonMembers, jsonQuote]
      rw [htext, ← hset]
      exact .last (.inl rfl) (hname _) .nil .nil (hv _ rfl) .nil
    | cons m' ms =>
      have htext : jsonMembers ((name, v) :: m' :: ms) ++ '\x7d' :: r = '"' ::
          (name.flatMap jsonEscapeChar ++ '"' :: ':' :: (jsonObjectToJsonString v ++
            ',' :: (jsonMembers (m' :: ms) ++ '\x7d' :: r))) := by
        simp [jsonMembers, jsonQuote]
      rw [List.append_cons] at hnames
      have hmore := ih (fun m hm => hprints m (List.mem_cons_of_mem _ hm)) hnames
      rw [← hset] at hmore
      rw [htext, List.append_cons ns, ← hset]
      exact .next (.inl rfl) (hname _) .nil .nil (hv _ rfl) .nil .nil hmore

/-- A readable value is written in the grammar. -/
theorem value_print (h : Readable k v) : Prints k v := by
  induction h with
  | null => exact fun r _ => .null rfl
  | @boolean k b =>
    intro r _
    cases b with
    | true => exact .true rfl
    | false => exact .false rfl
  | int => exact fun r hend => .number (number_sprintfD _) hend
  | double hdouble => exact fun r hend => hdouble.value hend
  | @string k s =>
    intro r _
    have htext : jsonObjectToJsonString (.string s) ++ r =
        '"' :: (s.flatMap jsonEscapeChar ++ '"' :: r) := by
      simp [jsonObjectToJsonString, jsonQuote]
    rw [htext]
    exact .string (.inl rfl) (quoted_jsonQuote s r)
  | @array k vs hlevel _ ih =>
    intro r _
    have htext : jsonObjectToJsonString (.array vs) ++ r =
        '[' :: (jsonElements vs ++ ']' :: r) := by
      simp [jsonObjectToJsonString]
    rw [htext]
    cases vs with
    | nil => exact .array .nil .close
    | cons v vs =>
      obtain ⟨k, rfl⟩ := Nat.exists_eq_succ_of_ne_zero (hlevel (by simp)).ne'
      exact .array .nil (elements_print ih [] r)
  | @object k ms hlevel hnames _ ih =>
    intro r _
    have htext : jsonObjectToJsonString (.object ms) ++ r =
        '\x7b' :: (jsonMembers ms ++ '\x7d' :: r) := by
      simp [jsonObjectToJsonString]
    rw [htext]
    cases ms with
    | nil => exact .object .nil .close
    | cons m ms =>
      obtain ⟨k, rfl⟩ := Nat.exists_eq_succ_of_ne_zero (hlevel (by simp)).ne'
      exact .object .nil (members_print ih hnames r)

/-! ## Reading back -/

/-- A readable value is read back from its serialised text. -/
theorem parse_print_of_readable (h : Readable 31 v) (hnull : v ≠ .null)
    (hlen : (jsonObjectToJsonString v).length ≤ INT_MAX.1) :
    jsonTokenerParse (jsonObjectToJsonString v) = some v := by
  have hvalue := value_print h [] rfl
  rw [List.append_nil] at hvalue
  refine jsonTokenerParse_iff.mpr ⟨hnull, ?_, .whole .nil hvalue .nil ⟨rfl, by decide⟩⟩
  have hle : (upToNul (jsonObjectToJsonString v)).length ≤ (jsonObjectToJsonString v).length :=
    (List.takeWhile_prefix _).length_le
  omega

/-- A value that was read is read back from its serialised text. -/
theorem parse_print (h : jsonTokenerParse l = some v)
    (hlen : (jsonObjectToJsonString v).length ≤ INT_MAX.1) :
    jsonTokenerParse (jsonObjectToJsonString v) = some v :=
  parse_print_of_readable (readable_of_parse h) (jsonTokenerParse_iff.mp h).1 hlen

/-- An object with a member of each kind that is written differently. -/
def sampleObject : Json :=
  .object [("a".toList, .array [.double "-2.50".toList]), ("b".toList, .string "A\t".toList)]

/-- Single quotation marks, a comment, a member twice, a comma too many. -/
theorem parse_print_sample :
    jsonTokenerParse "\x7b'a':1, 'a':[-2.50,],/**/'b':'A\\t' \x7d".toList = some sampleObject ∧
      jsonTokenerParse (jsonObjectToJsonString sampleObject) = some sampleObject := by
  have hread : jsonTokenerParse "\x7b'a':1, 'a':[-2.50,],/**/'b':'A\\t' \x7d".toList =
      some sampleObject := rfl
  exact ⟨hread, parse_print hread (length_le_INT_MAX (by decide))⟩

/-! ## Requests -/

variable {body : Text} {mac : Option Text} {now : CInt64} {c : MqttSendContent}

/-- The payload of a request has room for the members that complete it. -/
theorem readable_addIfAbsent (name : Text) (h : Readable k (.object ms)) (hk : 0 < k)
    (hname : '\x00' ∉ name) (hv : Readable (k - 1) v) :
    ∃ ms', addIfAbsent (.object ms) name v = .object ms' ∧ Readable k (.object ms') := by
  unfold addIfAbsent
  split
  · exact ⟨ms, rfl, h⟩
  · exact ⟨_, rfl, h.add hk hname hv⟩

theorem readable_completePayload (h : Readable k (.object ms)) (hk : 0 < k) (mac : Option Text)
    (now : CInt64) : Readable k (completePayload (.object ms) mac now) := by
  rcases readable_addIfAbsent JSON_NODE_SN_KEY h hk (by decide) (.string (s := getDeviceSn))
    with ⟨ms₁, hms₁, h₁⟩
  have hmac : ∃ ms₂, (if stringIsEmpty mac then Json.object ms₁
      else addIfAbsent (.object ms₁) JSON_NODE_MAC_KEY (.string (mac.getD []))) = .object ms₂ ∧
      Readable k (.object ms₂) := by
    split
    · exact ⟨ms₁, rfl, h₁⟩
    · exact readable_addIfAbsent _ h₁ hk (by decide) .string
  rcases hmac with ⟨ms₂, hms₂, h₂⟩
  rcases readable_addIfAbsent JSON_NODE_TIME_KEY h₂ hk (by decide) (.int (n := now))
    with ⟨ms₃, hms₃, h₃⟩
  simp only [completePayload, hms₁, hms₂, hms₃]
  exact h₃

/-- The object of an accepted request, completed or not, is readable. -/
theorem readable_of_request
    (h : parseMqttSendRequestBody jsonTokenerParse body mac now = .ok (c, v)) :
    Readable 31 v ∧ v ≠ .null := by
  rcases parse_cases h with
    ⟨jobj, topic, hJ, -, -, ⟨s, -, -, -, rfl⟩ | ⟨members, hm, -, rfl⟩⟩
  · exact ⟨readable_of_parse hJ, (jsonTokenerParse_iff.mp hJ).1⟩
  · rcases object_of_get hm with ⟨ms, rfl, hfind⟩
    have hobject := readable_of_parse hJ
    have hpayload : Readable 30 (.object members) := by
      cases hobject with
      | object _ _ hms => exact hms _ (Assoc.mem_of_find hfind)
    refine ⟨hobject.add (by decide) (by decide) ?_, by simp [jsonObjectObjectAdd]⟩
    exact readable_completePayload hpayload (by decide) mac now

/-- The message that the hub caches is read back as what was accepted, at any later time and
without the client's MAC address: the same content, and the same object. -/
theorem cached_message_read_back
    (h : parseMqttSendRequestBody jsonTokenerParse body mac now = .ok (c, v))
    (hlen : (jsonObjectToJsonString v).length ≤ INT_MAX.1) (later : CInt64) :
    parseMqttSendRequestBody jsonTokenerParse (jsonObjectToJsonString v) none later = .ok (c, v) := by
  rcases readable_of_request h with ⟨hreadable, hnull⟩
  exact parse_serialised h (parse_print_of_readable hreadable hnull hlen) later

theorem cached_message_read_back_sample : ∃ c,
    parseMqttSendRequestBody jsonTokenerParse "\x7b'topic':'t/1','payload':\x7b\"a\":null\x7d\x7d".toList
        (some "02".toList) 5 = .ok (c, sampleCompleted) ∧
      parseMqttSendRequestBody jsonTokenerParse (jsonObjectToJsonString sampleCompleted) none 9 =
        .ok (c, sampleCompleted) := by
  have hfirst : ∃ c, parseMqttSendRequestBody jsonTokenerParse
      "\x7b'topic':'t/1','payload':\x7b\"a\":null\x7d\x7d".toList (some "02".toList) 5 =
        .ok (c, sampleCompleted) := ⟨_, rfl⟩
  rcases hfirst with ⟨c, hc⟩
  exact ⟨c, hc, cached_message_read_back hc (length_le_INT_MAX (by decide)) 9⟩

end MqttMsgHub
