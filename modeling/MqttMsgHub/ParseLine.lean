import MqttMsgHub.IniFile
import MqttMsgHub.Lib.Ptr

/-! # `parse_line` and its pointers

`parse_line` moves raw pointers over the line it is given, in both directions,
and overwrites the line end. Here it is followed access by access on the buffer
that `_parse_file` passes: the characters of the line and a NUL. An access
outside of these, or a negative count for `malloc` and `strncpy`, is undefined.

The scan for the end of the key, `while(*end == ' ') --end`, starts in front of
the `=` and has no other stop condition. On a line without a key there is nothing
that could stop it.

* `parseLineInPlace_result` — the pointers find what `parseLine` takes from the
  line, and leave the buffer where that says so;
* `parseLineInPlace_defined_iff` — so `parse_line` stays inside of its line if and
  only if the first character of it that is not a blank is not a `=`.
-/

namespace MqttMsgHub

/-! ## The function, access by access -/

/-- `malloc(count + 1)`, `strncpy` of `count` characters, and a NUL. -/
def copyString (buf : Text) (start count : ℤ) : Option Text :=
  if count < 0 then none else Ptr.copy '\x00' buf start count.toNat

/-- `if(*end == c) { *end = 0; --end; }`: the buffer and `end` afterwards. -/
def cutEnd (c : Char) (buf : Text) (last : ℤ) : Option (Text × ℤ) := do
  let x ← Ptr.read buf last
  if x = c then
    let buf ← Ptr.write buf last '\x00'
    return (buf, last - 1)
  else return (buf, last)

/-- The second half of `parse_line`, behind the `=`: the buffer and the pair. -/
def extractValue (buf : Text) (len : ℤ) (tag : Text) (p : ℤ) : Option (Text × Option TagValue) := do
  let start ← Ptr.scanForward (fun x i => x == ' ' && i != len) buf p
  if start = len then return (buf, none)
  let (buf, last) ← cutEnd '\n' buf (len - 1)
  let (buf, last) ← cutEnd '\r' buf last
  let count := last - start + 1
  if 0 < count then
    let value ← copyString buf start count
    return (buf, some (tag, value))
  else return (buf, none)

/-- `parse_line(line, len)` with `line` at offset 0 of the buffer. -/
def parseLineInPlace (buf : Text) (len : ℤ) : Option (Text × Option TagValue) := do
  let start ← Ptr.scanForward (fun x _ => x == ' ') buf 0
  if start = len then return (buf, none)
  let x ← Ptr.read buf start
  -- blank lines, groups and comments
  if x = '\r' ∨ x = '\n' ∨ x = '\x00' ∨ x = '[' ∨ x = '#' then return (buf, none)
  let p ← Ptr.scanForward (fun x i => x != '=' && i != len) buf start
  if p = len then return (buf, none)
  -- backwards from the '=', with no look at the start of the line
  let last ← Ptr.scanBackward (· == ' ') buf (p - 1)
  let tag ← copyString buf start (last - start + 1)
  extractValue buf len tag (p + 1)

/-- What `parse_line` returns; nothing when it leaves its buffer. -/
def Parsed.result : Parsed → Option (Option TagValue)
  | .nothing => some none
  | .pair tag value => some (some (tag, value))
  | .outOfBounds => none

/-! ## The value -/

variable {pre s rest : Text} {p last : ℤ}

theorem copyString_eq (hs : '\x00' ∉ s) (hp : p = pre.length) :
    copyString (pre ++ s ++ rest) p s.length = some s := by
  have hcount : ¬ (s.length : ℤ) < 0 := by omega
  rw [copyString, if_neg hcount, Int.toNat_natCast]
  exact Ptr.copy_eq hs rest hp

/-- The last character of `s` goes if it is `c`. In front of `s` stands another
character, so that nothing is cut off when `s` is empty. -/
theorem cutEnd_eq {c y : Char} (hpre : pre.getLast? = some y) (hy : y ≠ c)
    (hlast : last = (pre.length : ℤ) + s.length - 1) :
    ∃ rest', cutEnd c (pre ++ s ++ rest) last =
      some (pre ++ chop c s ++ rest', (pre.length : ℤ) + (chop c s).length - 1) := by
  rcases List.eq_nil_or_concat s with rfl | ⟨t, x, rfl⟩
  · rcases List.getLast?_eq_some_iff.mp hpre with ⟨init, rfl⟩
    have hread : Ptr.read (init ++ [y] ++ [] ++ rest) last = some y := by
      simp only [List.append_assoc, List.singleton_append]
      apply Ptr.read_append
      rw [hlast]
      simp
    refine ⟨rest, ?_⟩
    rw [cutEnd, hread, hlast]
    simp [hy, chop]
  · rw [List.concat_eq_append] at hlast ⊢
    have hsplit : pre ++ (t ++ [x]) ++ rest = pre ++ t ++ x :: rest := by simp
    have hindex : last = ((pre ++ t).length : ℤ) := by
      rw [hlast]
      simp only [List.length_append, List.length_singleton]
      omega
    rw [cutEnd, hsplit, Ptr.read_append hindex]
    by_cases hx : x = c
    · subst hx
      refine ⟨'\x00' :: rest, ?_⟩
      rw [chop_concat, Option.bind_eq_bind, Option.bind_some, if_pos rfl,
        Ptr.write_append hindex, hindex]
      simp
    · have hchop : chop c (t ++ [x]) = t ++ [x] := by simp [chop, hx]
      refine ⟨rest, ?_⟩
      rw [hchop, Option.bind_eq_bind, Option.bind_some, if_neg hx, hlast]
      simp

theorem eq_blank_of_mem_takeWhile {x : Char} (h : x ∈ s.takeWhile (· == ' ')) : x = ' ' := by
  simpa using List.mem_takeWhile_imp h

/-- Blanks between the `=` and the value are passed; the scan stops at the
value. -/
theorem scanForward_blanks {x : Char} {len : ℤ} (hs : ∀ y ∈ s, y = ' ') (hx : x ≠ ' ')
    (hp : p = (pre.length : ℤ)) (hlen : p + s.length ≤ len) :
    Ptr.scanForward (fun x i => x == ' ' && i != len) (pre ++ s ++ x :: rest) p =
      some (p + s.length) := by
  apply Ptr.scanForward_eq hp
  · intro y hy i _ hi
    have hne : i ≠ len := by omega
    simp [hs y hy, hne]
  · simp [hx]

/-- Behind the `=`: the buffer up to there is `pre`. -/
theorem extractValue_eq {value : Text} (hpre : pre.getLast? = some '=') (hvalue : '\x00' ∉ value)
    (tag : Text) :
    (extractValue (pre ++ value ++ ['\x00']) ((pre.length : ℤ) + value.length) tag
      pre.length).map Prod.snd = (parseValue tag value).result := by
  have hsplit : value.takeWhile (· == ' ') ++ value.dropWhile (· == ' ') = value :=
    List.takeWhile_append_dropWhile
  have hblanks : ∀ y ∈ value.takeWhile (· == ' '), y = ' ' := fun y hy =>
    eq_blank_of_mem_takeWhile hy
  unfold extractValue parseValue
  cases hw : value.dropWhile (· == ' ') with
  | nil =>
    rw [hw, List.append_nil] at hsplit
    rw [hsplit] at hblanks
    rw [scanForward_blanks hblanks (by decide) rfl le_rfl]
    simp [chop, Parsed.result]
  | cons d w =>
    have hd : d ≠ ' ' := ne_blank_of_dropWhile hw
    rw [hw] at hsplit
    generalize value.takeWhile (· == ' ') = blanks at hsplit hblanks
    subst hsplit
    -- the character in front of the value is the '=' or a blank
    obtain ⟨y, hy, hn, hr⟩ : ∃ y, (pre ++ blanks).getLast? = some y ∧ y ≠ '\n' ∧ y ≠ '\r' := by
      rcases List.eq_nil_or_concat blanks with rfl | ⟨init, y, rfl⟩
      · exact ⟨'=', by simpa using hpre, by decide, by decide⟩
      · have hblank : y = ' ' := hblanks y (by simp)
        exact ⟨y, by simp, by rw [hblank]; decide, by rw [hblank]; decide⟩
    have hscan : Ptr.scanForward
        (fun x i => x == ' ' && i != (pre.length : ℤ) + (blanks ++ d :: w).length)
        (pre ++ (blanks ++ d :: w) ++ ['\x00']) pre.length = some ((pre.length : ℤ) + blanks.length) := by
      have hbuf : pre ++ (blanks ++ d :: w) ++ ['\x00'] = pre ++ blanks ++ d :: (w ++ ['\x00']) := by
        simp
      rw [hbuf]
      apply scanForward_blanks hblanks hd rfl
      rw [List.length_append]
      omega
    have hbuf : pre ++ (blanks ++ d :: w) ++ ['\x00'] = (pre ++ blanks) ++ d :: w ++ ['\x00'] := by simp
    have hstart : ¬ (pre.length : ℤ) + blanks.length = (pre.length : ℤ) + (blanks ++ d :: w).length := by
      rw [List.length_append, List.length_cons]
      omega
    obtain ⟨rest₁, hcut₁⟩ : ∃ rest', cutEnd '\n' (pre ++ (blanks ++ d :: w) ++ ['\x00'])
        ((pre.length : ℤ) + (blanks ++ d :: w).length - 1) =
          some (pre ++ blanks ++ chop '\n' (d :: w) ++ rest',
            ((pre ++ blanks).length : ℤ) + (chop '\n' (d :: w)).length - 1) := by
      rw [hbuf]
      apply cutEnd_eq hy hn
      simp only [List.length_append]
      omega
    obtain ⟨rest₂, hcut₂⟩ : ∃ rest', cutEnd '\r' (pre ++ blanks ++ chop '\n' (d :: w) ++ rest₁)
        (((pre ++ blanks).length : ℤ) + (chop '\n' (d :: w)).length - 1) =
          some (pre ++ blanks ++ chop '\r' (chop '\n' (d :: w)) ++ rest',
            ((pre ++ blanks).length : ℤ) + (chop '\r' (chop '\n' (d :: w))).length - 1) :=
      cutEnd_eq hy hr rfl
    simp only [hscan, hcut₁, hcut₂, Option.bind_eq_bind, Option.bind_some, if_neg hstart]
    generalize hv : chop '\r' (chop '\n' (d :: w)) = v at *
    have hcount : ((pre ++ blanks).length : ℤ) + v.length - 1 - (pre.length + blanks.length) + 1 =
        v.length := by
      rw [List.length_append]
      omega
    rw [hcount]
    by_cases hnil : v = []
    · simp [hnil, Parsed.result]
    · have hpos : 0 < (v.length : ℤ) := by
        have := List.length_pos_iff.mpr hnil
        omega
      have hnul : '\x00' ∉ v := by
        intro hmem
        apply hvalue
        rw [← hv] at hmem
        exact List.mem_append_right _ (((chop_sublist _ _).trans (chop_sublist _ _)).subset hmem)
      have hcopy : copyString (pre ++ blanks ++ v ++ rest₂) ((pre.length : ℤ) + blanks.length) v.length =
          some v := copyString_eq hnul (by rw [List.length_append]; rfl)
      rw [if_pos hpos, hcopy, if_neg hnil]
      rfl

/-! ## The key -/

/-- The key of a line ends in front of its trailing blanks. -/
theorem scanBackward_key {key : Text} (hkey : key.rdropWhile (· == ' ') ≠ [])
    (hlast : last = (pre.length : ℤ) + key.length - 1) :
    Ptr.scanBackward (· == ' ') (pre ++ key ++ rest) last =
      some ((pre.length : ℤ) + (key.rdropWhile (· == ' ')).length - 1) := by
  obtain ⟨init, d, hinit⟩ : ∃ init d, key.rdropWhile (· == ' ') = init ++ [d] :=
    ⟨_, _, (List.dropLast_append_getLast hkey).symm⟩
  have hd : (d == ' ') = false := by
    have hstop := List.rdropWhile_last_not (· == ' ') key hkey
    simpa [hinit] using hstop
  have hblanks : ∀ y ∈ key.rtakeWhile (· == ' '), (y == ' ') = true := by
    intro y hy
    exact List.mem_rtakeWhile_imp (p := (· == ' ')) hy
  have hsplit : init ++ [d] ++ key.rtakeWhile (· == ' ') = key := by
    rw [← hinit]
    simp
  generalize key.rtakeWhile (· == ' ') = blanks at hsplit hblanks
  have hbuf : pre ++ key ++ rest = (pre ++ init) ++ d :: (blanks ++ rest) := by
    rw [← hsplit]
    simp
  have hresult : (pre.length : ℤ) + (init ++ [d]).length - 1 = ((pre ++ init).length : ℤ) := by
    simp only [List.length_append, List.length_singleton]
    omega
  rw [hinit, hbuf, hresult]
  refine Ptr.scanBackward_eq ?_ hblanks rest ?_
  · exact hd
  · rw [hlast, ← hsplit]
    simp only [List.length_append, List.length_singleton]
    omega

theorem scanForward_indent {x : Char} (hs : ∀ y ∈ s, y = ' ') (hx : x ≠ ' ') :
    Ptr.scanForward (fun x _ => x == ' ') (s ++ x :: rest) 0 = some (s.length : ℤ) := by
  have hscan : Ptr.scanForward (fun x _ => x == ' ') ([] ++ s ++ x :: rest) 0 =
      some (0 + (s.length : ℤ)) := by
    apply Ptr.scanForward_eq rfl
    · intro y hy i _ _
      simp [hs y hy]
    · simp [hx]
  simpa using hscan

/-- The search for the `=` stops there, or at the end of the line. -/
theorem scanForward_key {x : Char} {len : ℤ} (hs : '=' ∉ s) (hp : p = (pre.length : ℤ))
    (hlen : p + s.length ≤ len) (hx : x = '=' ∨ p + s.length = len) :
    Ptr.scanForward (fun x i => x != '=' && i != len) (pre ++ s ++ x :: rest) p =
      some (p + s.length) := by
  apply Ptr.scanForward_eq hp
  · intro y hy i _ hi
    have hne : i ≠ len := by omega
    have hy' : y ≠ '=' := by
      rintro rfl
      exact hs hy
    simp [hy', hne]
  · rcases hx with rfl | hend
    · simp
    · simp [hend]

/-- From the `=` on: the key ends in front of its trailing blanks, the value
follows. -/
theorem parse_key_value {blanks key value : Text} (hkey : key.rdropWhile (· == ' ') ≠ [])
    (hnul : '\x00' ∉ blanks ++ (key ++ '=' :: value)) {len : ℤ}
    (hlen : len = ((blanks ++ (key ++ '=' :: value)).length : ℤ)) :
    ((Ptr.scanBackward (· == ' ') (blanks ++ (key ++ '=' :: value) ++ ['\x00'])
        ((blanks.length : ℤ) + key.length - 1)).bind fun last =>
      (copyString (blanks ++ (key ++ '=' :: value) ++ ['\x00']) blanks.length
        (last - blanks.length + 1)).bind fun tag =>
      extractValue (blanks ++ (key ++ '=' :: value) ++ ['\x00']) len tag
        ((blanks.length : ℤ) + key.length + 1)).map Prod.snd =
      (parseValue (key.rdropWhile (· == ' ')) value).result := by
  have hback : Ptr.scanBackward (· == ' ') (blanks ++ (key ++ '=' :: value) ++ ['\x00'])
      ((blanks.length : ℤ) + key.length - 1) =
        some ((blanks.length : ℤ) + (key.rdropWhile (· == ' ')).length - 1) := by
    have hbuf : blanks ++ (key ++ '=' :: value) ++ ['\x00'] =
        blanks ++ key ++ ('=' :: value ++ ['\x00']) := by simp
    rw [hbuf]
    exact scanBackward_key hkey rfl
  have hcopy : copyString (blanks ++ (key ++ '=' :: value) ++ ['\x00']) blanks.length
      ((key.rdropWhile (· == ' ')).length : ℤ) = some (key.rdropWhile (· == ' ')) := by
    have htag : key.rdropWhile (· == ' ') ++ key.rtakeWhile (· == ' ') = key := by simp
    have hbuf : blanks ++ (key ++ '=' :: value) ++ ['\x00'] =
        blanks ++ key.rdropWhile (· == ' ') ++
          (key.rtakeWhile (· == ' ') ++ '=' :: value ++ ['\x00']) := by
      have hsplit : key ++ ('=' :: value ++ ['\x00']) =
          key.rdropWhile (· == ' ') ++ (key.rtakeWhile (· == ' ') ++ ('=' :: value ++ ['\x00'])) := by
        rw [← List.append_assoc (key.rdropWhile (· == ' ')), htag]
      simpa using hsplit
    have hnul' : '\x00' ∉ key.rdropWhile (· == ' ') := fun hmem =>
      hnul (List.mem_append_right _ (List.mem_append_left _
        ((List.rdropWhile_prefix _ _).subset hmem)))
    rw [hbuf]
    exact copyString_eq hnul' rfl
  have hvalue : (extractValue (blanks ++ key ++ ['='] ++ value ++ ['\x00'])
      (((blanks ++ key ++ ['=']).length : ℤ) + value.length) (key.rdropWhile (· == ' '))
      (blanks ++ key ++ ['=']).length).map Prod.snd =
        (parseValue (key.rdropWhile (· == ' ')) value).result := by
    apply extractValue_eq
    · simp
    · intro hmem
      exact hnul (by simp [hmem])
  have hbuf : blanks ++ key ++ ['='] ++ value ++ ['\x00'] =
      blanks ++ (key ++ '=' :: value) ++ ['\x00'] := by simp
  have hend : ((blanks ++ key ++ ['=']).length : ℤ) + value.length = len := by
    rw [hlen]
    simp only [List.length_append, List.length_cons, List.length_nil]
    omega
  have hstart : ((blanks ++ key ++ ['=']).length : ℤ) = (blanks.length : ℤ) + key.length + 1 := by
    simp only [List.length_append, List.length_singleton]
    omega
  have hcount : (blanks.length : ℤ) + (key.rdropWhile (· == ' ')).length - 1 - blanks.length + 1 =
      (key.rdropWhile (· == ' ')).length := by omega
  rw [hbuf, hend, hstart] at hvalue
  rw [hback, Option.bind_some, hcount, hcopy, Option.bind_some, hvalue]

/-- `parse_line` on a line, NUL and all, returns what `parseLine` says. -/
theorem parseLineInPlace_result {line : Text} (hnul : '\x00' ∉ line) :
    (parseLineInPlace (line ++ ['\x00']) line.length).map Prod.snd = (parseLine line).result := by
  have hsplit : line.takeWhile (· == ' ') ++ line.dropWhile (· == ' ') = line :=
    List.takeWhile_append_dropWhile
  have hblanks : ∀ y ∈ line.takeWhile (· == ' '), y = ' ' := fun y hy =>
    eq_blank_of_mem_takeWhile hy
  unfold parseLineInPlace parseLine
  cases hw : line.dropWhile (· == ' ') with
  | nil =>
    rw [hw, List.append_nil] at hsplit
    rw [hsplit] at hblanks
    rw [scanForward_indent hblanks (by decide)]
    simp [Parsed.result]
  | cons c text =>
    have hblank : c ≠ ' ' := ne_blank_of_dropWhile hw
    rw [hw] at hsplit
    generalize line.takeWhile (· == ' ') = blanks at hsplit hblanks
    subst hsplit
    have hc : c ≠ '\x00' := by
      rintro rfl
      exact hnul (by simp)
    have hscan : Ptr.scanForward (fun x _ => x == ' ') (blanks ++ c :: text ++ ['\x00']) 0 =
        some (blanks.length : ℤ) := by
      rw [List.append_assoc, List.cons_append]
      exact scanForward_indent hblanks hblank
    have hread : Ptr.read (blanks ++ c :: text ++ ['\x00']) blanks.length = some c := by
      rw [List.append_assoc, List.cons_append]
      exact Ptr.read_append rfl
    have hstart : ¬ (blanks.length : ℤ) = (blanks ++ c :: text).length := by
      rw [List.length_append, List.length_cons]
      omega
    simp only [hscan, hread, Option.bind_eq_bind, Option.bind_some, if_neg hstart]
    by_cases hkind : c = '\r' ∨ c = '\n' ∨ c = '[' ∨ c = '#'
    · have hkind' : c = '\r' ∨ c = '\n' ∨ c = '\x00' ∨ c = '[' ∨ c = '#' := by
        tauto
      rw [if_pos hkind, if_pos hkind']
      rfl
    have hkind' : ¬ (c = '\r' ∨ c = '\n' ∨ c = '\x00' ∨ c = '[' ∨ c = '#') := by
      tauto
    rw [if_neg hkind, if_neg hkind']
    by_cases hmem : '=' ∈ c :: text
    · rcases List.eq_append_cons_of_mem hmem with ⟨key, value, hkeyvalue, hkey⟩
      have hlen : ((blanks ++ c :: text).length : ℤ) = ((blanks ++ (key ++ '=' :: value)).length : ℤ) := by
        rw [hkeyvalue]
      have hfind : Ptr.scanForward (fun x i => x != '=' && i != ((blanks ++ c :: text).length : ℤ))
          (blanks ++ c :: text ++ ['\x00']) blanks.length = some ((blanks.length : ℤ) + key.length) := by
        have hbuf : blanks ++ c :: text ++ ['\x00'] = blanks ++ key ++ '=' :: (value ++ ['\x00']) := by
          rw [hkeyvalue]
          simp
        rw [hbuf]
        apply scanForward_key hkey rfl _ (.inl rfl)
        rw [hlen]
        simp only [List.length_append]
        omega
      have hinside : ¬ (blanks.length : ℤ) + key.length = (blanks ++ c :: text).length := by
        rw [hlen]
        simp only [List.length_append, List.length_cons]
        omega
      simp only [hfind, Option.bind_some, if_neg hinside, if_neg (not_not.mpr hmem)]
      cases key with
      | nil =>
        -- nothing but blanks in front of the '='
        have heq : c = '=' := (List.cons.inj hkeyvalue).1
        have hoff : Ptr.scanBackward (· == ' ') (blanks ++ c :: text ++ ['\x00'])
            ((blanks.length : ℤ) + ([] : Text).length - 1) = none := by
          rw [List.append_assoc]
          apply Ptr.scanBackward_eq_none
          · intro y hy
            simp [hblanks y hy]
          · simp
        rw [hoff, if_pos heq]
        rfl
      | cons x key =>
        rw [List.cons_append, List.cons.injEq] at hkeyvalue
        rcases hkeyvalue with ⟨rfl, rfl⟩
        have heq : c ≠ '=' := fun h => hkey (by simp [h])
        have hne : (c :: key).rdropWhile (· == ' ') ≠ [] := by
          rw [Ne, List.rdropWhile_eq_nil_iff]
          intro hall
          exact hblank (by simpa using hall c List.mem_cons_self)
        have hcut := cut_at_eq hkey value
        rw [List.cons_append] at hcut
        simp only [if_neg heq, hcut, List.tail_cons]
        exact parse_key_value hne hnul rfl
    · have hfind : Ptr.scanForward (fun x i => x != '=' && i != ((blanks ++ c :: text).length : ℤ))
          (blanks ++ c :: text ++ ['\x00']) blanks.length = some ((blanks ++ c :: text).length : ℤ) := by
        have hend : ((blanks ++ c :: text).length : ℤ) = (blanks.length : ℤ) + (c :: text).length := by
          rw [List.length_append]
          rfl
        rw [hend]
        exact scanForward_key hmem rfl le_rfl (.inr rfl)
      simp only [hfind, Option.bind_some, if_true, if_pos hmem]
      rfl

/-- `parse_line` stays inside of a line, and passes no negative count, if and only
if the first character of the line that is not a blank is not a `=`. -/
theorem parseLineInPlace_defined_iff {line : Text} (hnul : '\x00' ∉ line) :
    (parseLineInPlace (line ++ ['\x00']) line.length).isSome ↔ ¬ LacksKey line := by
  have hresult := parseLineInPlace_result hnul
  rw [← parseLine_eq_outOfBounds_iff]
  cases hparse : parseLine line with
  | nothing =>
    rw [hparse, Parsed.result, Option.map_eq_some_iff] at hresult
    rcases hresult with ⟨r, hr, -⟩
    simp [hr]
  | pair tag value =>
    rw [hparse, Parsed.result, Option.map_eq_some_iff] at hresult
    rcases hresult with ⟨r, hr, -⟩
    simp [hr]
  | outOfBounds =>
    rw [hparse, Parsed.result, Option.map_eq_none_iff] at hresult
    simp [hresult]

/-- A line with a key, and blanks everywhere. -/
theorem parseLineInPlace_defined_blanks :
    (parseLineInPlace ([' ', 'a', ' ', '=', ' ', '\r', '\n'] ++ ['\x00']) 7).isSome ↔
      ¬ LacksKey [' ', 'a', ' ', '=', ' ', '\r', '\n'] :=
  parseLineInPlace_defined_iff (by decide)

/-- `=x` makes the scan for the end of the key start in front of the line. -/
theorem parseLineInPlace_runs_off :
    '\x00' ∉ ['=', 'x'] ∧ parseLineInPlace (['=', 'x'] ++ ['\x00']) 2 = none := by
  have hnul : '\x00' ∉ ['=', 'x'] := by decide
  have hparse : parseLine ['=', 'x'] = .outOfBounds := by decide
  have hresult := parseLineInPlace_result hnul
  rw [hparse, Parsed.result, Option.map_eq_none_iff] at hresult
  exact ⟨hnul, hresult⟩

end MqttMsgHub
