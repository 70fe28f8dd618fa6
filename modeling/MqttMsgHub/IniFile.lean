import Mathlib.Data.List.DropRight
import MqttMsgHub.CTypes
import MqttMsgHub.Lib.Assoc

/-! # The INI parser

`ini_parser.c` keeps an ordered list of (key, value) pairs: `parse_file` fills
it from the lines of a file, `value` and `set_value` are the association list
operations, `save_to_file` writes one `key=value` line for each pair. A file is
the list of its bytes; `none` is a file that cannot be opened for reading.

`parse_line` runs off the front of its buffer when the first non-blank character
of a line is `=`: it looks for the end of the key to the left of the `=`. What
happens then is not defined, and the model says so (`Parsed.outOfBounds`).

* `storable_of_parseFile` — what the parser accepts can be written back as one
  line;
* `parseFile_written` — reading back what was written: the same pairs, except
  that a carriage return at the end of a value is taken for a line end.
-/

namespace MqttMsgHub

/-- `struct tag_value_pair`. -/
abbrev TagValue := Text × Text

/-! ## Lines -/

/-- Put a character in front of the first of a list of lines. -/
def consHead (c : Char) : List Text → List Text
  | [] => [[c]]
  | line :: lines => (c :: line) :: lines

/-- The results of `fgets(buf, size + 1, fp)` up to the end of the file: each
call stops behind a newline or when the buffer is full. `room` is what the
current call may still read. -/
def fgetsLoop (size : ℕ) : ℕ → List Char → List Text
  | _, [] => []
  | room, c :: text =>
    if c = '\n' ∨ room ≤ 1 then [c] :: fgetsLoop size size text
    else consHead c (fgetsLoop size (room - 1) text)

/-- The C string in a buffer. -/
def cString (buf : Text) : Text := buf.takeWhile (· != '\x00')

/-- The strings that `_parse_file` hands to `parse_line`; its buffer has 1024
bytes. -/
def fileLines (text : List Char) : List Text := (fgetsLoop 1023 1023 text).map cString

/-! ## `parse_line` -/

/-- What `parse_line` makes of a line. -/
inductive Parsed where
  | nothing
  | pair (tag value : Text)
  | outOfBounds
deriving DecidableEq

/-- Cut one character `c` off the end. -/
def chop (c : Char) (s : Text) : Text := if s.getLast? = some c then s.dropLast else s

/-- The value part: blanks at the start go, then one newline and one carriage
return at the end. An empty value releases the pair. -/
def parseValue (tag rest : Text) : Parsed :=
  let value := chop '\r' (chop '\n' (rest.dropWhile (· == ' ')))
  if value = [] then .nothing else .pair tag value

/-- `parse_line`. -/
def parseLine (line : Text) : Parsed :=
  match line.dropWhile (· == ' ') with
  | [] => .nothing
  | c :: rest =>
    -- blank lines, groups and comments
    if c = '\r' ∨ c = '\n' ∨ c = '[' ∨ c = '#' then .nothing
    else if '=' ∉ c :: rest then .nothing
    -- the search for the end of the key starts in front of it
    else if c = '=' then .outOfBounds
    else
      parseValue (((c :: rest).takeWhile (· != '=')).rdropWhile (· == ' '))
        ((c :: rest).dropWhile (· != '=')).tail

/-! ## Files -/

/-- The loop of `_parse_file`; `none` when some line makes `parse_line` leave
its buffer. -/
def parseLines : List Text → Option (List TagValue)
  | [] => some []
  | line :: lines =>
    match parseLine line with
    | .nothing => parseLines lines
    | .pair tag value => (parseLines lines).map ((tag, value) :: ·)
    | .outOfBounds => none

/-- `_parse_file`: its result and the list it leaves in the parser. -/
def parseFile : Option (List Char) → Option (ℤ × List TagValue)
  | none => some (-1, [])
  | some text => (parseLines (fileLines text)).map fun pairs => (pairs.length, pairs)

/-- `write_keyvalue`. -/
def writeKeyvalue (p : TagValue) : List Char := p.1 ++ '=' :: p.2 ++ ['\n']

/-- `_save_to_file` on a file that can be opened for writing: the file
afterwards. -/
def saveToFile (pairs : List TagValue) (file : Option (List Char)) : Option (List Char) :=
  if 0 < pairs.length then some (pairs.flatMap writeKeyvalue) else file

/-- `string_is_number`. -/
def stringIsNumber (s : Text) : Bool := !s.isEmpty && s.all Char.isDigit

/-- `get_int_from_ini_file`, with `create_app_ini_parser`. A file that is missing
or has no pair gives the default, and so does a value that is no number. -/
def getIntFromIniFile (file : Option (List Char)) (key : Text) (defaultValue : CInt) :
    Option CInt :=
  (parseFile file).map fun r =>
    if r.1 ≤ 0 then defaultValue
    else
      let str := Assoc.find key r.2
      if stringIsEmpty str then defaultValue
      else if stringIsNumber (str.getD []) then atoi (str.getD []) else defaultValue

/-! ## What `fgets` returns -/

/-- A line that fits is read in one call. -/
theorem fgetsLoop_line {size : ℕ} {line : Text} (hline : '\n' ∉ line)
    (text : List Char) : ∀ room : ℕ, line.length < room →
      fgetsLoop size room (line ++ '\n' :: text) =
        (line ++ ['\n']) :: fgetsLoop size size text := by
  induction line with
  | nil => intro room _; simp [fgetsLoop]
  | cons c line ih =>
    intro room hroom
    rw [List.mem_cons, not_or] at hline
    simp only [List.length_cons] at hroom
    have hmore : ¬ (c = '\n' ∨ room ≤ 1) := by
      rintro (rfl | h)
      · exact hline.1 rfl
      · omega
    have hrest := ih hline.2 (room - 1) (by omega)
    simp only [List.cons_append, fgetsLoop, if_neg hmore, hrest, consHead]

/-- A line that fills the buffer leaves its newline to the next call. -/
theorem fgetsLoop_full_line {size : ℕ} {line : Text} (hline : '\n' ∉ line)
    (hne : line ≠ []) (text : List Char) : ∀ room : ℕ, line.length = room →
      fgetsLoop size room (line ++ '\n' :: text) =
        line :: ['\n'] :: fgetsLoop size size text := by
  induction line with
  | nil => exact absurd rfl hne
  | cons c line ih =>
    intro room hroom
    rw [List.mem_cons, not_or] at hline
    simp only [List.length_cons] at hroom
    have hc : c ≠ '\n' := Ne.symm hline.1
    by_cases hlast : line = []
    · -- the last place of the buffer
      subst hlast
      have hone : room = 1 := by simpa using hroom.symm
      simp [fgetsLoop, hone]
    · have hlen : 0 < line.length := List.length_pos_iff.mpr hlast
      have hmore : ¬ (c = '\n' ∨ room ≤ 1) := by
        rintro (h | h)
        · exact hc h
        · omega
      have hrest := ih hline.2 hlast (room - 1) (by omega)
      simp only [List.cons_append, fgetsLoop, if_neg hmore, hrest, consHead]

/-- A string that `fgets` can leave in the buffer: it fits, has no NUL, and a
newline only at its end. -/
structure IsLine (line : Text) : Prop where
  length_le : line.length ≤ 1023
  no_nul : '\x00' ∉ line
  no_newline : '\n' ∉ line.dropLast

/-- The lines have a newline at most at their end; the first one fits into what
is left of the buffer, the others into the whole of it. -/
theorem fgetsLoop_spec {size : ℕ} (hsize : 0 < size) (text : List Char) :
    ∀ room : ℕ, 0 < room → room ≤ size →
      (∀ line ∈ fgetsLoop size room text,
        line ≠ [] ∧ line.length ≤ size ∧ '\n' ∉ line.dropLast) ∧
      ∀ line, (fgetsLoop size room text).head? = some line → line.length ≤ room := by
  induction text with
  | nil => intro room _ _; simp [fgetsLoop]
  | cons c text ih =>
    intro room hpos hle
    by_cases hstop : c = '\n' ∨ room ≤ 1
    · -- the call ends here, the next one starts with an empty buffer
      have hlines := (ih size hsize le_rfl).1
      simp only [fgetsLoop, if_pos hstop, List.mem_cons, List.head?_cons, Option.some.injEq]
      constructor
      · rintro line (rfl | hmem)
        · simpa using Nat.succ_le_of_lt hsize
        · exact hlines line hmem
      · rintro line rfl
        simpa using Nat.succ_le_of_lt hpos
    · rw [not_or, not_le] at hstop
      have hrest := ih (room - 1) (by omega) (by omega)
      have hc : '\n' ≠ c := Ne.symm hstop.1
      simp only [fgetsLoop, if_neg (not_or.mpr ⟨hstop.1, not_le.mpr hstop.2⟩)]
      cases hlines : fgetsLoop size (room - 1) text with
      | nil =>
        simp only [consHead, List.mem_singleton, List.head?_cons, Option.some.injEq]
        constructor
        · rintro line rfl
          simpa using Nat.succ_le_of_lt hsize
        · rintro line rfl
          simpa using Nat.succ_le_of_lt hpos
      | cons first lines =>
        rw [hlines] at hrest
        have hfirst := hrest.1 first List.mem_cons_self
        have hroom := hrest.2 first rfl
        simp only [consHead, List.mem_cons, List.head?_cons, Option.some.injEq]
        constructor
        · rintro line (rfl | hmem)
          · refine ⟨List.cons_ne_nil _ _, ?_, ?_⟩
            · simp only [List.length_cons]
              omega
            · rw [List.dropLast_cons_of_ne_nil hfirst.1, List.mem_cons, not_or]
              exact ⟨hc, hfirst.2.2⟩
          · exact hrest.1 line (List.mem_cons_of_mem _ hmem)
        · rintro line rfl
          simp only [List.length_cons]
          omega

theorem notMem_of_notMem_dropLast {x : Char} {s t : Text} (h : x ∉ (s ++ t).dropLast)
    (ht : t ≠ []) : x ∉ s ∧ x ∉ t.dropLast := by
  rw [List.dropLast_append_of_ne_nil ht, List.mem_append, not_or] at h
  exact h

theorem isLine_of_mem_fileLines {text : List Char} {line : Text} (h : line ∈ fileLines text) :
    IsLine line := by
  obtain ⟨buf, hbuf, rfl⟩ := List.mem_map.mp h
  obtain ⟨-, hlen, hnl⟩ := (fgetsLoop_spec (by decide) text 1023 (by decide) le_rfl).1 buf hbuf
  have hsplit : cString buf ++ buf.dropWhile (· != '\x00') = buf := List.takeWhile_append_dropWhile
  constructor
  · exact (List.takeWhile_sublist _).length_le.trans hlen
  · intro hnul
    have hne := List.mem_takeWhile_imp hnul
    simp at hne
  · by_cases hrest : buf.dropWhile (· != '\x00') = []
    · rw [hrest, List.append_nil] at hsplit
      rwa [hsplit]
    · rw [← hsplit] at hnl
      exact fun hmem => (notMem_of_notMem_dropLast hnl hrest).1 (List.dropLast_subset _ hmem)

/-! ## Lines without a key -/

/-- The first character that is not a blank is `=`: the line has no key. -/
def LacksKey (line : Text) : Prop := (line.dropWhile (· == ' ')).head? = some '='
deriving Decidable

theorem parseValue_ne_outOfBounds (tag rest : Text) : parseValue tag rest ≠ .outOfBounds := by
  simp only [parseValue]
  split <;> exact Parsed.noConfusion

theorem parseLine_eq_outOfBounds_iff (line : Text) :
    parseLine line = .outOfBounds ↔ LacksKey line := by
  unfold parseLine LacksKey
  cases hskip : line.dropWhile (· == ' ') with
  | nil => simp
  | cons c rest =>
    rw [List.head?_cons, Option.some.injEq]
    constructor
    · intro h
      by_contra hc
      simp only [if_neg hc] at h
      split_ifs at h
      exact parseValue_ne_outOfBounds _ _ h
    · rintro rfl
      simp

/-- The parser gets through a file unless some line of it lacks a key. -/
theorem parseLines_isSome_iff (lines : List Text) :
    (parseLines lines).isSome ↔ ∀ line ∈ lines, ¬ LacksKey line := by
  induction lines with
  | nil => simp [parseLines]
  | cons line lines ih =>
    rw [List.forall_mem_cons, ← ih, ← parseLine_eq_outOfBounds_iff, parseLines]
    cases parseLine line <;> simp

theorem parseFile_isSome_iff (file : Option (List Char)) :
    (parseFile file).isSome ↔ ∀ text, file = some text → ∀ line ∈ fileLines text, ¬ LacksKey line := by
  cases file with
  | none => simp [parseFile]
  | some text => simp only [parseFile, Option.isSome_map, parseLines_isSome_iff, Option.some.injEq,
      forall_eq']

/-! ## What `parse_line` accepts -/

/-- The first characters of a key. -/
def KeyStart (c : Char) : Prop :=
  c ≠ ' ' ∧ c ≠ '\r' ∧ c ≠ '\n' ∧ c ≠ '[' ∧ c ≠ '#' ∧ c ≠ '='
deriving Decidable

/-- A pair that stands in one line of a file. -/
structure Storable (p : TagValue) : Prop where
  tag_head : ∃ c t, p.1 = c :: t ∧ KeyStart c
  tag_last : p.1.getLast? ≠ some ' '
  tag_eq : '=' ∉ p.1
  value_ne_nil : p.2 ≠ []
  value_head : p.2.head? ≠ some ' '
  no_newline : '\n' ∉ p.1 ++ p.2
  no_nul : '\x00' ∉ p.1 ++ p.2
  length_le : p.1.length + p.2.length + 1 ≤ 1023

theorem chop_sublist (c : Char) (s : Text) : (chop c s).Sublist s := by
  unfold chop
  split
  · exact List.dropLast_sublist s
  · exact List.Sublist.refl s

theorem chop_eq_self {c : Char} {s : Text} (h : c ∉ s) : chop c s = s := by
  unfold chop
  rw [if_neg]
  intro hlast
  exact h (List.mem_of_getLast? hlast)

theorem chop_concat (c : Char) (s : Text) : chop c (s ++ [c]) = s := by
  simp [chop]

/-- A newline that stands at the end only is chopped off. -/
theorem notMem_chop {c : Char} {s : Text} (h : c ∉ s.dropLast) : c ∉ chop c s := by
  unfold chop
  split
  · exact h
  · rename_i hlast
    intro hmem
    apply h
    exact List.mem_dropLast_of_mem_of_ne_getLast? hmem fun heq => hlast heq.symm

theorem head?_chop {c : Char} {s : Text} (h : chop c s ≠ []) : (chop c s).head? = s.head? := by
  unfold chop at h ⊢
  split
  · rename_i hlast
    rw [if_pos hlast] at h
    rw [List.head?_dropLast, if_pos]
    have hpos := List.length_pos_iff.mpr h
    rw [List.length_dropLast] at hpos
    omega
  · rfl

/-- Cutting a text at its first `=`. -/
theorem cut_at_eq {key : Text} (h : '=' ∉ key) (rest : Text) :
    (key ++ '=' :: rest).takeWhile (· != '=') = key ∧
      (key ++ '=' :: rest).dropWhile (· != '=') = '=' :: rest := by
  have hall : ∀ x ∈ key, (x != '=') = true := by
    intro x hx
    rw [bne_iff_ne]
    rintro rfl
    exact h hx
  constructor
  · rw [List.takeWhile_append_of_pos hall]
    simp
  · rw [List.dropWhile_append_of_pos hall]
    simp

theorem head?_dropWhile_blank (line : Text) : (line.dropWhile (· == ' ')).head? ≠ some ' ' := by
  intro hhead
  have hnot := List.head?_dropWhile_not (· == ' ') line
  rw [hhead] at hnot
  simp at hnot

/-- Blanks are skipped up to a character that is none. -/
theorem ne_blank_of_dropWhile {line text : Text} {c : Char}
    (h : line.dropWhile (· == ' ') = c :: text) : c ≠ ' ' := by
  rintro rfl
  apply head?_dropWhile_blank line
  rw [h]
  rfl

/-- A line that starts with a key: what is left of the `=` is the key, what is
right of it the value. -/
theorem parseLine_key {c : Char} {t rest : Text} (hc : KeyStart c) (ht : '=' ∉ t) :
    parseLine (c :: t ++ '=' :: rest) = parseValue ((c :: t).rdropWhile (· == ' ')) rest := by
  rcases hc with ⟨hblank, hr, hn, hgroup, hcomment, heq⟩
  have hskip : (c :: t ++ '=' :: rest).dropWhile (· == ' ') = c :: (t ++ '=' :: rest) := by
    simp [hblank]
  have hkey : '=' ∉ c :: t := by simp [Ne.symm heq, ht]
  have hcut := cut_at_eq hkey rest
  rw [List.cons_append] at hcut
  unfold parseLine
  rw [hskip]
  simp only [hcut, List.tail_cons]
  rw [if_neg (by simp [hr, hn, hgroup, hcomment]), if_neg (by simp), if_neg heq]

/-- The lines that yield a pair are the lines of `parseLine_key`, behind blanks. -/
theorem parseLine_eq_pair {line tag value : Text} (h : parseLine line = .pair tag value) :
    ∃ c t rest, KeyStart c ∧ '=' ∉ c :: t ∧ (c :: t ++ '=' :: rest) <:+ line ∧
      parseValue ((c :: t).rdropWhile (· == ' ')) rest = .pair tag value := by
  unfold parseLine at h
  split at h
  · cases h
  · rename_i c text hskip
    have hsuffix : c :: text <:+ line := hskip ▸ List.dropWhile_suffix _
    have hblank : c ≠ ' ' := ne_blank_of_dropWhile hskip
    split at h
    · cases h
    · rename_i hkind
      simp only [not_or] at hkind
      split at h
      · cases h
      · rename_i hmem
        split at h
        · cases h
        · rename_i heq
          have hmem' : '=' ∈ text := (List.mem_cons.mp (not_not.mp hmem)).resolve_left (Ne.symm heq)
          -- the key ends at the first '='
          obtain ⟨t, rest, rfl, ht⟩ := List.eq_append_cons_of_mem hmem'
          have hkey : '=' ∉ c :: t := by simp [Ne.symm heq, ht]
          have hcut := cut_at_eq hkey rest
          rw [List.cons_append] at hcut
          simp only [hcut, List.tail_cons] at h
          exact ⟨c, t, rest, ⟨hblank, hkind.1, hkind.2.1, hkind.2.2.1, hkind.2.2.2, heq⟩, hkey,
            hsuffix, h⟩

theorem parseValue_eq_pair {tag rest tag' value : Text}
    (h : parseValue tag rest = .pair tag' value) :
    tag' = tag ∧ value = chop '\r' (chop '\n' (rest.dropWhile (· == ' '))) ∧ value ≠ [] := by
  simp only [parseValue] at h
  split at h
  · cases h
  · rename_i hne
    simp only [Parsed.pair.injEq] at h
    rcases h with ⟨rfl, rfl⟩
    exact ⟨rfl, rfl, hne⟩

/-- What `parse_line` takes from a line fits into a line again. -/
theorem storable_of_parseLine {line tag value : Text} (hline : IsLine line)
    (h : parseLine line = .pair tag value) : Storable (tag, value) := by
  obtain ⟨c, t, rest, hc, hkey, ⟨blanks, rfl⟩, hvalue⟩ := parseLine_eq_pair h
  obtain ⟨rfl, hv, hne⟩ := parseValue_eq_pair hvalue
  -- the tag is a part of what stands before the '=', the value of what stands behind
  have htag : (c :: t).rdropWhile (· == ' ') <+: c :: t := List.rdropWhile_prefix _ _
  have htag_ne : (c :: t).rdropWhile (· == ' ') ≠ [] := by
    rw [Ne, List.rdropWhile_eq_nil_iff]
    intro hall
    exact hc.1 (by simpa using hall c List.mem_cons_self)
  have hval : value.Sublist rest := by
    rw [hv]
    exact ((chop_sublist _ _).trans (chop_sublist _ _)).trans (List.dropWhile_sublist _)
  have hnewline := notMem_of_notMem_dropLast (s := blanks) (t := c :: t ++ '=' :: rest)
    hline.no_newline (by simp)
  have hnewline' := notMem_of_notMem_dropLast hnewline.2 (List.cons_ne_nil _ _)
  have hnewline_value : '\n' ∉ (rest.dropWhile (· == ' ')).dropLast := by
    intro hmem
    have hsplit : '=' :: rest.takeWhile (· == ' ') ++ rest.dropWhile (· == ' ') = '=' :: rest := by
      simp
    have hrest : rest.dropWhile (· == ' ') ≠ [] := fun hnil => by simp [hnil] at hmem
    rw [← hsplit] at hnewline'
    exact (notMem_of_notMem_dropLast hnewline'.2 hrest).2 hmem
  constructor
  · obtain ⟨x, s, hs⟩ := List.exists_cons_of_ne_nil htag_ne
    rw [hs, List.cons_prefix_cons] at htag
    exact ⟨c, s, htag.1 ▸ hs, hc⟩
  · intro hlast
    rw [List.getLast?_eq_some_getLast htag_ne, Option.some.injEq] at hlast
    exact List.rdropWhile_last_not _ _ htag_ne (by simp [hlast])
  · exact fun hmem => hkey (htag.subset hmem)
  · exact hne
  · intro hhead
    rw [hv] at hne hhead
    have hne' : chop '\n' (rest.dropWhile (· == ' ')) ≠ [] := by
      intro hnil
      rw [hnil] at hne
      exact hne rfl
    rw [head?_chop hne, head?_chop hne'] at hhead
    exact head?_dropWhile_blank rest hhead
  · rw [List.mem_append, not_or]
    constructor
    · exact fun hmem => hnewline'.1 (htag.subset hmem)
    · intro hmem
      rw [hv] at hmem
      exact notMem_chop hnewline_value ((chop_sublist _ _).subset hmem)
  · intro hnul
    apply hline.no_nul
    rcases List.mem_append.mp hnul with hmem | hmem
    · have hmem' : '\x00' ∈ c :: t := htag.subset hmem
      exact List.mem_append_right _ (List.mem_append_left _ hmem')
    · have hmem' : '\x00' ∈ rest := hval.subset hmem
      exact List.mem_append_right _ (List.mem_append_right _ (List.mem_cons_of_mem _ hmem'))
  · have hlen := hline.length_le
    have htag_len := htag.length_le
    have hval_len := hval.length_le
    simp only [List.length_append, List.length_cons] at hlen htag_len
    show ((c :: t).rdropWhile (· == ' ')).length + value.length + 1 ≤ 1023
    omega

theorem storable_of_parseLines {lines : List Text} (hlines : ∀ line ∈ lines, IsLine line) :
    ∀ {pairs : List TagValue}, parseLines lines = some pairs → ∀ p ∈ pairs, Storable p := by
  induction lines with
  | nil =>
    intro pairs h
    simp only [parseLines, Option.some.injEq] at h
    simp [← h]
  | cons line lines ih =>
    intro pairs h p hp
    have hline := hlines line List.mem_cons_self
    have hrest : ∀ l ∈ lines, IsLine l := fun l hl => hlines l (List.mem_cons_of_mem _ hl)
    cases hparse : parseLine line with
    | nothing =>
      simp only [parseLines, hparse] at h
      exact ih hrest h p hp
    | pair tag value =>
      simp only [parseLines, hparse, Option.map_eq_some_iff] at h
      rcases h with ⟨ps, hps, rfl⟩
      rcases List.mem_cons.mp hp with rfl | hmem
      · exact storable_of_parseLine hline hparse
      · exact ih hrest hps p hmem
    | outOfBounds => simp [parseLines, hparse] at h

/-- What the parser accepts can be written back as one line each. -/
theorem storable_of_parseFile {file : Option (List Char)} {size : ℤ} {pairs : List TagValue}
    (h : parseFile file = some (size, pairs)) : ∀ p ∈ pairs, Storable p := by
  cases file with
  | none =>
    simp only [parseFile, Option.some.injEq, Prod.mk.injEq] at h
    simp [← h.2]
  | some text =>
    simp only [parseFile, Option.map_eq_some_iff, Prod.mk.injEq] at h
    rcases h with ⟨ps, hps, -, rfl⟩
    exact storable_of_parseLines (fun _ hl => isLine_of_mem_fileLines hl) hps

/-! ## Reading back what was written -/

/-- What a written pair is read back as: a carriage return at the end of the
value goes, and with it a value that consists of nothing else. -/
def readBack (p : TagValue) : Option TagValue :=
  if chop '\r' p.2 = [] then none else some (p.1, chop '\r' p.2)

/-- A written line, with or without its newline. -/
theorem parseLine_written {p : TagValue} (hp : Storable p) {ending : Text}
    (hending : ending = [] ∨ ending = ['\n']) :
    parseLine (p.1 ++ '=' :: (p.2 ++ ending)) =
      match readBack p with
      | none => .nothing
      | some q => .pair q.1 q.2 := by
  rcases hp.tag_head with ⟨c, t, htag, hc⟩
  have ht : '=' ∉ t := fun hmem => hp.tag_eq (by simp [htag, hmem])
  have htrim : p.1.rdropWhile (· == ' ') = p.1 := by
    rw [List.rdropWhile_eq_self_iff]
    intro hne hlast
    apply hp.tag_last
    rw [List.getLast?_eq_some_getLast hne]
    simpa using hlast
  have hskip : (p.2 ++ ending).dropWhile (· == ' ') = p.2 ++ ending := by
    obtain ⟨d, v, hv⟩ := List.exists_cons_of_ne_nil hp.value_ne_nil
    have hd : d ≠ ' ' := by
      rintro rfl
      exact hp.value_head (by simp [hv])
    simp [hv, hd]
  have hchop : chop '\n' (p.2 ++ ending) = p.2 := by
    have hnl : '\n' ∉ p.2 := fun hmem => hp.no_newline (List.mem_append_right _ hmem)
    rcases hending with rfl | rfl
    · rw [List.append_nil, chop_eq_self hnl]
    · exact chop_concat _ _
  rw [htag, parseLine_key hc ht, ← htag, htrim, parseValue, hskip, hchop, readBack]
  split <;> rfl

theorem cString_eq_self {s : Text} (h : '\x00' ∉ s) : cString s = s := by
  apply List.takeWhile_eq_self_iff.mpr
  intro c hc
  rw [bne_iff_ne]
  rintro rfl
  exact h hc

/-- One written line in front of a file. -/
theorem parseLines_written {p : TagValue} (hp : Storable p) (text : List Char) :
    parseLines (fileLines (writeKeyvalue p ++ text)) =
      match readBack p with
      | none => parseLines (fileLines text)
      | some q => (parseLines (fileLines text)).map (q :: ·) := by
  have hnl : '\n' ∉ p.1 ++ '=' :: p.2 := by
    have hno := hp.no_newline
    simp only [List.mem_append, List.mem_cons, not_or] at hno ⊢
    exact ⟨hno.1, by decide, hno.2⟩
  have hnul : '\x00' ∉ p.1 ++ '=' :: p.2 := by
    have hno := hp.no_nul
    simp only [List.mem_append, List.mem_cons, not_or] at hno ⊢
    exact ⟨hno.1, by decide, hno.2⟩
  have hwrite : writeKeyvalue p ++ text = (p.1 ++ '=' :: p.2) ++ '\n' :: text := by
    simp [writeKeyvalue]
  have hlen := hp.length_le
  rcases Nat.lt_or_ge (p.1 ++ '=' :: p.2).length 1023 with hshort | hfull
  · -- the line and its newline fit into the buffer
    have hlines : fileLines (writeKeyvalue p ++ text) =
        (p.1 ++ '=' :: (p.2 ++ ['\n'])) :: fileLines text := by
      rw [fileLines, hwrite, fgetsLoop_line hnl text 1023 hshort, List.map_cons, cString_eq_self,
        fileLines]
      · simp
      · simp only [List.mem_append, not_or] at hnul ⊢
        exact ⟨hnul, by decide⟩
    rw [hlines, parseLines, parseLine_written hp (.inr rfl)]
    cases readBack p <;> rfl
  · -- the newline is left for the next call, which takes it for a blank line
    have hlines : fileLines (writeKeyvalue p ++ text) =
        (p.1 ++ '=' :: (p.2 ++ [])) :: ['\n'] :: fileLines text := by
      have hexact : (p.1 ++ '=' :: p.2).length = 1023 := by
        simp only [List.length_append, List.length_cons] at hfull ⊢
        omega
      rw [fileLines, hwrite, fgetsLoop_full_line hnl (by simp) text 1023 hexact, List.map_cons,
        List.map_cons, cString_eq_self hnul, List.append_nil]
      rfl
    have hblank : parseLine ['\n'] = .nothing := by decide
    rw [hlines, parseLines, parseLine_written hp (.inl rfl), parseLines, hblank]
    cases readBack p <;> rfl

/-- Reading back a file that was written from storable pairs. -/
theorem parseFile_written {pairs : List TagValue} (h : ∀ p ∈ pairs, Storable p) :
    parseFile (some (pairs.flatMap writeKeyvalue)) =
      some (((pairs.filterMap readBack).length : ℤ), pairs.filterMap readBack) := by
  have hlines : parseLines (fileLines (pairs.flatMap writeKeyvalue)) =
      some (pairs.filterMap readBack) := by
    induction pairs with
    | nil => rfl
    | cons p pairs ih =>
      have hrest := ih fun q hq => h q (List.mem_cons_of_mem _ hq)
      rw [List.flatMap_cons, parseLines_written (h p List.mem_cons_self), hrest,
        List.filterMap_cons]
      cases readBack p <;> rfl
  simp only [parseFile, hlines, Option.map_some]

end MqttMsgHub
