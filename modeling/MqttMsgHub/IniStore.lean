import MqttMsgHub.IniFile

/-! # The INI parser as a store

The users of `ini_parser.c` load a file or a string into the parser, read and
change single values, and write the file back. Three questions about that cycle
are answered here, all from one description of what a line is worth
(`parseLine_eq`): a line without key runs off the buffer, a line that holds a
pair gives its key and its value, every other line gives nothing.

* `parseFile_saveToFile` — what is saved is parsed back, pair by pair;
* `parseText_agrees_iff` — `parse_string` reads what `parse_file` reads, except
  for a pair behind the last newline, which it does not see;
* `load_acts_as_map_iff` — a loaded store behaves as a map as long as no key
  stands in two lines of the file: removing a key removes one pair only.
-/

namespace MqttMsgHub

/-! ## What a line is worth -/

/-- The key of a line: what stands before the `=`, without blanks around it. -/
def lineKey (line : Text) : Text :=
  ((line.dropWhile (· == ' ')).takeWhile (· != '=')).rdropWhile (· == ' ')

/-- What stands behind the `=` and the blanks there, with the line end. -/
def lineRest (line : Text) : Text := (line.dropWhile (· != '=')).tail.dropWhile (· == ' ')

/-- The value of a line. -/
def lineValue (line : Text) : Text := chop '\r' (chop '\n' (lineRest line))

/-- A line that holds a pair: it starts with a key, has a `=`, and something
other than a line end behind it. -/
def HoldsPair (line : Text) : Prop :=
  (∃ c ∈ (line.dropWhile (· == ' ')).head?, KeyStart c) ∧ '=' ∈ line ∧
    lineRest line ∉ [[], ['\n'], ['\r'], ['\r', '\n']]
deriving Decidable

theorem chop_eq_nil_iff (c : Char) (s : Text) : chop c s = [] ↔ s = [] ∨ s = [c] := by
  unfold chop
  constructor
  · split
    · rename_i hlast
      intro hnil
      rcases List.eq_nil_or_concat s with rfl | ⟨t, d, rfl⟩
      · exact .inl rfl
      · simp at hlast hnil
        rw [hnil, hlast]
        exact .inr rfl
    · exact .inl
  · rintro (rfl | rfl) <;> simp

theorem chop_eq_singleton_iff {c d : Char} (hne : d ≠ c) (s : Text) :
    chop c s = [d] ↔ s = [d] ∨ s = [d, c] := by
  unfold chop
  constructor
  · split
    · rename_i hlast
      intro hd
      rcases List.eq_nil_or_concat s with rfl | ⟨t, e, rfl⟩
      · cases hd
      · simp at hlast hd
        rw [hd, hlast]
        exact .inr rfl
    · exact .inl
  · rintro (rfl | rfl)
    · simp [hne]
    · simp

theorem lineValue_eq_nil_iff (line : Text) :
    lineValue line = [] ↔ lineRest line ∈ [[], ['\n'], ['\r'], ['\r', '\n']] := by
  rw [lineValue, chop_eq_nil_iff, chop_eq_nil_iff, chop_eq_singleton_iff (by decide)]
  simp only [List.mem_cons, List.not_mem_nil, or_false, or_assoc]

/-- The blanks in front do not matter for finding the `=`. -/
theorem dropWhile_key (line : Text) :
    (line.dropWhile (· == ' ')).dropWhile (· != '=') = line.dropWhile (· != '=') := by
  induction line with
  | nil => rfl
  | cons c line ih =>
    by_cases hc : c = ' '
    · subst hc
      simpa using ih
    · simp [hc]

theorem mem_dropWhile_blank (line : Text) : '=' ∈ line.dropWhile (· == ' ') ↔ '=' ∈ line := by
  induction line with
  | nil => simp
  | cons c line ih =>
    by_cases hc : c = ' '
    · subst hc
      simpa using ih
    · simp [hc]

theorem holdsPair_iff {line : Text} {c : Char} {rest : Text}
    (hskip : line.dropWhile (· == ' ') = c :: rest) :
    HoldsPair line ↔ KeyStart c ∧ '=' ∈ c :: rest ∧ lineValue line ≠ [] := by
  unfold HoldsPair
  rw [← mem_dropWhile_blank, ← lineValue_eq_nil_iff, hskip]
  simp

/-- What `parse_line` makes of any line. -/
theorem parseLine_eq (line : Text) :
    parseLine line =
      if LacksKey line then .outOfBounds
      else if HoldsPair line then .pair (lineKey line) (lineValue line)
      else .nothing := by
  by_cases hlacks : LacksKey line
  · rw [if_pos hlacks]
    exact (parseLine_eq_outOfBounds_iff line).mpr hlacks
  rw [if_neg hlacks]
  cases hskip : line.dropWhile (· == ' ') with
  | nil =>
    have hno : ¬ HoldsPair line := by simp [HoldsPair, hskip]
    simp [parseLine, hskip, hno]
  | cons c rest =>
    have hblank : c ≠ ' ' := ne_blank_of_dropWhile hskip
    have heq : c ≠ '=' := by
      rintro rfl
      exact hlacks (by rw [LacksKey, hskip]; rfl)
    have hkey : ((c :: rest).takeWhile (· != '=')).rdropWhile (· == ' ') = lineKey line := by
      rw [lineKey, hskip]
    have hvalue : chop '\r' (chop '\n' (((c :: rest).dropWhile (· != '=')).tail.dropWhile (· == ' '))) =
        lineValue line := by
      rw [lineValue, lineRest, ← dropWhile_key line, hskip]
    have hholds := holdsPair_iff hskip
    unfold parseLine
    simp only [hskip, hkey, parseValue, hvalue, if_neg heq]
    by_cases hkind : c = '\r' ∨ c = '\n' ∨ c = '[' ∨ c = '#'
    · -- no key starts like this
      have hno : ¬ KeyStart c := by
        rintro ⟨-, hr, hn, hgroup, hcomment, -⟩
        simp only [hr, hn, hgroup, hcomment, or_self] at hkind
      rw [if_pos hkind, if_neg fun h => hno (hholds.mp h).1]
    · have hstart : KeyStart c := by
        simp only [not_or] at hkind
        exact ⟨hblank, hkind.1, hkind.2.1, hkind.2.2.1, hkind.2.2.2, heq⟩
      rw [if_neg hkind]
      by_cases hin : '=' ∈ c :: rest
      · rw [if_neg (not_not.mpr hin)]
        by_cases hne : lineValue line = []
        · rw [if_pos hne, if_neg fun h => (hholds.mp h).2.2 hne]
        · rw [if_neg hne, if_pos (hholds.mpr ⟨hstart, hin, hne⟩)]
      · rw [if_pos hin, if_neg fun h => hin (hholds.mp h).2.1]

/-- The pairs of a file, line by line. -/
theorem parseLines_eq {lines : List Text} (h : ∀ line ∈ lines, ¬ LacksKey line) :
    parseLines lines =
      some ((lines.filter HoldsPair).map fun line => (lineKey line, lineValue line)) := by
  induction lines with
  | nil => rfl
  | cons line lines ih =>
    rw [List.forall_mem_cons] at h
    rw [parseLines, parseLine_eq, if_neg h.1, ih h.2]
    by_cases hpair : HoldsPair line
    · simp [hpair]
    · simp [hpair]

/-! ## Saving and parsing back -/

/-- A pair that survives the way through a file. -/
structure PlainPair (p : TagValue) : Prop where
  key_ne_nil : p.1 ≠ []
  key_chars : ∀ c ∈ p.1, c ≠ '=' ∧ c ≠ '\r' ∧ c ≠ '\n' ∧ c ≠ '\x00'
  key_head : ∀ c ∈ p.1.head?, c ≠ ' ' ∧ c ≠ '[' ∧ c ≠ '#'
  key_last : p.1.getLast? ≠ some ' '
  value_ne_nil : p.2 ≠ []
  value_chars : ∀ c ∈ p.2, c ≠ '\n' ∧ c ≠ '\x00'
  value_head : p.2.head? ≠ some ' '
  value_last : p.2.getLast? ≠ some '\r'
  length_le : p.1.length + p.2.length + 2 ≤ 1023

theorem PlainPair.storable {p : TagValue} (h : PlainPair p) : Storable p := by
  constructor
  · rcases List.exists_cons_of_ne_nil h.key_ne_nil with ⟨c, t, ht⟩
    have hhead := h.key_head c (by rw [ht]; rfl)
    have hchars := h.key_chars c (by rw [ht]; exact List.mem_cons_self)
    exact ⟨c, t, ht, hhead.1, hchars.2.1, hchars.2.2.1, hhead.2.1, hhead.2.2, hchars.1⟩
  · exact h.key_last
  · exact fun hmem => (h.key_chars _ hmem).1 rfl
  · exact h.value_ne_nil
  · exact h.value_head
  · intro hmem
    rcases List.mem_append.mp hmem with hkey | hvalue
    · exact (h.key_chars _ hkey).2.2.1 rfl
    · exact (h.value_chars _ hvalue).1 rfl
  · intro hmem
    rcases List.mem_append.mp hmem with hkey | hvalue
    · exact (h.key_chars _ hkey).2.2.2 rfl
    · exact (h.value_chars _ hvalue).2 rfl
  · have hlen := h.length_le
    omega

theorem PlainPair.readBack {p : TagValue} (h : PlainPair p) : readBack p = some p := by
  have hchop : chop '\r' p.2 = p.2 := if_neg h.value_last
  rw [MqttMsgHub.readBack, hchop, if_neg h.value_ne_nil]

/-- Plain pairs that are saved over any file are parsed back exactly. -/
theorem parseFile_saveToFile {pairs : List TagValue} (hne : pairs ≠ [])
    (h : ∀ p ∈ pairs, PlainPair p) (file : Option (List Char)) :
    parseFile (saveToFile pairs file) = some ((pairs.length : ℤ), pairs) := by
  have hback : pairs.filterMap readBack = pairs := by
    rw [List.filterMap_congr fun p hp => (h p hp).readBack]
    exact List.filterMap_some
  rw [saveToFile, if_pos (List.length_pos_iff.mpr hne),
    parseFile_written fun p hp => (h p hp).storable, hback]

/-- The same key twice; the second value has a `=`, a carriage return and a blank
at its end. -/
theorem parseFile_saveToFile_repeated :
    parseFile (saveToFile [(['a'], ['1']), (['a'], ['b', '=', '\r', ' '])] none) =
      some (2, [(['a'], ['1']), (['a'], ['b', '=', '\r', ' '])]) := by
  apply parseFile_saveToFile (by decide)
  intro p hp
  simp only [List.mem_cons, List.not_mem_nil, or_false] at hp
  rcases hp with rfl | rfl <;> constructor <;> simp

/-! ## `parse_string` -/

/-- The loop of `_parse_text`: `line` is what has been scanned since `start`. At
the end of the text the loop breaks before it calls `parse_line`. -/
def parseTextLoop (keyvalues : List TagValue) (line : Text) : Text → Option (List TagValue)
  | [] => some keyvalues
  | c :: text =>
    if c = '\n' then
      match parseLine line with
      | .nothing => parseTextLoop keyvalues [] text
      | .pair tag value => parseTextLoop (keyvalues ++ [(tag, value)]) [] text
      | .outOfBounds => none
    else parseTextLoop keyvalues (line ++ [c]) text

/-- `_parse_text` on a parser that holds `keyvalues`: its result and the list it
leaves there. A carriage return at the end of a line is overwritten in the text,
behind which the scan already is. -/
def parseText (keyvalues : List TagValue) : Option Text → Option (ℤ × List TagValue)
  | none => some (-1, keyvalues)
  | some text =>
    (parseTextLoop keyvalues [] text).map fun pairs => ((pairs.length : ℤ), pairs)

/-- The lines of a text, each with its newline; the last one may lack it. -/
def linesOf : Text → List Text
  | [] => []
  | c :: text => if c = '\n' then [c] :: linesOf text else consHead c (linesOf text)

/-- What stands behind the last newline. -/
def lastLine (text : Text) : Text := text.rtakeWhile (· != '\n')

/-- A text is a last line without newline, or a line in front of a text. -/
theorem line_induction {P : Text → Prop} (hlast : ∀ line, '\n' ∉ line → P line)
    (hline : ∀ line text, '\n' ∉ line → P text → P (line ++ '\n' :: text)) (text : Text) :
    P text := by
  induction hn : text.length using Nat.strong_induction_on generalizing text with
  | _ n ih =>
    by_cases hmem : '\n' ∈ text
    · rcases List.eq_append_cons_of_mem hmem with ⟨line, rest, rfl, hnot⟩
      have hlen : rest.length < n := by
        rw [← hn, List.length_append, List.length_cons]
        omega
      exact hline line rest hnot (ih rest.length hlen rest rfl)
    · exact hlast text hmem

theorem lastLine_line (line text : Text) : lastLine (line ++ '\n' :: text) = lastLine text := by
  have hreverse : (line ++ '\n' :: text).reverse = text.reverse ++ '\n' :: line.reverse := by simp
  unfold lastLine List.rtakeWhile
  rw [hreverse, List.takeWhile_append]
  split
  · rename_i hall
    -- the text itself has no newline
    have heq := (List.takeWhile_prefix (· != '\n') (l := text.reverse)).eq_of_length hall
    simp [heq]
  · rfl

theorem dropWhile_newline (s : Text) :
    (s ++ ['\n']).dropWhile (· == ' ') = s.dropWhile (· == ' ') ++ ['\n'] := by
  induction s with
  | nil => simp
  | cons c s ih =>
    by_cases hc : c = ' '
    · subst hc
      simpa using ih
    · simp [hc]

theorem parseValue_newline {rest : Text} (h : '\n' ∉ rest) (tag : Text) :
    parseValue tag (rest ++ ['\n']) = parseValue tag rest := by
  have hskip : '\n' ∉ rest.dropWhile (· == ' ') := fun hmem =>
    h ((List.dropWhile_sublist _).subset hmem)
  unfold parseValue
  rw [dropWhile_newline, chop_concat, chop_eq_self hskip]

section Lines

variable {line : Text} (hline : '\n' ∉ line) (text : Text)

include hline

theorem linesOf_line : linesOf (line ++ '\n' :: text) = (line ++ ['\n']) :: linesOf text := by
  induction line with
  | nil => simp [linesOf]
  | cons c line ih =>
    rw [List.mem_cons, not_or] at hline
    simp only [List.cons_append, linesOf, if_neg (Ne.symm hline.1), ih hline.2, consHead]

theorem linesOf_last : linesOf line = if line = [] then [] else [line] := by
  induction line with
  | nil => rfl
  | cons c line ih =>
    rw [List.mem_cons, not_or] at hline
    simp only [linesOf, if_neg (Ne.symm hline.1), ih hline.2]
    by_cases hnil : line = []
    · simp [hnil, consHead]
    · simp [hnil, consHead]

theorem fgetsLoop_last {size : ℕ} : ∀ room : ℕ, line.length ≤ room →
    fgetsLoop size room line = if line = [] then [] else [line] := by
  induction line with
  | nil => exact fun _ _ => rfl
  | cons c line ih =>
    intro room hroom
    rw [List.mem_cons, not_or] at hline
    rw [List.length_cons] at hroom
    have hrest := ih hline.2 (room - 1) (by omega)
    by_cases hnil : line = []
    · subst hnil
      by_cases hfull : room ≤ 1
      · simp [fgetsLoop, hfull]
      · simp [fgetsLoop, hfull, Ne.symm hline.1, consHead]
    · have hpos : 0 < line.length := List.length_pos_iff.mpr hnil
      have hmore : ¬ (c = '\n' ∨ room ≤ 1) := by
        rintro (h | h)
        · exact hline.1 h.symm
        · omega
      rw [fgetsLoop, if_neg hmore, hrest, if_neg hnil, if_neg (List.cons_ne_nil _ _), consHead]

theorem lastLine_last : lastLine line = line := by
  unfold lastLine
  rw [List.rtakeWhile_eq_self_iff]
  intro c hc
  rw [bne_iff_ne]
  rintro rfl
  exact hline hc

theorem parseTextLoop_line (keyvalues : List TagValue) (before : Text) :
    parseTextLoop keyvalues before (line ++ '\n' :: text) =
      match parseLine (before ++ line) with
      | .nothing => parseTextLoop keyvalues [] text
      | .pair tag value => parseTextLoop (keyvalues ++ [(tag, value)]) [] text
      | .outOfBounds => none := by
  induction line generalizing before with
  | nil => simp [parseTextLoop]
  | cons c line ih =>
    rw [List.mem_cons, not_or] at hline
    rw [List.cons_append, parseTextLoop, if_neg (Ne.symm hline.1), ih hline.2]
    simp

theorem parseTextLoop_last (keyvalues : List TagValue) (before : Text) :
    parseTextLoop keyvalues before line = some keyvalues := by
  induction line generalizing before with
  | nil => rfl
  | cons c line ih =>
    rw [List.mem_cons, not_or] at hline
    rw [parseTextLoop, if_neg (Ne.symm hline.1), ih hline.2]

/-- `parse_line` takes a line with or without its newline for the same. -/
theorem parseLine_newline : parseLine (line ++ ['\n']) = parseLine line := by
  have hskip : (line ++ ['\n']).dropWhile (· == ' ') = line.dropWhile (· == ' ') ++ ['\n'] :=
    dropWhile_newline line
  cases hrest : line.dropWhile (· == ' ') with
  | nil =>
    rw [hrest] at hskip
    simp [parseLine, hskip, hrest]
  | cons c rest =>
    rw [hrest] at hskip
    have hnl : '\n' ∉ rest := by
      intro hmem
      apply hline
      have hmem' : '\n' ∈ line.dropWhile (· == ' ') := by rw [hrest]; exact List.mem_cons_of_mem _ hmem
      exact (List.dropWhile_sublist _).subset hmem'
    unfold parseLine
    simp only [hskip, hrest, List.cons_append]
    by_cases hmem : '=' ∈ rest
    · -- the newline stands behind the '='
      rcases List.eq_append_cons_of_mem hmem with ⟨t, value, rfl, ht⟩
      by_cases heq : c = '='
      · simp [heq]
      have hkey : '=' ∉ c :: t := by simp [Ne.symm heq, ht]
      have hcut := cut_at_eq hkey value
      have hcut' := cut_at_eq hkey (value ++ ['\n'])
      have hvalue : '\n' ∉ value := fun h =>
        hnl (List.mem_append_right _ (List.mem_cons_of_mem _ h))
      simp only [List.append_assoc, List.cons_append] at hcut hcut' ⊢
      simp only [hcut, hcut', List.tail_cons, parseValue_newline hvalue]
      simp
    · by_cases heq : c = '='
      · simp [heq]
      · simp [hmem, Ne.symm heq]

end Lines

/-- Where the lines fit into the buffer, `fgets` returns them one by one. -/
theorem fileLines_eq_linesOf {text : Text} (hnul : '\x00' ∉ text)
    (hlen : ∀ line ∈ linesOf text, line.length ≤ 1023) : fileLines text = linesOf text := by
  induction text using line_induction with
  | hlast line hline =>
    rw [linesOf_last hline] at hlen ⊢
    have hfit : line.length ≤ 1023 := by
      by_cases hnil : line = []
      · simp [hnil]
      · exact hlen line (by rw [if_neg hnil]; exact List.mem_singleton_self line)
    rw [fileLines, fgetsLoop_last hline 1023 hfit]
    split
    · rfl
    · rw [List.map_singleton, cString_eq_self hnul]
  | hline line text hline ih =>
    rw [linesOf_line hline, List.forall_mem_cons] at hlen
    have hfit : line.length < 1023 := by
      have hfirst := hlen.1
      rw [List.length_append, List.length_singleton] at hfirst
      omega
    have hnul' : '\x00' ∉ line ++ ['\n'] ∧ '\x00' ∉ text := by
      simpa [and_assoc] using hnul
    rw [linesOf_line hline, fileLines, fgetsLoop_line hline text 1023 hfit, List.map_cons,
      cString_eq_self hnul'.1, ← ih hnul'.2 hlen.2]
    rfl

/-- The pair of a line, if it holds one. -/
def pairOf (line : Text) : List TagValue :=
  if HoldsPair line then [(lineKey line, lineValue line)] else []

/-- `parse_file` reads what `parse_string` reads, and the pair behind the last
newline. -/
theorem parseLines_linesOf (text : Text) (hkey : ∀ line ∈ linesOf text, ¬ LacksKey line)
    (keyvalues : List TagValue) :
    ∃ pairs, parseTextLoop keyvalues [] text = some (keyvalues ++ pairs) ∧
      parseLines (linesOf text) = some (pairs ++ pairOf (lastLine text)) := by
  induction text using line_induction generalizing keyvalues with
  | hlast line hline =>
    refine ⟨[], ?_, ?_⟩
    · rw [parseTextLoop_last hline, List.append_nil]
    · rw [lastLine_last hline, linesOf_last hline, List.nil_append, pairOf]
      by_cases hnil : line = []
      · have hno : ¬ HoldsPair [] := by simp [HoldsPair]
        rw [hnil, if_neg hno]
        rfl
      · have hkey' : ¬ LacksKey line := by
          apply hkey
          rw [linesOf_last hline, if_neg hnil]
          exact List.mem_singleton_self line
        rw [if_neg hnil, parseLines, parseLine_eq, if_neg hkey']
        by_cases hpair : HoldsPair line
        · rw [if_pos hpair, if_pos hpair]
          rfl
        · rw [if_neg hpair, if_neg hpair]
          rfl
  | hline line text hline ih =>
    rw [linesOf_line hline, List.forall_mem_cons] at hkey
    have hfirst := hkey.1
    rw [← parseLine_eq_outOfBounds_iff, parseLine_newline hline] at hfirst
    rw [linesOf_line hline, lastLine_line, parseTextLoop_line hline, List.nil_append, parseLines,
      parseLine_newline hline]
    cases hparse : parseLine line with
    | nothing => exact ih hkey.2 keyvalues
    | pair tag value =>
      rcases ih hkey.2 (keyvalues ++ [(tag, value)]) with ⟨pairs, htext, hfile⟩
      refine ⟨(tag, value) :: pairs, ?_, ?_⟩
      · show parseTextLoop (keyvalues ++ [(tag, value)]) [] text = _
        rw [htext, List.append_assoc, List.singleton_append]
      · show (parseLines (linesOf text)).map ((tag, value) :: ·) = _
        rw [hfile]
        rfl
    | outOfBounds => exact absurd hparse hfirst

/-- `parse_string` on a fresh parser agrees with `parse_file` on a file with the
same content if and only if no pair stands behind the last newline. -/
theorem parseText_agrees_iff {text : Text} (hnul : '\x00' ∉ text)
    (hlen : ∀ line ∈ linesOf text, line.length ≤ 1023)
    (hkey : ∀ line ∈ linesOf text, ¬ LacksKey line) :
    ∃ r, parseFile (some text) = some r ∧
      (parseText [] (some text) = some r ↔ ¬ HoldsPair (lastLine text)) := by
  rcases parseLines_linesOf text hkey [] with ⟨pairs, htext, hfile⟩
  refine ⟨((pairs ++ pairOf (lastLine text)).length, pairs ++ pairOf (lastLine text)), ?_, ?_⟩
  · rw [parseFile, fileLines_eq_linesOf hnul hlen, hfile, Option.map_some]
  · rw [parseText, htext, Option.map_some, List.nil_append, Option.some.injEq, Prod.mk.injEq]
    unfold pairOf
    by_cases hpair : HoldsPair (lastLine text)
    · simp [hpair]
    · simp [hpair]

/-- A comment behind the last newline is read by neither. -/
theorem parseText_agrees_with_comment :
    ∃ r, parseFile (some ['a', '=', '1', '\n', '#', 'b', '=', '2']) = some r ∧
      (parseText [] (some ['a', '=', '1', '\n', '#', 'b', '=', '2']) = some r ↔
        ¬ HoldsPair (lastLine ['a', '=', '1', '\n', '#', 'b', '=', '2'])) :=
  parseText_agrees_iff (by decide) (by decide) (by decide)

/-- One line without newline: `parse_file` finds its pair, `parse_string` finds
nothing. -/
theorem parseText_misses_last_line :
    '\x00' ∉ ['a', '=', '1'] ∧ (∀ line ∈ linesOf ['a', '=', '1'], line.length ≤ 1023) ∧
      (∀ line ∈ linesOf ['a', '=', '1'], ¬ LacksKey line) ∧
      parseFile (some ['a', '=', '1']) = some (1, [(['a'], ['1'])]) ∧
      parseText [] (some ['a', '=', '1']) = some (0, []) := by
  decide

/-! ## Reading and changing values -/

/-- The calls that change a loaded store: `set_value` and `remove`. -/
inductive StoreCall where
  | setValue (key value : Text)
  | remove (key : Text)

/-- `_set_value` and `_remove`: both work on the first pair with the key. -/
def StoreCall.apply (keyvalues : List TagValue) : StoreCall → List TagValue
  | .setValue key value => Assoc.set key value keyvalues
  | .remove key => Assoc.remove key keyvalues

/-- `_value`. -/
def value (keyvalues : List TagValue) (key : Text) : Option Text := Assoc.find key keyvalues

/-- The key a call is about, and the value it has afterwards. -/
def StoreCall.result : StoreCall → Text × Option Text
  | .setValue key value => (key, some value)
  | .remove key => (key, none)

/-- After any sequence of calls, one more call sets the value of its key, or
removes it, and changes no other. -/
def ActsAsMap (keyvalues : List TagValue) : Prop :=
  ∀ (calls : List StoreCall) (c : StoreCall),
    let before := calls.foldl StoreCall.apply keyvalues
    value (c.apply before) c.result.1 = c.result.2 ∧
      ∀ key, key ≠ c.result.1 → value (c.apply before) key = value before key

theorem nodup_keys_apply {keyvalues : List TagValue} (h : (keyvalues.map Prod.fst).Nodup)
    (c : StoreCall) : ((c.apply keyvalues).map Prod.fst).Nodup := by
  cases c with
  | setValue key value => exact Assoc.nodup_keys_set h key value
  | remove key => exact Assoc.nodup_keys_remove h key

theorem nodup_keys_calls {keyvalues : List TagValue} (h : (keyvalues.map Prod.fst).Nodup)
    (calls : List StoreCall) : ((calls.foldl StoreCall.apply keyvalues).map Prod.fst).Nodup := by
  induction calls generalizing keyvalues with
  | nil => exact h
  | cons c calls ih => exact ih (nodup_keys_apply h c)

theorem actsAsMap_iff (keyvalues : List TagValue) :
    ActsAsMap keyvalues ↔ (keyvalues.map Prod.fst).Nodup := by
  constructor
  · -- removing a key from the store as it is must leave no second pair with it
    intro h
    rw [← Assoc.forall_find_remove_iff]
    exact fun key => (h [] (.remove key)).1
  · intro h calls c
    have hcalls := nodup_keys_calls h calls
    cases c with
    | setValue key v =>
      exact ⟨Assoc.find_set_self _ _ _, fun key' hne => Assoc.find_set_ne hne _ _⟩
    | remove key =>
      rw [← Assoc.forall_find_remove_iff] at hcalls
      exact ⟨hcalls key, fun key' hne => Assoc.find_remove_ne hne _⟩

/-- A store that is loaded from a file behaves as a map if and only if no two
lines of the file hold a pair with the same key. -/
theorem load_acts_as_map_iff {text : List Char} (hkey : ∀ line ∈ fileLines text, ¬ LacksKey line) :
    ∃ keyvalues, parseFile (some text) = some ((keyvalues.length : ℤ), keyvalues) ∧
      (ActsAsMap keyvalues ↔ (((fileLines text).filter HoldsPair).map lineKey).Nodup) := by
  refine ⟨((fileLines text).filter HoldsPair).map fun line => (lineKey line, lineValue line), ?_, ?_⟩
  · rw [parseFile, parseLines_eq hkey, Option.map_some]
  · rw [actsAsMap_iff, List.map_map]
    rfl

/-- Two lines with different keys. -/
theorem load_acts_as_map_two_keys :
    ∃ keyvalues,
      parseFile (some ['a', '=', '1', '\n', 'b', '=', '2', '\n']) =
        some ((keyvalues.length : ℤ), keyvalues) ∧
      (ActsAsMap keyvalues ↔
        (((fileLines ['a', '=', '1', '\n', 'b', '=', '2', '\n']).filter HoldsPair).map
          lineKey).Nodup) :=
  load_acts_as_map_iff (by decide)

/-- A key in two lines: the second value shows up when the key is removed. -/
theorem removed_key_reappears :
    (∀ line ∈ fileLines ['a', '=', '1', '\n', 'a', '=', '2', '\n'], ¬ LacksKey line) ∧
      parseFile (some ['a', '=', '1', '\n', 'a', '=', '2', '\n']) =
        some (2, [(['a'], ['1']), (['a'], ['2'])]) ∧
      value ((StoreCall.remove ['a']).apply [(['a'], ['1']), (['a'], ['2'])]) ['a'] = some ['2'] ∧
      ¬ ActsAsMap [(['a'], ['1']), (['a'], ['2'])] := by
  refine ⟨by decide, by decide, by decide, ?_⟩
  rw [actsAsMap_iff]
  decide

end MqttMsgHub
