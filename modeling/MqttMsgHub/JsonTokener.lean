import Mathlib.Algebra.Group.Nat.Defs
import MqttMsgHub.Json
import MqttMsgHub.Lib.Machine

/-! # The tokener of json-c

`json_tokener_parse` reads a JSON text with a state machine over a stack of levels, one
for every array or object that is open. A level keeps the state it is in, the state that
follows the blanks it is skipping, the value it has read so far and, in an object, the
name of the member that is being read. The machine is modelled turn by turn of its
`switch`; a turn that ends with `goto redo_char` or, behind the `switch`, with the next
character goes on, one that ends with `goto out` is out.

The text is read up to its NUL (`len` is -1), so the machine never stops in the middle and
its `json_tokener_continue` does not occur; the flags are 0, as `json_tokener_parse` leaves
them. What the machine would do to a value that is no array or has no member name is not
defined (`none`).

* `tokener_returns` — the machine always comes to its end, after at most ten turns for
  every character, and its values are always of the kind that it takes them for.
-/

namespace MqttMsgHub

/-! ## The tokener's state -/

/-- `enum json_tokener_state`. -/
inductive TokenerState where
  | eatws
  | start
  | finish
  | null
  | commentStart
  | comment
  | commentEol
  | commentEnd
  | string
  | stringEscape
  | escapeUnicode
  | boolean
  | number
  | array
  | arrayAdd
  | arraySep
  | objectFieldStart
  | objectField
  | objectFieldEnd
  | objectValue
  | objectValueAdd
  | objectSep
  | arrayAfterSep
  | objectFieldStartAfterSep
  | inf
deriving DecidableEq, Repr

/-- `enum json_tokener_error`, as far as the tokener sets it. -/
inductive TokenerError where
  | success
  | depth
  | parseEof
  | parseUnexpected
  | parseNull
  | parseBoolean
  | parseNumber
  | parseArray
  | parseObjectKeyName
  | parseObjectKeySep
  | parseObjectValueSep
  | parseString
  | parseComment
  | size
deriving DecidableEq, Repr

/-- `struct json_tokener_srec`: a level. A NULL value is JSON `null`. -/
structure Srec where
  state : TokenerState
  savedState : TokenerState
  current : Json
  objFieldName : Option Text

/-- A level after `json_tokener_reset_level`. -/
def Srec.fresh : Srec := ⟨.eatws, .start, .null, none⟩

/-- `struct json_tokener` and the variables of `json_tokener_parse_ex`: `str` is the text
from the current character on, `top` is `stack[depth]` and `below` the levels under it, the
innermost first. -/
structure Tokener where
  str : Text
  top : Srec
  below : List Srec
  pb : Text
  stPos : ℕ
  quoteChar : Char
  isDouble : Bool
  ucsChar : ℕ
  obj : Json

/-- `JSON_TOKENER_DEFAULT_DEPTH`. -/
def JSON_TOKENER_DEFAULT_DEPTH : ℕ := 32

/-- `json_tokener_new`, in front of a text. -/
def jsonTokenerNew (text : Text) : Tokener := ⟨text, .fresh, [], [], 0, '\x00', false, 0, .null⟩

/-- A text up to its first NUL, as `strlen` and `strdup` see it. -/
def upToNul (s : Text) : Text := s.takeWhile (· ≠ '\x00')

/-- `PEEK_CHAR`: the current character; it is NUL at the end of the text. -/
def peekChar (str : Text) : Char := str.headD '\x00'

/-- A turn of the machine. -/
abbrev Turn := Machine.Turn Tokener (TokenerError × Json)

/-- `out:` — an error if the text has ended too early; without error the value of the
level that is open. -/
def leave (tok : Tokener) (err : TokenerError) : TokenerError × Json :=
  let err :=
    if peekChar tok.str = '\x00' ∧ tok.top.state ≠ .finish ∧ tok.top.savedState ≠ .finish then
      .parseEof
    else err
  if err = .success then (.success, tok.top.current) else (err, .null)

/-- `goto out`. -/
def out (tok : Tokener) (err : TokenerError) : Turn := .out (leave tok err)

/-- `ADVANCE_CHAR` behind the `switch`. -/
def advanceChar (tok : Tokener) : Turn :=
  match tok.str with
  | [] => out tok .success
  | c :: str => if c = '\x00' then out tok .success else .goOn { tok with str := str }

/-! ## Characters and numbers -/

/-- `strncasecmp(s, t, n) == 0`. -/
def strncasecmpEq (s t : Text) (n : ℕ) : Bool := stringEqualsIgnoreCase (s.take n) (t.take n)

/-- `json_number_chars`. -/
def isNumberChar (c : Char) : Bool := "0123456789.+-eE".toList.contains c

/-- `json_hex_chars`. -/
def isHexChar (c : Char) : Bool := "0123456789abcdefABCDEF".toList.contains c

/-- `jt_hexdigit`. -/
def jtHexdigit (c : Char) : ℕ :=
  if c ≤ '9' then c.toNat - '0'.toNat else c.toNat % 8 + 9

/-- `IS_HIGH_SURROGATE`; the mask leaves bits 10 to 15, also of a longer code. -/
def isHighSurrogate (uc : ℕ) : Bool := uc / 1024 % 64 == 54

/-- `IS_LOW_SURROGATE`. -/
def isLowSurrogate (uc : ℕ) : Bool := uc / 1024 % 64 == 55

/-- `DECODE_SURROGATE_PAIR`. -/
def decodeSurrogatePair (hi lo : ℕ) : ℕ := hi % 1024 * 1024 + lo % 1024 + 65536

/-- `utf8_replacement_char`. -/
def utf8ReplacementChar : Text := [Char.ofNat 0xEF, Char.ofNat 0xBF, Char.ofNat 0xBD]

/-- `unescaped_utf`, for a code that is no surrogate. -/
def unescapedUtf (uc : ℕ) : Text :=
  if uc < 0x80 then [Char.ofNat uc]
  else if uc < 0x800 then [Char.ofNat (0xc0 + uc / 64), Char.ofNat (0x80 + uc % 64)]
  else if uc < 0x10000 then
    [Char.ofNat (0xe0 + uc / 4096), Char.ofNat (0x80 + uc / 64 % 64), Char.ofNat (0x80 + uc % 64)]
  else if uc < 0x110000 then
    [Char.ofNat (0xf0 + uc / 262144 % 8), Char.ofNat (0x80 + uc / 4096 % 64),
      Char.ofNat (0x80 + uc / 64 % 64), Char.ofNat (0x80 + uc % 64)]
  else utf8ReplacementChar

/-- The loop of `json_tokener_state_escape_unicode`: the printbuf and the text behind the
last digit, or the text in front of a character that is no digit. `gotHiSurrogate` is 0
when there is none. -/
def escapeUnicodeLoop : Text → ℕ → ℕ → ℕ → Text → Except Text (Text × Text)
  | [], _, _, _, _ => .error []
  | c :: str, gotHiSurrogate, ucsChar, stPos, pb =>
    if isHexChar c then
      let ucsChar := ucsChar + jtHexdigit c * 16 ^ (3 - stPos)
      if stPos + 1 = 4 then
        -- behind a high surrogate: the other half of the pair, or the high one is replaced
        let paired := gotHiSurrogate ≠ 0 ∧ isLowSurrogate ucsChar
        let pb := if gotHiSurrogate ≠ 0 ∧ ¬ paired then pb ++ utf8ReplacementChar else pb
        let ucsChar := if paired then decodeSurrogatePair gotHiSurrogate ucsChar else ucsChar
        -- a high one, or a pair that looks like one, waits for the `\u` of the other half
        if isHighSurrogate ucsChar then
          match str with
          | '\\' :: 'u' :: str => escapeUnicodeLoop str ucsChar 0 0 pb
          | str => .ok (pb ++ utf8ReplacementChar, str)
        else if isLowSurrogate ucsChar then .ok (pb ++ utf8ReplacementChar, str)
        else .ok (pb ++ unescapedUtf ucsChar, str)
      else escapeUnicodeLoop str gotHiSurrogate ucsChar (stPos + 1) pb
    else .error (c :: str)

/-- The loop of `json_tokener_state_number`: `is_double` and the text behind the number.
`minus` is `negativesign_next_possible_location`. -/
def numberLoop : Text → ℕ → ℕ → Bool → Bool → Option (Bool × Text)
  | [], _, _, _, isDouble => some (isDouble, [])
  | c :: str, caseLen, minus, isExponent, isDouble =>
    if isNumberChar c then
      let caseLen := caseLen + 1
      let e := c == 'e' || c == 'E'
      -- a second point or a point in the exponent, and a second exponent
      if c == '.' && isDouble || e && isExponent then none
      else
        let minus := if e then caseLen + 1 else minus
        if c == '-' && caseLen != minus then none
        else numberLoop str caseLen minus (isExponent || e) (isDouble || c == '.' || e)
    else some (isDouble, c :: str)

/-- The text behind an optional sign. -/
def unsigned (s : Text) : Text := if s.head? = some '-' ∨ s.head? = some '+' then s.tail else s

/-- `json_parse_int64(s) == 0`: `strtoll` finds digits; the value is `strtoll`'s, the
nearest one on overflow. -/
def jsonParseInt64 (s : Text) : Option CInt64 :=
  if ((unsigned (s.dropWhile isSpace)).headD ' ').isDigit then some (strtoll s) else none

/-- `json_parse_double(s) == 0`, for a text of `json_number_chars`: `strtod` finds a digit
behind the sign, or one behind the sign and a point. -/
def jsonParseDouble (s : Text) : Bool :=
  ((unsigned s).headD ' ').isDigit ||
    (unsigned s).head? = some '.' && ((unsigned s).tail.headD ' ').isDigit

/-! ## The turns -/

/-- A scalar has been read; the blanks behind it are next. -/
def Srec.read (level : Srec) (v : Json) : Srec :=
  { level with current := v, savedState := .finish, state := .eatws }

/-- Skip blanks, then go on to a state. -/
def Srec.eat (level : Srec) (savedState : TokenerState) : Srec :=
  { level with savedState := savedState, state := .eatws }

/-- `json_tokener_state_string` and `json_tokener_state_object_field`: up to the quote, a
backslash or the end. -/
def stringTurn (tok : Tokener) (state : TokenerState) (close : Text → Srec) : Turn :=
  let stops (c : Char) := c == tok.quoteChar || c == '\\' || c == '\x00'
  let str := tok.str.dropWhile fun c => !stops c
  let pb := tok.pb ++ tok.str.takeWhile fun c => !stops c
  if peekChar str = tok.quoteChar then
    advanceChar { tok with str := str, pb := pb, top := close pb }
  else if peekChar str = '\\' then
    advanceChar { tok with
      str := str, pb := pb, top := { tok.top with savedState := state, state := .stringEscape } }
  else out { tok with str := str, pb := pb } .success

/-- `json_tokener_state_null` and `json_tokener_state_boolean`: another character of one of
two words. -/
def wordTurn (tok : Tokener) (word₁ : Text) (value₁ : Json) (word₂ : Text) (value₂ : Json)
    (err : TokenerError) : Turn :=
  let pb := tok.pb ++ [peekChar tok.str]
  let more := advanceChar { tok with pb := pb, stPos := tok.stPos + 1 }
  -- strncmp finds no word that strncasecmp does not
  if strncasecmpEq word₁ pb (min (tok.stPos + 1) word₁.length) then
    if tok.stPos = word₁.length then .goOn { tok with pb := pb, top := tok.top.read value₁ }
    else more
  else if strncasecmpEq word₂ pb (min (tok.stPos + 1) word₂.length) then
    if tok.stPos = word₂.length then .goOn { tok with pb := pb, top := tok.top.read value₂ }
    else more
  else out { tok with pb := pb } err

/-- The loop of `json_tokener_state_inf`: the text behind the word, or the text in front of
a character that is not the word's. -/
def wordLoop : Text → Text → Except Text Text
  | [], str => .ok str
  | w :: word, str => if (peekChar str).toLower = w then wordLoop word str.tail else .error str

/-- `json_tokener_state_number`. -/
def numberTurn (tok : Tokener) : Turn :=
  match numberLoop tok.str 0 1 false tok.isDouble with
  | none => out tok .parseNumber
  | some (isDouble, str) =>
    let text := tok.str.takeWhile isNumberChar
    let tok := { tok with str := str, pb := tok.pb ++ text, isDouble := isDouble }
    -- a minus sign alone in front of the word is -Infinity
    if tok.pb.head? = some '-' ∧ text.length ≤ 1 ∧ (peekChar str = 'i' ∨ peekChar str = 'I') then
      .goOn { tok with top := { tok.top with state := .inf }, stPos := 0 }
    else if isDouble then
      if jsonParseDouble tok.pb then .goOn { tok with top := tok.top.read (.double tok.pb) }
      else out tok .parseNumber
    else
      match jsonParseInt64 tok.pb with
      | some num64 => .goOn { tok with top := tok.top.read (.int num64) }
      | none => out tok .parseNumber

/-- `json_tokener_state_start`. -/
def startTurn (tok : Tokener) : Turn :=
  let c := peekChar tok.str
  let token (state : TokenerState) : Turn :=
    .goOn { tok with top := { tok.top with state := state }, pb := [], stPos := 0 }
  if c = '\x7b' then
    advanceChar { tok with top := { tok.top.eat .objectFieldStart with current := .object [] } }
  else if c = '[' then
    advanceChar { tok with top := { tok.top.eat .array with current := .array [] } }
  else if c = 'I' ∨ c = 'i' then token .inf
  else if c = 'N' ∨ c = 'n' then token .null
  else if c = '\'' ∨ c = '"' then
    advanceChar { tok with top := { tok.top with state := .string }, pb := [], quoteChar := c }
  else if c = 'T' ∨ c = 't' ∨ c = 'F' ∨ c = 'f' then token .boolean
  else if c.isDigit ∨ c = '-' then
    .goOn { tok with top := { tok.top with state := .number }, pb := [], isDouble := false }
  else out tok .parseUnexpected

/-- `json_tokener_state_string_escape`. -/
def stringEscapeTurn (tok : Tokener) : Turn :=
  let c := peekChar tok.str
  let append (x : Char) : Turn :=
    advanceChar { tok with
      pb := tok.pb ++ [x], top := { tok.top with state := tok.top.savedState } }
  if c = '"' ∨ c = '\\' ∨ c = '/' then append c
  else if c = 'b' then append '\x08'
  else if c = 'n' then append '\n'
  else if c = 'r' then append '\r'
  else if c = 't' then append '\t'
  else if c = 'f' then append '\x0c'
  else if c = 'u' then
    advanceChar { tok with
      ucsChar := 0, stPos := 0, top := { tok.top with state := .escapeUnicode } }
  else out tok .parseString

/-- Open a level above, for an element or the value of a member. -/
def push (tok : Tokener) (state : TokenerState) : Turn :=
  if JSON_TOKENER_DEFAULT_DEPTH - 1 ≤ tok.below.length then out tok .depth
  else .goOn { tok with below := { tok.top with state := state } :: tok.below, top := .fresh }

/-- One turn of the `switch`. -/
def turn (tok : Tokener) : Option Turn :=
  let c := peekChar tok.str
  let eat (savedState : TokenerState) : Turn :=
    advanceChar { tok with top := tok.top.eat savedState }
  let goto (state : TokenerState) : Turn :=
    advanceChar { tok with top := { tok.top with state := state } }
  match tok.top.state with
  | .eatws =>
    let str := tok.str.dropWhile isSpace
    if peekChar str = '/' then
      -- the printbuf keeps a comment for debug output only
      advanceChar { tok with str := str, top := { tok.top with state := .commentStart } }
    else some (.goOn { tok with str := str, top := { tok.top with state := tok.top.savedState } })
  | .start => startTurn tok
  | .finish =>
    match tok.below with
    | [] => out tok .success
    | level :: below =>
      some (.goOn { tok with obj := tok.top.current, top := level, below := below })
  | .inf =>
    match wordLoop "infinity".toList tok.str with
    | .error str => out { tok with str := str } .parseUnexpected
    | .ok str =>
      let minus := if tok.pb.head? = some '-' then ['-'] else []
      some (.goOn { tok with
        str := str, top := tok.top.read (.double (minus ++ "Infinity".toList)) })
  | .null => wordTurn tok "null".toList .null "NaN".toList (.double "NaN".toList) .parseNull
  | .boolean =>
    wordTurn tok "true".toList (.boolean true) "false".toList (.boolean false) .parseBoolean
  | .commentStart =>
    if c = '*' then goto .comment
    else if c = '/' then goto .commentEol
    else out tok .parseComment
  | .comment =>
    let str := tok.str.dropWhile fun c => c != '*' && c != '\x00'
    if peekChar str = '*' then
      advanceChar { tok with str := str, top := { tok.top with state := .commentEnd } }
    else out { tok with str := str } .success
  | .commentEol =>
    let str := tok.str.dropWhile fun c => c != '\n' && c != '\x00'
    if peekChar str = '\n' then
      advanceChar { tok with str := str, top := { tok.top with state := .eatws } }
    else out { tok with str := str } .success
  | .commentEnd => if c = '/' then goto .eatws else goto .comment
  | .string => stringTurn tok .string fun pb => tok.top.read (.string pb)
  | .stringEscape => stringEscapeTurn tok
  | .escapeUnicode =>
    match escapeUnicodeLoop tok.str 0 tok.ucsChar tok.stPos tok.pb with
    | .error str => out { tok with str := str } .parseString
    | .ok (pb, str) =>
      some (.goOn { tok with
        str := str, pb := pb, top := { tok.top with state := tok.top.savedState } })
  | .number => numberTurn tok
  | .array => if c = ']' then eat .finish else push tok .arrayAdd
  | .arrayAfterSep => if c = ']' then eat .finish else push tok .arrayAdd
  | .arrayAdd =>
    match tok.top.current with
    | .array elems =>
      let top := { tok.top.eat .arraySep with current := .array (elems ++ [tok.obj]) }
      some (.goOn { tok with top := top })
    | _ => none
  | .arraySep =>
    if c = ']' then eat .finish
    else if c = ',' then eat .arrayAfterSep
    else out tok .parseArray
  | .objectFieldStart | .objectFieldStartAfterSep =>
    if c = '\x7d' then eat .finish
    else if c = '"' ∨ c = '\'' then
      advanceChar { tok with
        quoteChar := c, pb := [], top := { tok.top with state := .objectField } }
    else out tok .parseObjectKeyName
  | .objectField =>
    -- strdup copies the name up to its first NUL
    stringTurn tok .objectField fun pb =>
      { tok.top.eat .objectFieldEnd with objFieldName := some (upToNul pb) }
  | .objectFieldEnd => if c = ':' then eat .objectValue else out tok .parseObjectKeySep
  | .objectValue => push tok .objectValueAdd
  | .objectValueAdd =>
    match tok.top.current, tok.top.objFieldName with
    | .object members, some name =>
      let top := { tok.top.eat .objectSep with
        current := .object (Assoc.set name tok.obj members), objFieldName := none }
      some (.goOn { tok with top := top })
    | _, _ => none
  | .objectSep =>
    if c = '\x7d' then eat .finish
    else if c = ',' then eat .objectFieldStartAfterSep
    else out tok .parseObjectValueSep

/-- `json_tokener_parse_verbose`: the error and the value. -/
def jsonTokenerParseVerbose (text : Text) : Option (TokenerError × Json) :=
  if INT_MAX.1 < (upToNul text).length then some (.size, .null)
  else Machine.run turn (10 * text.length + 10) (jsonTokenerNew text)

/-- `json_tokener_parse`; a NULL value, of an error or of `null`, is `none`. -/
def jsonTokenerParse (text : Text) : Option Json :=
  match jsonTokenerParseVerbose text with
  | some (_, .null) => none
  | some (.success, v) => some v
  | _ => none

/-! ## The machine comes to its end -/

/-- What follows the blanks, the comment or the escape that a level is in. -/
def Srec.next (level : Srec) : TokenerState :=
  match level.state with
  | .eatws | .commentStart | .comment | .commentEol | .commentEnd => level.savedState
  | .stringEscape | .escapeUnicode => level.savedState
  | state => state

/-- The value of a level is of the kind that the level's state takes it for. -/
def Srec.Ok (level : Srec) : Prop :=
  match level.next with
  | .array | .arrayAfterSep | .arraySep | .arrayAdd => ∃ elems, level.current = .array elems
  | .objectFieldStart | .objectFieldStartAfterSep | .objectField | .objectSep =>
    ∃ members, level.current = .object members
  | .objectFieldEnd | .objectValue | .objectValueAdd =>
    ∃ members name, level.current = .object members ∧ level.objFieldName = some name
  | .start | .finish | .null | .boolean | .number | .inf | .string => True
  | _ => False

/-- A level that waits for the value of the level above. -/
def Srec.Waits (level : Srec) : Prop :=
  (level.state = .arrayAdd ∨ level.state = .objectValueAdd) ∧ level.Ok

/-- The levels of a tokener are in order. -/
def Shape (tok : Tokener) : Prop := tok.top.Ok ∧ ∀ level ∈ tok.below, level.Waits

/-- How many turns there are at most before a character is taken. -/
def TokenerState.rank : TokenerState → ℕ
  | .arrayAdd | .objectValueAdd => 2
  | .finish => 3
  | .null | .boolean | .number => 5
  | .start => 6
  | .array | .arrayAfterSep | .objectValue => 8
  | _ => 0

def Srec.rank (level : Srec) : ℕ :=
  match level.state with
  | .eatws => level.savedState.rank + 1
  | state => state.rank

/-- What is left to do. -/
def work (tok : Tokener) : ℕ := 10 * tok.str.length + tok.top.rank

/-- A turn is defined, and it is out or leaves less to do. -/
def Turned (tok : Tokener) (t : Option Turn) : Prop :=
  (∃ tok', t = some (.goOn tok') ∧ Shape tok' ∧ work tok' < work tok) ∨ ∃ r, t = some (.out r)

variable {tok tok' : Tokener} {level : Srec}

theorem rank_le (state : TokenerState) : state.rank ≤ 8 := by
  cases state <;> simp [TokenerState.rank]

theorem work_le (tok : Tokener) : work tok ≤ 10 * tok.str.length + 9 := by
  have h := rank_le tok.top.state
  have hsaved := rank_le tok.top.savedState
  unfold work Srec.rank
  split <;> omega

theorem le_work (tok : Tokener) : 10 * tok.str.length ≤ work tok := Nat.le_add_right _ _

theorem turned_out (tok tok' : Tokener) (err : TokenerError) : Turned tok (out tok' err) :=
  .inr ⟨_, rfl⟩

theorem turned_goOn (h : Shape tok') (hwork : work tok' < work tok) :
    Turned tok (some (.goOn tok')) :=
  .inl ⟨tok', rfl, h, hwork⟩

/-- The next character is taken. -/
theorem turned_advance (h : Shape tok') (hlen : tok'.str.length ≤ tok.str.length) :
    Turned tok (advanceChar tok') := by
  unfold advanceChar
  split
  · exact turned_out _ _ _
  · rename_i c str hstr
    split
    · exact turned_out _ _ _
    · have hle := work_le { tok' with str := str }
      have hge := le_work tok
      rw [hstr, List.length_cons] at hlen
      simp only at hle
      exact turned_goOn h (by omega)

/-- A level that goes on with what its state demands of its value. -/
theorem Srec.Ok.of_next {level' : Srec} (h : level.Ok) (hnext : level'.next = level.next)
    (hcurrent : level'.current = level.current) (hname : level'.objFieldName = level.objFieldName) :
    level'.Ok := by
  unfold Srec.Ok
  rw [hnext, hcurrent, hname]
  exact h

theorem length_dropWhile_le (p : Char → Bool) (s : Text) : (s.dropWhile p).length ≤ s.length :=
  (List.dropWhile_suffix p).length_le

theorem escapeUnicodeLoop_length {str str' pb pb' : Text} {hi ucs pos : ℕ}
    (h : escapeUnicodeLoop str hi ucs pos pb = .ok (pb', str')) : str'.length < str.length := by
  fun_induction escapeUnicodeLoop str hi ucs pos pb with
  | case1 => simp at h
  | case2 hi ucs pos pb c hhex ucs' hpos paired pb' ucs'' hhigh str ih =>
    have hlt := ih h
    simp only [List.length_cons]
    omega
  | case6 str hi ucs pos pb c hhex ucs' hpos ih =>
    have hlt := ih h
    simp only [List.length_cons]
    omega
  | case7 => simp at h
  | _ =>
    simp only [Except.ok.injEq, Prod.mk.injEq] at h
    simp [← h.2]

theorem wordLoop_length {word str str' : Text} (hword : '\x00' ∉ word)
    (h : wordLoop word str = .ok str') : str'.length + word.length = str.length := by
  induction word generalizing str with
  | nil =>
    simp only [wordLoop, Except.ok.injEq] at h
    rw [h, List.length_nil, Nat.add_zero]
  | cons w word ih =>
    rw [List.mem_cons, not_or] at hword
    simp only [wordLoop] at h
    split at h
    · rename_i hw
      cases str with
      | nil => exact absurd hw hword.1
      | cons c str =>
        have hlen := ih hword.2 h
        simp only [List.tail_cons] at hlen
        simp only [List.length_cons]
        omega
    · simp at h

theorem numberLoop_dropWhile {str str' : Text} {caseLen minus : ℕ} {e isDouble isDouble' : Bool}
    (h : numberLoop str caseLen minus e isDouble = some (isDouble', str')) :
    str' = str.dropWhile isNumberChar := by
  fun_induction numberLoop str caseLen minus e isDouble with
  | case5 c str caseLen minus e isDouble hc =>
    simp only [Option.some.injEq, Prod.mk.injEq] at h
    rw [← h.2, List.dropWhile_cons_of_neg hc]
  | _ => simp_all

/-- A level above is opened. -/
theorem turned_push (h : Shape tok) {state : TokenerState}
    (hrank : work { tok with top := .fresh } < work tok)
    (hwaits : { tok.top with state := state }.Waits) : Turned tok (push tok state) := by
  unfold push
  split
  · exact turned_out _ _ _
  · refine turned_goOn ⟨trivial, ?_⟩ hrank
    simp only [List.forall_mem_cons]
    exact ⟨hwaits, h.2⟩

theorem turned_stringTurn (h : Shape tok) {state : TokenerState} {close : Text → Srec}
    (hescape : ({ tok.top with savedState := state, state := .stringEscape } : Srec).Ok)
    (hclose : ∀ pb, (close pb).Ok) : Turned tok (stringTurn tok state close) := by
  unfold stringTurn
  dsimp only
  split
  · exact turned_advance ⟨hclose _, h.2⟩ (length_dropWhile_le _ _)
  · split
    · exact turned_advance ⟨hescape, h.2⟩ (length_dropWhile_le _ _)
    · exact turned_out _ _ _

/-- A scalar has been read. -/
theorem turned_read (h : Shape tok) (hbelow : tok'.below = tok.below) {v : Json}
    (htop : tok'.top = tok.top.read v) (hlen : tok'.str.length ≤ tok.str.length)
    (hrank : 5 ≤ tok.top.rank ∨ tok'.str.length < tok.str.length) :
    Turned tok (some (.goOn tok')) := by
  refine turned_goOn ⟨?_, ?_⟩ ?_
  · rw [htop]
    trivial
  · rw [hbelow]
    exact h.2
  · have hread : tok'.top.rank = 4 := by rw [htop]; rfl
    unfold work
    omega

theorem turned_wordTurn (h : Shape tok) (hrank : tok.top.rank = 5) (word₁ word₂ : Text)
    (v₁ v₂ : Json) (err : TokenerError) : Turned tok (wordTurn tok word₁ v₁ word₂ v₂ err) := by
  have hread : ∀ v pb, Turned tok (some (.goOn { tok with pb := pb, top := tok.top.read v })) := by
    intro v pb
    exact turned_read h rfl rfl le_rfl (.inl (by omega))
  have hmore : Turned tok (advanceChar { tok with
      pb := tok.pb ++ [peekChar tok.str], stPos := tok.stPos + 1 }) :=
    turned_advance h le_rfl
  unfold wordTurn
  dsimp only
  split_ifs
  · exact hread _ _
  · exact hmore
  · exact hread _ _
  · exact hmore
  · exact turned_out _ _ _

theorem turned_numberTurn (h : Shape tok) (hrank : tok.top.rank = 5) :
    Turned tok (numberTurn tok) := by
  unfold numberTurn
  split
  · exact turned_out _ _ _
  · rename_i isDouble str hloop
    have hlen : str.length ≤ tok.str.length := by
      rw [numberLoop_dropWhile hloop]
      exact length_dropWhile_le _ _
    dsimp only
    split_ifs
    · -- the word is next, with rank 0
      refine turned_goOn ⟨trivial, h.2⟩ ?_
      show 10 * str.length + 0 < 10 * tok.str.length + tok.top.rank
      omega
    · exact turned_read h rfl rfl hlen (.inl (by omega))
    · exact turned_out _ _ _
    · split
      · exact turned_read h rfl rfl hlen (.inl (by omega))
      · exact turned_out _ _ _

theorem turned_startTurn (h : Shape tok) (hrank : tok.top.rank = 6) :
    Turned tok (startTurn tok) := by
  have htoken : ∀ (state : TokenerState) (pos : ℕ) (isDouble : Bool),
      ({ tok.top with state := state } : Srec).Ok →
      ({ tok.top with state := state } : Srec).rank ≤ 5 →
      Turned tok (some (.goOn { tok with
        top := { tok.top with state := state }, pb := [], stPos := pos, isDouble := isDouble })) := by
    intro state pos isDouble hok hle
    refine turned_goOn ⟨hok, h.2⟩ ?_
    unfold work
    dsimp only at hle ⊢
    omega
  unfold startTurn
  dsimp only
  split_ifs
  · exact turned_advance ⟨⟨[], rfl⟩, h.2⟩ le_rfl
  · exact turned_advance ⟨⟨[], rfl⟩, h.2⟩ le_rfl
  · exact htoken .inf _ _ trivial (Nat.zero_le 5)
  · exact htoken .null _ _ trivial (Nat.le_refl 5)
  · exact turned_advance ⟨trivial, h.2⟩ le_rfl
  · exact htoken .boolean _ _ trivial (Nat.le_refl 5)
  · exact htoken .number _ _ trivial (Nat.le_refl 5)
  · exact turned_out _ _ _

/-- Back to the state that has been saved. -/
theorem Srec.Ok.saved (h : level.Ok) (hnext : level.next = level.savedState) :
    ({ level with state := level.savedState } : Srec).Ok := by
  refine h.of_next ?_ rfl rfl
  rw [hnext]
  rcases level with ⟨state, saved, v, name⟩
  cases saved <;> rfl

theorem Srec.Ok.rank_saved (h : level.Ok) (hstate : level.state = .eatws) :
    ({ level with state := level.savedState } : Srec).rank < level.rank := by
  rcases level with ⟨state, saved, v, name⟩
  cases hstate
  cases saved <;> first | exact absurd h id | exact Nat.lt_succ_self _

theorem turned_stringEscapeTurn (h : Shape tok) (hstate : tok.top.state = .stringEscape) :
    Turned tok (stringEscapeTurn tok) := by
  have hnext : tok.top.next = tok.top.savedState := by simp [Srec.next, hstate]
  have happend : ∀ x, Turned tok (advanceChar { tok with
      pb := tok.pb ++ [x], top := { tok.top with state := tok.top.savedState } }) := by
    intro x
    exact turned_advance ⟨h.1.saved hnext, h.2⟩ le_rfl
  have hunicode : ({ tok.top with state := .escapeUnicode } : Srec).Ok :=
    h.1.of_next hnext.symm rfl rfl
  unfold stringEscapeTurn
  dsimp only
  split_ifs
  any_goals exact happend _
  · exact turned_advance ⟨hunicode, h.2⟩ le_rfl
  · exact turned_out _ _ _

theorem turned_escapeUnicode (h : Shape tok) (hstate : tok.top.state = .escapeUnicode)
    {str pb : Text} (hlen : str.length < tok.str.length) :
    Turned tok (some (.goOn { tok with
      str := str, pb := pb, top := { tok.top with state := tok.top.savedState } })) := by
  have hnext : tok.top.next = tok.top.savedState := by simp [Srec.next, hstate]
  refine turned_goOn ⟨h.1.saved hnext, h.2⟩ ?_
  have hlt : 10 * str.length + 9 < work tok := by
    have hge := le_work tok
    omega
  exact Nat.lt_of_le_of_lt (work_le _) hlt

/-- An array is open on the level. -/
theorem Srec.Ok.elems (h : level.Ok) (hstate : level.state = .array ∨
      level.state = .arrayAfterSep ∨ level.state = .arrayAdd ∨ level.state = .arraySep) :
    ∃ elems, level.current = .array elems := by
  rcases hstate with hstate | hstate | hstate | hstate <;>
    simpa [Srec.Ok, Srec.next, hstate] using h

/-- An object is open on the level. -/
theorem Srec.Ok.members (h : level.Ok) (hstate : level.state = .objectFieldStart ∨
      level.state = .objectFieldStartAfterSep ∨ level.state = .objectField ∨
      level.state = .objectSep) : ∃ members, level.current = .object members := by
  rcases hstate with hstate | hstate | hstate | hstate <;>
    simpa [Srec.Ok, Srec.next, hstate] using h

/-- A member of an object is open on the level, and its name is known. -/
theorem Srec.Ok.member (h : level.Ok) (hstate : level.state = .objectFieldEnd ∨
      level.state = .objectValue ∨ level.state = .objectValueAdd) :
    ∃ members name, level.current = .object members ∧ level.objFieldName = some name := by
  rcases hstate with hstate | hstate | hstate <;>
    simpa [Srec.Ok, Srec.next, hstate] using h

/-- Every turn is defined. -/
theorem turned_turn (h : Shape tok) : Turned tok (turn tok) := by
  have hok := h.1
  unfold turn
  cases hstate : tok.top.state with
  | eatws =>
    dsimp only
    have hlen := length_dropWhile_le isSpace tok.str
    have hnext : tok.top.next = tok.top.savedState := by simp [Srec.next, hstate]
    split
    · exact turned_advance ⟨h.1.of_next hnext.symm rfl rfl, h.2⟩ hlen
    · refine turned_goOn ⟨h.1.saved hnext, h.2⟩ ?_
      -- a character may not be taken here, so the rank has to fall
      exact Nat.add_lt_add_of_le_of_lt (Nat.mul_le_mul_left 10 hlen) (hok.rank_saved hstate)
  | start => exact turned_startTurn h (by simp [Srec.rank, hstate, TokenerState.rank])
  | finish =>
    dsimp only
    split
    · exact turned_out _ _ _
    · rename_i level below hbelow
      rcases h.2 level (by rw [hbelow]; exact List.mem_cons_self) with ⟨hwaits, hok'⟩
      -- the level below waits with rank 2, one less than this one
      refine turned_goOn
        ⟨hok', fun l hl => h.2 l (by rw [hbelow]; exact List.mem_cons_of_mem _ hl)⟩ ?_
      rcases hwaits with hwaits | hwaits <;>
        simp [work, Srec.rank, hstate, hwaits, TokenerState.rank]
  | inf =>
    dsimp only
    split
    · exact turned_out _ _ _
    · rename_i str hword
      have hlen := wordLoop_length (by decide) hword
      have hlt : str.length < tok.str.length := by
        rw [← hlen]
        exact Nat.lt_add_of_pos_right (by decide)
      exact turned_read h rfl rfl hlt.le (.inr hlt)
  | null => exact turned_wordTurn h (by simp [Srec.rank, hstate, TokenerState.rank]) _ _ _ _ _
  | boolean => exact turned_wordTurn h (by simp [Srec.rank, hstate, TokenerState.rank]) _ _ _ _ _
  | number => exact turned_numberTurn h (by simp [Srec.rank, hstate, TokenerState.rank])
  | string => exact turned_stringTurn h trivial fun pb => trivial
  | stringEscape => exact turned_stringEscapeTurn h hstate
  | escapeUnicode =>
    dsimp only
    split
    · exact turned_out _ _ _
    · rename_i pb str hloop
      exact turned_escapeUnicode h hstate (escapeUnicodeLoop_length hloop)
  | commentStart =>
    dsimp only
    have hnext : tok.top.next = tok.top.savedState := by simp [Srec.next, hstate]
    split_ifs
    · exact turned_advance ⟨h.1.of_next hnext.symm rfl rfl, h.2⟩ le_rfl
    · exact turned_advance ⟨h.1.of_next hnext.symm rfl rfl, h.2⟩ le_rfl
    · exact turned_out _ _ _
  | comment =>
    dsimp only
    have hnext : tok.top.next = tok.top.savedState := by simp [Srec.next, hstate]
    split
    · exact turned_advance ⟨h.1.of_next hnext.symm rfl rfl, h.2⟩ (length_dropWhile_le _ _)
    · exact turned_out _ _ _
  | commentEol =>
    dsimp only
    have hnext : tok.top.next = tok.top.savedState := by simp [Srec.next, hstate]
    split
    · exact turned_advance ⟨h.1.of_next hnext.symm rfl rfl, h.2⟩ (length_dropWhile_le _ _)
    · exact turned_out _ _ _
  | commentEnd =>
    dsimp only
    have hnext : tok.top.next = tok.top.savedState := by simp [Srec.next, hstate]
    split
    · exact turned_advance ⟨h.1.of_next hnext.symm rfl rfl, h.2⟩ le_rfl
    · exact turned_advance ⟨h.1.of_next hnext.symm rfl rfl, h.2⟩ le_rfl
  | array | arrayAfterSep =>
    have harray := hok.elems (by simp [hstate])
    dsimp only
    split
    · exact turned_advance ⟨trivial, h.2⟩ le_rfl
    · refine turned_push h ?_ ⟨.inl rfl, harray⟩
      simp [work, Srec.rank, Srec.fresh, hstate, TokenerState.rank]
  | arrayAdd =>
    rcases hok.elems (by simp [hstate]) with ⟨elems, helems⟩
    simp only [helems]
    refine turned_goOn ⟨⟨_, rfl⟩, h.2⟩ ?_
    simp [work, Srec.rank, Srec.eat, hstate, TokenerState.rank]
  | arraySep =>
    have harray := hok.elems (by simp [hstate])
    dsimp only
    split_ifs
    · exact turned_advance ⟨trivial, h.2⟩ le_rfl
    · exact turned_advance ⟨harray, h.2⟩ le_rfl
    · exact turned_out _ _ _
  | objectFieldStart | objectFieldStartAfterSep =>
    have hobject := hok.members (by simp [hstate])
    dsimp only
    split_ifs
    · exact turned_advance ⟨trivial, h.2⟩ le_rfl
    · exact turned_advance ⟨hobject, h.2⟩ le_rfl
    · exact turned_out _ _ _
  | objectField =>
    rcases hok.members (by simp [hstate]) with ⟨members, hmembers⟩
    exact turned_stringTurn h ⟨members, hmembers⟩ fun pb => ⟨members, _, hmembers, rfl⟩
  | objectFieldEnd =>
    have hmember := hok.member (by simp [hstate])
    dsimp only
    split
    · exact turned_advance ⟨hmember, h.2⟩ le_rfl
    · exact turned_out _ _ _
  | objectValue =>
    have hmember := hok.member (by simp [hstate])
    refine turned_push h ?_ ⟨.inr rfl, hmember⟩
    simp [work, Srec.rank, Srec.fresh, hstate, TokenerState.rank]
  | objectValueAdd =>
    rcases hok.member (by simp [hstate]) with ⟨members, name, hmembers, hname⟩
    simp only [hmembers, hname]
    refine turned_goOn ⟨⟨_, rfl⟩, h.2⟩ ?_
    simp [work, Srec.rank, Srec.eat, hstate, TokenerState.rank]
  | objectSep =>
    have hobject := hok.members (by simp [hstate])
    dsimp only
    split_ifs
    · exact turned_advance ⟨trivial, h.2⟩ le_rfl
    · exact turned_advance ⟨hobject, h.2⟩ le_rfl
    · exact turned_out _ _ _

theorem shape_jsonTokenerNew (text : Text) : Shape (jsonTokenerNew text) :=
  ⟨trivial, by simp [jsonTokenerNew]⟩

/-- The tokener comes to its end on every text, and none of its turns is undefined. -/
theorem tokener_returns (text : Text) : ∃ r, jsonTokenerParseVerbose text = some r := by
  unfold jsonTokenerParseVerbose
  split
  · exact ⟨_, rfl⟩
  · have hwork : work (jsonTokenerNew text) < 10 * text.length + 10 :=
      Nat.lt_succ_of_le (work_le _)
    exact Machine.run_isSome (fun tok h => turned_turn h) (shape_jsonTokenerNew text) hwork

end MqttMsgHub
