import Mathlib.Tactic.Ring
import MqttMsgHub.JsonDialect

/-! # The tokener reads its dialect

Every text of the grammar of `JsonDialect` is read, with the value that the grammar gives
it. `Yields` says where the machine comes to from a place in the text, whatever is left in
its printbuf and its other variables; each rule of the grammar is a few turns.

* `yields_value` — a value is read on the level that has been opened for it;
* `parseVerbose_textOf` — so every text of the grammar is accepted.
-/

namespace MqttMsgHub

open Machine (run run_goOn run_out run_cases)

variable {str l l' r pb : Text} {top level : Srec} {below : List Srec}
  {res : TokenerError × Json} {tok : Tokener} {c q : Char} {k : ℕ} {v : Json}

/-! ## Runs from a place in the text -/

/-- From this place and these levels on the machine comes to a result. -/
def Yields (str : Text) (top : Srec) (below : List Srec) (res : TokenerError × Json) : Prop :=
  ∀ tok : Tokener, tok.str = str → tok.top = top → tok.below = below →
    ∃ n, run turn n tok = some res

/-- The machine comes to a result from here. -/
def Ends (tok : Tokener) (res : TokenerError × Json) : Prop := ∃ n, run turn n tok = some res

theorem Ends.goOn {tok' : Tokener} (hturn : turn tok = some (.goOn tok')) (h : Ends tok' res) :
    Ends tok res := by
  rcases h with ⟨n, hn⟩
  exact ⟨n + 1, by rw [run_goOn hturn, hn]⟩

theorem Ends.of_turn_eq {tok' : Tokener} (hturn : turn tok = turn tok') (h : Ends tok' res) :
    Ends tok res := by
  rcases h with ⟨n, hn⟩
  rcases run_cases hn with ⟨m, rfl, hout | ⟨tok₁, hgo, hrun⟩⟩
  · exact ⟨m + 1, run_out (hturn.trans hout)⟩
  · exact ⟨m + 1, by rw [run_goOn (hturn.trans hgo), hrun]⟩

/-- A character is taken. -/
theorem advance_cons (hstr : tok.str = c :: l) (hc : c ≠ '\x00') :
    advanceChar tok = .goOn { tok with str := l } := by
  simp only [advanceChar, hstr, if_neg hc]

theorem peek_cons (c : Char) (l : Text) : peekChar (c :: l) = c := rfl

/-! ## Blanks -/

theorem dropWhile_of_ready (h : Ready l) : l.dropWhile isSpace = l := by
  cases l with
  | nil => rfl
  | cons c l =>
    rw [List.dropWhile_cons_of_neg]
    rw [show isSpace c = false from h.1]
    decide

/-- At the end of blanks the saved state is next. -/
theorem yields_ready (hstate : level.state = .eatws) (hready : Ready l)
    (h : Yields l { level with state := level.savedState } below res) :
    Yields l level below res := by
  intro tok hstr htop hbelow
  have hturn : turn tok = some (.goOn { tok with
      str := l, top := { tok.top with state := tok.top.savedState } }) := by
    simp [turn, hstr, htop, hstate, dropWhile_of_ready hready, hready.2]
  exact Ends.goOn hturn (h _ rfl (by rw [htop]) hbelow)

theorem yields_space (hstate : level.state = .eatws) (hc : isSpace c)
    (h : Yields l level below res) : Yields (c :: l) level below res := by
  intro tok hstr htop hbelow
  have hturn : turn tok = turn { tok with str := l } := by
    simp [turn, hstr, htop, hstate, List.dropWhile_cons_of_pos hc]
  exact Ends.of_turn_eq hturn (h _ rfl htop hbelow)

/-- One step into a comment. -/
theorem yields_commentStart (hstate : level.state = .eatws) {state : TokenerState}
    (hc : c = '*' ∧ state = .comment ∨ c = '/' ∧ state = .commentEol)
    (h : Yields l { level with state := state } below res) :
    Yields ('/' :: c :: l) level below res := by
  intro tok hstr htop hbelow
  -- a slash may start a comment, and the character behind it says of which kind
  have hfirst : turn tok = some (.goOn { tok with
      str := c :: l, top := { tok.top with state := .commentStart } }) := by
    have hblank : ('/' :: c :: l).dropWhile isSpace = '/' :: c :: l := rfl
    simp [turn, hstr, htop, hstate, hblank, peek_cons, advanceChar]
  refine Ends.goOn hfirst ?_
  have hsecond : turn { tok with str := c :: l, top := { tok.top with state := .commentStart } } =
      some (.goOn { tok with str := l, top := { tok.top with state := state } }) := by
    rcases hc with ⟨rfl, rfl⟩ | ⟨rfl, rfl⟩ <;> simp [turn, peek_cons, advanceChar]
  exact Ends.goOn hsecond (h _ rfl (by rw [htop]) hbelow)

/-- Inside of a comment, in front of a star. -/
theorem yields_star (hstate : level.state = .comment)
    (h : Yields l { level with state := .commentEnd } below res) :
    Yields ('*' :: l) level below res := by
  intro tok hstr htop hbelow
  have hturn : turn tok = some (.goOn { tok with
      str := l, top := { tok.top with state := .commentEnd } }) := by
    simp [turn, hstr, htop, hstate, peek_cons, advanceChar]
  exact Ends.goOn hturn (h _ rfl (by rw [htop]) hbelow)

/-- Behind the star. -/
theorem yields_commentEnd {state : TokenerState} (hnul : c ≠ '\x00')
    (hc : c = '/' ∧ state = .eatws ∨ c ≠ '/' ∧ state = .comment)
    (h : Yields l { level with state := state } below res) :
    Yields (c :: l) { level with state := .commentEnd } below res := by
  intro tok hstr htop hbelow
  have hturn : turn tok = some (.goOn { tok with
      str := l, top := { tok.top with state := state } }) := by
    rcases hc with ⟨rfl, rfl⟩ | ⟨hne, rfl⟩
    · simp [turn, hstr, htop, peek_cons, advanceChar]
    · simp [turn, hstr, htop, peek_cons, advanceChar, hne, hnul]
  exact Ends.goOn hturn (h _ rfl (by rw [htop]) hbelow)

theorem yields_inComment (hstate : level.state = .comment) (hstar : c ≠ '*') (hnul : c ≠ '\x00')
    (h : Yields l level below res) : Yields (c :: l) level below res := by
  intro tok hstr htop hbelow
  have hturn : turn tok = turn { tok with str := l } := by
    simp [turn, hstr, htop, hstate, List.dropWhile_cons_of_pos, hstar, hnul]
  exact Ends.of_turn_eq hturn (h _ rfl htop hbelow)

theorem yields_block (hblock : BlockComment l r) (hstate : level.state = .comment)
    (h : Yields r { level with state := .eatws } below res) : Yields l level below res := by
  have hlevel : ({ level with state := .comment } : Srec) = level := by
    rw [← hstate]
  induction hblock with
  | close => exact yields_star hstate (yields_commentEnd (by decide) (.inl ⟨rfl, rfl⟩) h)
  | star hslash hnul _ ih =>
    refine yields_star hstate (yields_commentEnd hnul (.inr ⟨hslash, rfl⟩) ?_)
    rw [hlevel]
    exact ih h
  | skip hstar hnul _ ih => exact yields_inComment hstate hstar hnul (ih h)

theorem yields_line {cs : Text} (hcs : ∀ c ∈ cs, c ≠ '\n' ∧ c ≠ '\x00')
    (hstate : level.state = .commentEol) (h : Yields l { level with state := .eatws } below res) :
    Yields (cs ++ '\n' :: l) level below res := by
  intro tok hstr htop hbelow
  have hskip : (cs ++ '\n' :: l).dropWhile (fun c => c != '\n' && c != '\x00') = '\n' :: l := by
    rw [List.dropWhile_append_of_pos]
    · rfl
    · intro c hc
      simp [hcs c hc]
  have hturn : turn tok = some (.goOn { tok with
      str := l, top := { tok.top with state := .eatws } }) := by
    simp [turn, hstr, htop, hstate, hskip, peek_cons, advanceChar]
  exact Ends.goOn hturn (h _ rfl (by rw [htop]) hbelow)

theorem yields_blanks (hblanks : Blanks l r) (hstate : level.state = .eatws)
    (h : Yields r level below res) : Yields l level below res := by
  have hlevel : ∀ state, ({ ({ level with state := state } : Srec) with state := .eatws } : Srec) =
      level := by
    intro state
    rw [← hstate]
  induction hblanks with
  | nil => exact h
  | space hc _ ih => exact yields_space hstate hc (ih h)
  | block hblock _ ih =>
    refine yields_commentStart hstate (.inl ⟨rfl, rfl⟩) (yields_block hblock rfl ?_)
    rw [hlevel]
    exact ih h
  | line hcs _ ih =>
    refine yields_commentStart hstate (.inr ⟨rfl, rfl⟩) (yields_line hcs rfl ?_)
    rw [hlevel]
    exact ih h

/-! ## Escapes -/

/-- A digit of json-c is a `HEXDIG`. -/
theorem hexValue_iff {c : Char} {x : ℕ} :
    JsonString.hexValue c = some x ↔ isHexChar c = true ∧ jtHexdigit c = x := by
  have hle : ∀ d e : Char, d ≤ e ↔ d.toNat ≤ e.toNat := fun d e => Iff.rfl
  have heq : ∀ d : Char, c = d ↔ c.toNat = d.toNat := fun d => Char.toNat_inj.symm
  have hchars : "0123456789abcdefABCDEF".toList = ['0', '1', '2', '3', '4', '5', '6', '7', '8',
    '9', 'a', 'b', 'c', 'd', 'e', 'f', 'A', 'B', 'C', 'D', 'E', 'F'] := rfl
  simp only [JsonString.hexValue, isHexChar, jtHexdigit, List.contains_iff_mem, hchars,
    List.mem_cons, List.not_mem_nil, or_false, hle, heq, Char.reduceToNat]
  generalize c.toNat = n
  constructor
  · intro h
    by_cases hdigit : 48 ≤ n ∧ n ≤ 57
    · rw [if_pos hdigit, Option.some.injEq] at h
      rw [if_pos hdigit.2]
      omega
    · rw [if_neg hdigit] at h
      have hrange : (97 ≤ n ∧ n ≤ 102 ∧ n - 97 + 10 = x) ∨ (65 ≤ n ∧ n ≤ 70 ∧ n - 65 + 10 = x) := by
        split_ifs at h <;> simp_all
      rw [if_neg (by omega)]
      omega
  · rintro ⟨h, rfl⟩
    split_ifs <;> first | rfl | omega | (rw [Option.some.injEq]; omega)

theorem codeUnit_cases {a b c d : Char} {v : ℕ} (h : JsonString.codeUnit a b c d = some v) :
    isHexChar a ∧ isHexChar b ∧ isHexChar c ∧ isHexChar d ∧
      v = ((jtHexdigit a * 16 + jtHexdigit b) * 16 + jtHexdigit c) * 16 + jtHexdigit d := by
  simp only [JsonString.codeUnit, Option.bind_eq_bind, Option.bind_eq_some_iff, Option.pure_def,
    Option.some.injEq, hexValue_iff] at h
  rcases h with ⟨_, ⟨ha, rfl⟩, _, ⟨hb, rfl⟩, _, ⟨hc, rfl⟩, _, ⟨hd, rfl⟩, rfl⟩
  exact ⟨ha, hb, hc, hd, rfl⟩

/-- Three of four digits. -/
theorem loop_digits {a b c d : Char} {v : ℕ} (h : JsonString.codeUnit a b c d = some v) (r : Text) :
    ∃ n, isHexChar d = true ∧ n + jtHexdigit d * 16 ^ (3 - 3) = v ∧ ∀ hi pb,
      escapeUnicodeLoop (a :: b :: c :: d :: r) hi 0 0 pb =
        escapeUnicodeLoop (d :: r) hi n 3 pb := by
  rcases codeUnit_cases h with ⟨ha, hb, hc, hd, rfl⟩
  refine ⟨((jtHexdigit a * 16 + jtHexdigit b) * 16 + jtHexdigit c) * 16, hd, by ring, ?_⟩
  intro hi pb
  have hsum : 0 + jtHexdigit a * 16 ^ (3 - 0) + jtHexdigit b * 16 ^ (3 - 1) +
      jtHexdigit c * 16 ^ (3 - 2) =
      ((jtHexdigit a * 16 + jtHexdigit b) * 16 + jtHexdigit c) * 16 := by ring
  have hstep : ∀ x str n pos, isHexChar x = true → pos + 1 ≠ 4 →
      escapeUnicodeLoop (x :: str) hi n pos pb =
        escapeUnicodeLoop str hi (n + jtHexdigit x * 16 ^ (3 - pos)) (pos + 1) pb := by
    intro x str n pos hx hpos
    conv_lhs => unfold escapeUnicodeLoop
    rw [if_pos hx]
    exact if_neg hpos
  rw [hstep a _ _ _ ha (by decide), hstep b _ _ _ hb (by decide), hstep c _ _ _ hc (by decide),
    hsum]

theorem isHighSurrogate_iff {v : ℕ} : isHighSurrogate v = true ↔ IsHigh v := by
  simp only [isHighSurrogate, beq_iff_eq, IsHigh]
  omega

theorem isLowSurrogate_iff {v : ℕ} : isLowSurrogate v = true ↔ IsLow v := by
  simp only [isLowSurrogate, beq_iff_eq, IsLow]
  omega

theorem IsHigh.some_ne {v : ℕ} (h : IsHigh v) : some v ≠ some 0 := by
  intro heq
  rw [Option.some.inj heq] at h
  exact absurd h.1 (by decide)

theorem IsHigh.not_low {v : ℕ} (h : IsHigh v) : ¬ IsLow v :=
  fun hlow => absurd (h.2.trans_lt (Nat.lt_of_lt_of_le (by decide) hlow.1)) (lt_irrefl _)

/-- Behind the fourth digit of a code, with the high surrogate in front of it or 0. -/
def codeRead (hi v : ℕ) (pb r : Text) : Except Text (Text × Text) :=
  let paired := hi ≠ 0 ∧ isLowSurrogate v
  let pb := if hi ≠ 0 ∧ ¬ paired then pb ++ utf8ReplacementChar else pb
  let v := if paired then decodeSurrogatePair hi v else v
  if isHighSurrogate v then
    match r with
    | '\\' :: 'u' :: r => escapeUnicodeLoop r v 0 0 pb
    | r => .ok (pb ++ utf8ReplacementChar, r)
  else if isLowSurrogate v then .ok (pb ++ utf8ReplacementChar, r)
  else .ok (pb ++ unescapedUtf v, r)

theorem escapeUnicodeLoop_code {a b c d : Char} {v : ℕ}
    (h : JsonString.codeUnit a b c d = some v) (hi : ℕ) (pb r : Text) :
    escapeUnicodeLoop (a :: b :: c :: d :: r) hi 0 0 pb = codeRead hi v pb r := by
  rcases loop_digits h r with ⟨n, hd, rfl, hloop⟩
  rw [hloop]
  conv_lhs => unfold escapeUnicodeLoop
  rw [if_pos hd]
  exact if_pos rfl

/-- A code behind a high surrogate is read as the code that the two make. -/
theorem codeRead_joins {hi : Option ℕ} {v p : ℕ} (h : Joins hi v p s) (hhi : hi ≠ some 0)
    (pb r : Text) : codeRead (hi.getD 0) v pb r = codeRead 0 p (pb ++ s) r := by
  cases h with
  | alone => simp
  | @pair w v hlow =>
    have hne : w ≠ 0 := fun h => hhi (congrArg some h)
    simp [codeRead, hne, isLowSurrogate_iff.mpr hlow]
  | @other w _ hlow =>
    have hne : w ≠ 0 := fun h => hhi (congrArg some h)
    simp [codeRead, hne, Bool.eq_false_iff.mpr (mt isLowSurrogate_iff.mp hlow)]

section
variable {v : ℕ} (pb r : Text)

theorem codeRead_char (hhigh : ¬ IsHigh v) (hlow : ¬ IsLow v) :
    codeRead 0 v pb r = .ok (pb ++ unescapedUtf v, r) := by
  simp [codeRead, Bool.eq_false_iff.mpr (mt isHighSurrogate_iff.mp hhigh),
    Bool.eq_false_iff.mpr (mt isLowSurrogate_iff.mp hlow)]

theorem codeRead_low (hlow : IsLow v) :
    codeRead 0 v pb r = .ok (pb ++ utf8ReplacementChar, r) := by
  have hhigh : ¬ IsHigh v := fun h => h.not_low hlow
  simp [codeRead, Bool.eq_false_iff.mpr (mt isHighSurrogate_iff.mp hhigh),
    isLowSurrogate_iff.mpr hlow]

theorem codeRead_high (hhigh : IsHigh v) (hnot : ∀ l, r ≠ '\\' :: 'u' :: l) :
    codeRead 0 v pb r = .ok (pb ++ utf8ReplacementChar, r) := by
  unfold codeRead
  simp only [ne_eq, not_true_eq_false, false_and, if_false, isHighSurrogate_iff.mpr hhigh, if_true]

theorem codeRead_next (hhigh : IsHigh v) :
    codeRead 0 v pb ('\\' :: 'u' :: r) = escapeUnicodeLoop r v 0 0 pb := by
  simp [codeRead, isHighSurrogate_iff.mpr hhigh]

end

/-- The machine reads the code of a character. -/
theorem escapeUnicodeLoop_unicode {hi : Option ℕ} (h : Unicode hi l u r) (hhi : hi ≠ some 0)
    (pb : Text) : escapeUnicodeLoop l (hi.getD 0) 0 0 pb = .ok (pb ++ u, r) := by
  induction h generalizing pb with
  | char hcode hjoins hhigh hlow =>
    rw [escapeUnicodeLoop_code hcode, codeRead_joins hjoins hhi, codeRead_char _ _ hhigh hlow,
      List.append_assoc]
  | low hcode hjoins hlow =>
    rw [escapeUnicodeLoop_code hcode, codeRead_joins hjoins hhi, codeRead_low _ _ hlow,
      List.append_assoc]
  | high hcode hjoins hhigh hnot =>
    rw [escapeUnicodeLoop_code hcode, codeRead_joins hjoins hhi, codeRead_high _ _ hhigh hnot,
      List.append_assoc]
  | @next a b c d hi v p l s s' r hcode hjoins hhigh _ ih =>
    rw [escapeUnicodeLoop_code hcode, codeRead_joins hjoins hhi, codeRead_next _ _ hhigh]
    -- the rest is read behind the code, which waits for its other half
    calc escapeUnicodeLoop l p 0 0 (pb ++ s)
        = .ok (pb ++ s ++ s', r) := ih hhigh.some_ne (pb ++ s)
      _ = .ok (pb ++ (s ++ s'), r) := by rw [List.append_assoc]

/-! ## Strings -/

/-- How the two states that read a string go on behind the closing quote. -/
structure Closes (state : TokenerState) (close : Srec → Text → Srec) : Prop where
  turn_eq : ∀ tok : Tokener, tok.top.state = state →
    turn tok = stringTurn tok state (close tok.top)
  close_eq : ∀ (level : Srec) (a b : TokenerState) (pb : Text),
    close { level with state := a, savedState := b } pb = close level pb

theorem closes_string : Closes .string fun level pb => level.read (.string pb) where
  turn_eq := fun tok hstate => by simp only [turn, hstate]
  close_eq := fun _ _ _ _ => rfl

theorem closes_objectField : Closes .objectField fun level pb =>
    { level.eat .objectFieldEnd with objFieldName := some (upToNul pb) } where
  turn_eq := fun tok hstate => by simp only [turn, hstate]
  close_eq := fun _ _ _ _ => rfl

/-- The characters that a string may not hold as they are. -/
def stopsString (q c : Char) : Bool := c == q || c == '\\' || c == '\x00'

theorem stringTurn_eq (tok : Tokener) (state : TokenerState) (close : Text → Srec) :
    stringTurn tok state close =
      let str := tok.str.dropWhile fun c => !stopsString tok.quoteChar c
      let pb := tok.pb ++ tok.str.takeWhile fun c => !stopsString tok.quoteChar c
      if peekChar str = tok.quoteChar then
        advanceChar { tok with str := str, pb := pb, top := close pb }
      else if peekChar str = '\\' then
        advanceChar { tok with
          str := str, pb := pb,
          top := { tok.top with savedState := state, state := .stringEscape } }
      else out { tok with str := str, pb := pb } .success := rfl

variable {state : TokenerState} {close : Srec → Text → Srec}

/-- What the machine does at the escapes of one character. -/
theorem stringEscapeTurn_unescape {e x : Char} (he : JsonString.unescape e = some x)
    (hstr : tok.str = e :: l) :
    stringEscapeTurn tok = .goOn { tok with
      str := l, pb := tok.pb ++ [x], top := { tok.top with state := tok.top.savedState } } := by
  unfold JsonString.unescape at he
  split at he
  all_goals
    simp only [Option.some.injEq, reduceCtorEq] at he
  all_goals
    subst he
    simp [stringEscapeTurn, hstr, peek_cons, advanceChar]

/-- A string is read up to its closing quote. -/
theorem ends_quoted (hcloses : Closes state close) (hq : IsQuote q) (h : Quoted q l pb r)
    (hstr : tok.str = l) (hquote : tok.quoteChar = q) (hstate : tok.top.state = state)
    (hrest : Yields r (close tok.top (tok.pb ++ pb)) tok.below res) : Ends tok res := by
  have hnul : q ≠ '\x00' := by rcases hq with rfl | rfl <;> decide
  have hslash : q ≠ '\\' := by rcases hq with rfl | rfl <;> decide
  -- a backslash leads to the escapes
  have hbackslash : ∀ {tok : Tokener} (l : Text), tok.str = '\\' :: l → tok.quoteChar = q →
      tok.top.state = state → turn tok = some (.goOn { tok with
        str := l, top := { tok.top with savedState := state, state := .stringEscape } }) := by
    intro tok l hstr hquote hstate
    rw [hcloses.turn_eq tok hstate, stringTurn_eq]
    simp [hstr, hquote, stopsString, peek_cons, advanceChar, Ne.symm hslash]
  -- by induction on the literal; the printbuf of the machine holds what has been read of it
  induction h generalizing tok with
  | @close r =>
    have hturn : turn tok = some (.goOn { tok with str := r, top := close tok.top tok.pb }) := by
      rw [hcloses.turn_eq tok hstate, stringTurn_eq]
      simp [hstr, hquote, stopsString, peek_cons, advanceChar, hnul]
    rw [List.append_nil] at hrest
    exact Ends.goOn hturn (hrest _ rfl rfl rfl)
  | @plain c l s r hc hback hzero _ ih =>
    have hturn : turn tok = turn { tok with str := l, pb := tok.pb ++ [c] } := by
      rw [hcloses.turn_eq tok hstate,
        hcloses.turn_eq { tok with str := l, pb := tok.pb ++ [c] } hstate, stringTurn_eq,
        stringTurn_eq]
      simp [hstr, hquote, stopsString, hc, hback, hzero]
    -- the machine reads all such characters in one turn, also without this one
    refine Ends.of_turn_eq hturn (ih rfl hquote hstate ?_)
    simpa using hrest
  | @escape e x l s r he _ ih =>
    have hescape : ∀ tok : Tokener, tok.str = e :: l → tok.top.state = .stringEscape →
        turn tok = some (.goOn { tok with
          str := l, pb := tok.pb ++ [x],
          top := { tok.top with state := tok.top.savedState } }) := by
      intro tok hstr hstate
      simp only [turn, hstate, stringEscapeTurn_unescape he hstr]
    refine Ends.goOn (hbackslash (e :: l) hstr hquote hstate)
      (Ends.goOn (hescape _ rfl rfl) (ih ?_ ?_ ?_ ?_))
    · rfl
    · exact hquote
    · rfl
    · rw [hcloses.close_eq, hcloses.close_eq]
      simpa using hrest
  | @unicode l l' u s r hu _ ih =>
    have hcode : ∀ tok : Tokener, tok.str = 'u' :: l → tok.top.state = .stringEscape →
        turn tok = some (.goOn { tok with
          str := l, ucsChar := 0, stPos := 0,
          top := { tok.top with state := .escapeUnicode } }) := by
      intro tok hstr hstate
      simp [turn, hstate, stringEscapeTurn, hstr, peek_cons, advanceChar]
    have hloop : ∀ tok : Tokener, tok.str = l → tok.ucsChar = 0 → tok.stPos = 0 →
        tok.top.state = .escapeUnicode → turn tok = some (.goOn { tok with
          str := l', pb := tok.pb ++ u, top := { tok.top with state := tok.top.savedState } }) := by
      intro tok hstr hucs hpos hstate
      have hread : escapeUnicodeLoop l 0 0 0 tok.pb = .ok (tok.pb ++ u, l') :=
        escapeUnicodeLoop_unicode hu (by simp) tok.pb
      simp only [turn, hstate, hstr, hucs, hpos, hread]
    refine Ends.goOn (hbackslash ('u' :: l) hstr hquote hstate) (Ends.goOn (hcode _ rfl rfl)
      (Ends.goOn (hloop _ rfl rfl rfl rfl) (ih ?_ ?_ ?_ ?_)))
    · rfl
    · exact hquote
    · rfl
    · rw [hcloses.close_eq, hcloses.close_eq, hcloses.close_eq]
      simpa using hrest

/-! ## Words -/

/-- A text with its letters in lower case. -/
def lower (s : Text) : Text := s.map Char.toLower

theorem strncasecmpEq_iff {s t : Text} {n : ℕ} :
    strncasecmpEq s t n = true ↔ (lower s).take n = (lower t).take n := by
  simp only [strncasecmpEq, stringEqualsIgnoreCase, lower, beq_iff_eq, List.map_take]

variable {w w₁ w₂ : Text} {v₁ v₂ : Json} {err : TokenerError}

/-- Another character of a word. -/
theorem wordTurn_more (h : strncasecmpEq w₁ (tok.pb ++ [peekChar tok.str])
        (min (tok.stPos + 1) w₁.length) = true ∧ tok.stPos ≠ w₁.length ∨
      strncasecmpEq w₁ (tok.pb ++ [peekChar tok.str]) (min (tok.stPos + 1) w₁.length) = false ∧
        strncasecmpEq w₂ (tok.pb ++ [peekChar tok.str]) (min (tok.stPos + 1) w₂.length) = true ∧
        tok.stPos ≠ w₂.length) :
    wordTurn tok w₁ v₁ w₂ v₂ err =
      advanceChar { tok with pb := tok.pb ++ [peekChar tok.str], stPos := tok.stPos + 1 } := by
  unfold wordTurn
  rcases h with ⟨h₁, hne⟩ | ⟨h₁, h₂, hne⟩
  · simp [h₁, hne]
  · simp [h₁, h₂, hne]

/-- What the machine needs to know of its two words to find one of them. -/
inductive Finds (w₁ : Text) (v₁ : Json) (w₂ : Text) (v₂ : Json) : Text → Json → Prop where
  | first : Finds w₁ v₁ w₂ v₂ w₁ v₁
  | second : ¬ lower w₁ <+: lower w₂ → ¬ lower w₂ <+: lower w₁ → Finds w₁ v₁ w₂ v₂ w₂ v₂

theorem lower_append (s t : Text) : lower (s ++ t) = lower s ++ lower t := List.map_append

theorem length_lower (s : Text) : (lower s).length = s.length := List.length_map _

/-- A start of a word is no mismatch. -/
theorem strncasecmpEq_of_prefix {s t : Text} (h : lower t <+: lower s) :
    strncasecmpEq s t (min t.length s.length) = true := by
  rw [strncasecmpEq_iff, ← length_lower t]
  rcases h with ⟨u, hu⟩
  rw [← hu]
  have hle : min (lower t).length s.length ≤ (lower t).length := Nat.min_le_left _ _
  rw [List.take_append_of_le_length hle]

/-- Texts without mismatch: one is a start of the other. -/
theorem prefix_of_strncasecmpEq {s t : Text}
    (h : strncasecmpEq s t (min t.length s.length) = true) :
    lower s <+: lower t ∨ lower t <+: lower s := by
  rw [strncasecmpEq_iff] at h
  rcases Nat.le_total s.length t.length with hle | hle
  · left
    rw [Nat.min_eq_right hle, ← length_lower s, List.take_length] at h
    rw [h]
    exact List.take_prefix _ _
  · right
    rw [Nat.min_eq_left hle, ← length_lower t, List.take_length] at h
    rw [← h]
    exact List.take_prefix _ _

/-- The rest of a word is read. -/
theorem ends_word (hfinds : Finds w₁ v₁ w₂ v₂ w v) (hnul : '\x00' ∉ lower w) {s : Text}
    (hturn : ∀ tok : Tokener, tok.top.state = state →
      turn tok = some (wordTurn tok w₁ v₁ w₂ v₂ err))
    (hstate : tok.top.state = state) (hpos : tok.stPos = tok.pb.length) (hstr : tok.str = s ++ r)
    (hword : lower (tok.pb ++ s) = lower w) (hrest : Yields r (tok.top.read v) tok.below res) :
    Ends tok res := by
  have hlength : ∀ {tok : Tokener} {c : Char}, tok.pb.length + 1 = (tok.pb ++ [c]).length := by
    intro tok c
    rw [List.length_append, List.length_singleton]
  -- by induction on what is left of the word
  induction s generalizing tok with
  | nil =>
    rw [List.append_nil] at hword
    have hlen : tok.pb.length = w.length := by
      rw [← length_lower, hword, length_lower]
    -- the word is read as soon as the character behind it is there
    have hdone : wordTurn tok w₁ v₁ w₂ v₂ err =
        .goOn { tok with pb := tok.pb ++ [peekChar tok.str], top := tok.top.read v } := by
      have hfull : ∀ c, strncasecmpEq w (tok.pb ++ [c]) (min (tok.stPos + 1) w.length) = true := by
        intro c
        rw [hpos, hlen, Nat.min_eq_right (Nat.le_succ _), strncasecmpEq_iff, lower_append, hword,
          ← length_lower w, List.take_left, List.take_length]
      cases hfinds with
      | first =>
        unfold wordTurn
        dsimp only
        rw [if_pos (hfull _), if_pos (hpos.trans hlen)]
      | second h₁ h₂ =>
        have hnot : strncasecmpEq w₁ (tok.pb ++ [peekChar tok.str])
            (min (tok.stPos + 1) w₁.length) = false := by
          rw [Bool.eq_false_iff]
          intro htrue
          have hstart : lower w <+: lower (tok.pb ++ [peekChar tok.str]) := by
            rw [lower_append, hword]
            exact List.prefix_append _ _
          rw [hpos, hlength] at htrue
          -- the first word would start the second one, or the other way round
          rcases prefix_of_strncasecmpEq htrue with h | h
          · rcases List.prefix_or_prefix_of_prefix h hstart with h | h
            · exact h₁ h
            · exact h₂ h
          · exact h₂ (hstart.trans h)
        unfold wordTurn
        dsimp only
        rw [hnot, if_neg Bool.false_ne_true, if_pos (hfull _), if_pos (hpos.trans hlen)]
    exact Ends.goOn ((hturn tok hstate).trans (congrArg some hdone))
      (hrest _ (by simpa using hstr) rfl rfl)
  | cons c s ih =>
    have hstart : lower (tok.pb ++ [c]) <+: lower w := by
      rw [← hword, List.append_cons tok.pb c s, lower_append (tok.pb ++ [c])]
      exact List.prefix_append _ _
    have hlt : tok.pb.length < w.length := by
      have hle := hstart.length_le
      rw [length_lower, length_lower, List.length_append, List.length_singleton] at hle
      exact hle
    have hmore : wordTurn tok w₁ v₁ w₂ v₂ err =
        advanceChar { tok with pb := tok.pb ++ [c], stPos := tok.stPos + 1 } := by
      have hpeek : peekChar tok.str = c := by rw [hstr]; rfl
      have hpart := strncasecmpEq_of_prefix hstart
      rw [← hlength, ← hpos] at hpart
      have hne : tok.stPos ≠ w.length := by omega
      rw [← hpeek] at hpart ⊢
      apply wordTurn_more
      cases hfinds with
      | first => exact .inl ⟨hpart, hne⟩
      | second h₁ h₂ =>
        rcases Bool.eq_false_or_eq_true (strncasecmpEq w₁ (tok.pb ++ [peekChar tok.str])
          (min (tok.stPos + 1) w₁.length)) with hfirst | hfirst
        · refine .inl ⟨hfirst, ?_⟩
          -- the first word is not read here, or it would start the second
          intro hall
          rw [hpeek, hpos, hlength] at hfirst
          rcases prefix_of_strncasecmpEq hfirst with h | h
          · exact h₁ (h.trans hstart)
          · have hle := h.length_le
            rw [length_lower, length_lower, ← hlength, ← hpos, hall] at hle
            omega
        · exact .inr ⟨hfirst, hpart, hne⟩
    have hc : c ≠ '\x00' := by
      rintro rfl
      apply hnul
      rw [← hword, lower_append]
      exact List.mem_append_right _ List.mem_cons_self
    refine Ends.goOn ((hturn tok hstate).trans (congrArg some (hmore.trans (advance_cons hstr hc))))
      (ih hstate ?_ rfl ?_ hrest)
    · simp [hpos]
    · simpa using hword

/-- The word of an infinite number. -/
theorem wordLoop_append {w s : Text} (hword : lower s = w) (r : Text) :
    wordLoop w (s ++ r) = .ok r := by
  induction s generalizing w with
  | nil => simp [← hword, lower, wordLoop]
  | cons c s ih =>
    subst hword
    show (if (peekChar (c :: (s ++ r))).toLower = c.toLower then _ else _) = _
    rw [peek_cons, if_pos rfl]
    exact ih rfl

/-! ## Numbers -/

/-- The variables of the loop behind the characters `a` of a number. -/
structure Scanned (a : Text) (minus : ℕ) (isExponent isDouble : Bool) : Prop where
  exponent : isExponent = true ↔ ∃ c ∈ a, IsExponent c
  double : isDouble = true ↔ Fractional a
  minus_le : minus ≤ a.length + 1
  minus_iff : minus = a.length + 1 ↔ a = [] ∨ ∃ e ∈ a.getLast?, IsExponent e

theorem scanned_nil : Scanned [] 1 false false where
  exponent := by simp
  double := by simp [Fractional]
  minus_le := le_rfl
  minus_iff := by simp

variable {a b t : Text} {minus : ℕ} {isExponent isDouble : Bool}

/-- The tokener's test for an exponent. -/
theorem isExponent_iff : (c == 'e' || c == 'E') = true ↔ IsExponent c := by
  simp [IsExponent]

theorem isNumberChar_of_isDigit (h : c.isDigit) : isNumberChar c = true := by
  have heq : ∀ d : Char, c = d ↔ c.toNat = d.toNat := fun d => Char.toNat_inj.symm
  have hchars : "0123456789.+-eE".toList = ['0', '1', '2', '3', '4', '5', '6', '7', '8', '9', '.',
    '+', '-', 'e', 'E'] := rfl
  have hrange : 48 ≤ c.toNat ∧ c.toNat ≤ 57 := by
    simp only [Char.isDigit, Bool.and_eq_true, decide_eq_true_eq] at h
    exact ⟨h.1, h.2⟩
  simp only [isNumberChar, List.contains_iff_mem, hchars, List.mem_cons, heq, Char.reduceToNat]
  omega

/-- A digit or a sign is no point and starts no exponent. -/
theorem whole_of_digit (h : c.isDigit ∨ c = '-') : c ≠ '.' ∧ ¬ IsExponent c := by
  rcases h with h | rfl
  · refine ⟨?_, ?_⟩
    · rintro rfl
      exact absurd h (by decide)
    · rintro (rfl | rfl) <;> exact absurd h (by decide)
  · exact ⟨by decide, by unfold IsExponent; decide⟩

/-- Behind a sign there is a digit. -/
theorem unsigned_number {sign : Text} (hsign : sign = [] ∨ sign = ['-']) (hc : c.isDigit) (t : Text) :
    unsigned (sign ++ c :: t) = c :: t ∧ (sign ++ c :: t).dropWhile isSpace = sign ++ c :: t := by
  rcases hsign with rfl | rfl
  · refine ⟨if_neg ?_, dropWhile_isSpace_of_digit hc⟩
    rintro (h | h) <;>
    · rw [List.nil_append, List.head?_cons, Option.some.injEq] at h
      rw [h] at hc
      exact absurd hc (by decide)
  · exact ⟨rfl, rfl⟩

theorem Scanned.snoc (h : Scanned a minus isExponent isDouble) (c : Char) :
    Scanned (a ++ [c]) (if c == 'e' || c == 'E' then a.length + 2 else minus)
      (isExponent || (c == 'e' || c == 'E')) (isDouble || c == '.' || (c == 'e' || c == 'E')) where
  exponent := by
    rw [Bool.or_eq_true, h.exponent, isExponent_iff]
    simp [or_and_right, exists_or]
  double := by
    rw [Bool.or_eq_true, Bool.or_eq_true, h.double, isExponent_iff, beq_iff_eq]
    simp only [Fractional, List.mem_append, List.mem_singleton, or_and_right, exists_or,
      exists_eq_left]
    have hpoint : c = '.' ↔ '.' = c := eq_comm
    rw [hpoint, or_assoc, or_or_or_comm]
  minus_le := by
    have hle := h.minus_le
    rw [List.length_append, List.length_singleton]
    split <;> omega
  minus_iff := by
    have hle := h.minus_le
    simp only [List.length_append, List.length_singleton, List.getLast?_append,
      List.append_eq_nil_iff]
    by_cases he : (c == 'e' || c == 'E') = true
    · simp [he, isExponent_iff.mp he]
    · have hne : ¬ IsExponent c := fun h => he (isExponent_iff.mpr h)
      simp [he, hne]
      omega

/-- One character of a number. -/
theorem numberLoop_cons_iff (h : Scanned a minus isExponent isDouble) (hc : isNumberChar c)
    {str : Text} {x : Bool × Text} :
    numberLoop (c :: str) a.length minus isExponent isDouble = some x ↔
      MayFollow a c ∧
        numberLoop str (a ++ [c]).length (if c == 'e' || c == 'E' then a.length + 2 else minus)
          (isExponent || (c == 'e' || c == 'E'))
          (isDouble || c == '.' || (c == 'e' || c == 'E')) = some x := by
  have hfirst : (c == '.' && isDouble || (c == 'e' || c == 'E') && isExponent) = true ↔
      ¬ ((c = '.' → ¬ Fractional a) ∧ (IsExponent c → ∀ d ∈ a, ¬ IsExponent d)) := by
    rw [Bool.or_eq_true, Bool.and_eq_true, Bool.and_eq_true, beq_iff_eq, isExponent_iff, h.double,
      h.exponent, not_and_or]
    push Not
    rfl
  have hminus : (c == '-' && a.length + 1 != (if c == 'e' || c == 'E' then a.length + 2 else minus))
      = true ↔ ¬ (c = '-' → a = [] ∨ ∃ e ∈ a.getLast?, IsExponent e) := by
    rw [← h.minus_iff, Bool.and_eq_true, beq_iff_eq, bne_iff_ne, Classical.not_imp]
    refine and_congr_right ?_
    rintro rfl
    exact not_congr eq_comm
  rw [List.length_append, List.length_singleton]
  conv_lhs => unfold numberLoop
  rw [if_pos hc]
  dsimp only
  -- the two checks of the loop, one after the other
  by_cases hone : (c = '.' → ¬ Fractional a) ∧ (IsExponent c → ∀ d ∈ a, ¬ IsExponent d)
  · rw [if_neg (fun ht => hfirst.mp ht hone)]
    by_cases htwo : c = '-' → a = [] ∨ ∃ e ∈ a.getLast?, IsExponent e
    · rw [if_neg (fun ht => hminus.mp ht htwo)]
      exact ⟨fun hx => ⟨⟨hone.1, hone.2, htwo⟩, hx⟩, fun hx => hx.2⟩
    · rw [if_pos (hminus.mpr htwo)]
      exact ⟨fun hx => by simp at hx, fun hx => absurd hx.1.minus htwo⟩
  · rw [if_pos (hfirst.mpr hone)]
    exact ⟨fun hx => by simp at hx, fun hx => absurd ⟨hx.1.point, hx.1.exponent⟩ hone⟩

theorem numberLoop_append (h : Scanned a minus isExponent isDouble)
    (hchars : ∀ c ∈ b, isNumberChar c)
    (hfollow : ∀ a' c b', b = a' ++ c :: b' → MayFollow (a ++ a') c)
    (hend : isNumberChar (peekChar r) = false) :
    ∃ d, numberLoop (b ++ r) a.length minus isExponent isDouble = some (d, r) ∧
      (d = true ↔ Fractional (a ++ b)) := by
  induction b generalizing a minus isExponent isDouble with
  | nil =>
    refine ⟨isDouble, ?_, by rw [List.append_nil]; exact h.double⟩
    cases r with
    | nil => rfl
    | cons c r =>
      conv_lhs => unfold numberLoop
      exact if_neg (by rw [show isNumberChar c = false from hend]; decide)
  | cons c b ih =>
    have hc := hfollow [] c b rfl
    rw [List.append_nil] at hc
    rcases ih (h.snoc c) (fun d hd => hchars d (List.mem_cons_of_mem c hd)) (by
      intro a' d b' hb
      have hd := hfollow (c :: a') d b' (by rw [hb]; rfl)
      rwa [List.append_cons] at hd) with ⟨d, hloop, hd⟩
    refine ⟨d, (numberLoop_cons_iff h (hchars c List.mem_cons_self)).mpr ⟨hc, hloop⟩, ?_⟩
    rwa [← List.append_cons] at hd

theorem Number.shape (h : Number t v) : NumberShape t := by
  cases h <;> assumption

/-- The characters of a number may follow each other. -/
def Follows (t : Text) : Prop := ∀ a c b, t = a ++ c :: b → MayFollow a c

theorem Follows.snoc (h : Follows t) (hc : MayFollow t c) : Follows (t ++ [c]) := by
  intro a d b hb
  cases hlast : b.reverse with
  | nil =>
    rw [List.reverse_eq_nil_iff] at hlast
    subst hlast
    obtain ⟨rfl, hcd⟩ := List.append_inj' hb rfl
    obtain rfl : c = d := (List.cons.inj hcd).1
    exact hc
  | cons e b' =>
    have hb' : b = b'.reverse ++ [e] := by
      rw [← List.reverse_reverse b, hlast, List.reverse_cons]
    rw [hb', ← List.cons_append, ← List.append_assoc] at hb
    exact h a d b'.reverse (List.append_inj' hb rfl).1

/-- Digits may stand anywhere in a number. -/
theorem Follows.digits {ds : Text} (h : Follows t) (hds : ∀ c ∈ ds, c.isDigit) :
    Follows (t ++ ds) := by
  induction ds generalizing t with
  | nil => rwa [List.append_nil]
  | cons c ds ih =>
    have hdigit := hds c List.mem_cons_self
    have hc := whole_of_digit (.inl hdigit)
    have hminus : c ≠ '-' := by
      rintro rfl
      exact absurd hdigit (by decide)
    rw [List.append_cons]
    exact ih (h.snoc ⟨fun h => absurd h hc.1, fun h => absurd h hc.2, fun h => absurd h hminus⟩)
      fun d hd => hds d (List.mem_cons_of_mem c hd)

variable {sign ds : Text}

/-- A sign or none, and a digit. -/
theorem starts_of_sign (hsign : sign = [] ∨ sign = ['-']) (hc : c.isDigit) (t : Text) :
    (sign ++ c :: t).head? = some '-' ∨ ((sign ++ c :: t).headD ' ').isDigit := by
  rcases hsign with rfl | rfl
  · exact .inr hc
  · exact .inl rfl

theorem whole_of_digits (hsign : sign = [] ∨ sign = ['-']) (hds : ∀ c ∈ ds, c.isDigit) :
    ∀ c ∈ sign ++ ds, c.isDigit ∨ c = '-' := by
  intro c hc
  rw [List.mem_append] at hc
  rcases hc with hc | hc
  · rcases hsign with rfl | rfl
    · exact absurd hc List.not_mem_nil
    · exact .inr (List.mem_singleton.mp hc)
  · exact .inl (hds c hc)

/-- Digits with a sign in front are no fraction. -/
theorem not_fractional (h : ∀ c ∈ t, c.isDigit ∨ c = '-') : ¬ Fractional t := by
  rintro (hpoint | ⟨c, hc, hexponent⟩)
  · exact (whole_of_digit (h _ hpoint)).1 rfl
  · exact (whole_of_digit (h c hc)).2 hexponent

theorem follows_sign (hsign : sign = [] ∨ sign = ['-']) : Follows sign := by
  have hnil : Follows [] := fun a c b h => by simp at h
  rcases hsign with rfl | rfl
  · exact hnil
  · exact hnil.snoc ⟨by simp, by simp [IsExponent], fun _ => .inl rfl⟩

/-! ## Scalars -/

/-- A level at the start of its value. -/
def Srec.begun : Srec := { Srec.fresh with state := .start }

/-- A level that has read its value. -/
def Srec.done (v : Json) : Srec := Srec.fresh.read v

/-- A letter in either case. -/
theorem letter_of_toLower {small capital : Char} (h : c.toLower = small)
    (hcapital : capital.toNat + 32 = small.toNat) : c = small ∨ c = capital := by
  unfold Char.toLower at h
  split at h
  · rename_i hrange
    right
    rw [← Char.toNat_inj]
    have hle : c.val.toNat ≤ 90 := hrange.2
    have hsmall : small.toNat = c.toNat + 32 := by
      rw [← h]
      show (c.val + 32).toNat = c.val.toNat + 32
      rw [UInt32.toNat_add]
      show (c.val.toNat + 32) % 4294967296 = c.val.toNat + 32
      omega
    omega
  · exact .inl h

/-- The machine starts on a word or a number. -/
theorem ends_token {s : Text} (state : TokenerState) (hstr : tok.str = c :: s)
    (htop : tok.top = .begun)
    (hc : (c = 'n' ∨ c = 'N') ∧ state = .null ∨ (c = 'i' ∨ c = 'I') ∧ state = .inf ∨
      (c = 't' ∨ c = 'T' ∨ c = 'f' ∨ c = 'F') ∧ state = .boolean)
    (h : Ends { tok with top := { tok.top with state := state }, pb := [], stPos := 0 } res) :
    Ends tok res := by
  have hstart : turn tok = some (startTurn tok) := by
    simp [turn, htop, Srec.begun]
  have hturn : startTurn tok = .goOn
      { tok with top := { tok.top with state := state }, pb := [], stPos := 0 } := by
    rcases hc with ⟨rfl | rfl, rfl⟩ | ⟨rfl | rfl, rfl⟩ | ⟨rfl | rfl | rfl | rfl, rfl⟩ <;>
      simp [startTurn, hstr, peek_cons]
  exact Ends.goOn (hstart.trans (congrArg some hturn)) h

theorem turn_null (tok : Tokener) (h : tok.top.state = .null) : turn tok =
    some (wordTurn tok "null".toList .null "NaN".toList (.double "NaN".toList) .parseNull) := by
  simp only [turn, h]

theorem turn_boolean (tok : Tokener) (h : tok.top.state = .boolean) : turn tok =
    some (wordTurn tok "true".toList (.boolean true) "false".toList (.boolean false)
      .parseBoolean) := by
  simp only [turn, h]

/-- A word of one of the two states is read. -/
theorem yields_word {s : Text} {d : Char}
    (hturn : ∀ tok : Tokener, tok.top.state = state →
      turn tok = some (wordTurn tok w₁ v₁ w₂ v₂ err))
    (hfinds : Finds w₁ v₁ w₂ v₂ w v) (hnul : '\x00' ∉ lower w) (hhead : (lower w).head? = some d)
    (hd : d = 'n' ∧ state = .null ∨ (d = 't' ∨ d = 'f') ∧ state = .boolean)
    (hword : lower s = lower w) (hrest : Yields r (.done v) below res) :
    Yields (s ++ r) .begun below res := by
  intro tok hstr htop hbelow
  cases s with
  | nil =>
    rw [← hword] at hhead
    simp [lower] at hhead
  | cons c s =>
    have hc : c.toLower = d := by
      rw [← hword] at hhead
      simpa [lower] using hhead
    refine ends_token state hstr htop ?_ (ends_word hfinds hnul hturn rfl rfl hstr hword ?_)
    · rcases hd with ⟨rfl, hstate⟩ | ⟨rfl | rfl, hstate⟩
      · exact .inl ⟨letter_of_toLower hc rfl, hstate⟩
      · exact .inr (.inr ⟨(letter_of_toLower hc rfl).imp_right fun h => .inl h, hstate⟩)
      · exact .inr (.inr ⟨.inr (.inr (letter_of_toLower hc rfl)), hstate⟩)
    · rw [htop, hbelow]
      exact hrest

/-- `Infinity`, behind a minus sign or not. -/
theorem ends_infinity {s : Text} (hword : lower s = "infinity".toList) (hstr : tok.str = s ++ r)
    (hstate : tok.top.state = .inf)
    (hrest : Yields r (tok.top.read (.double ((if tok.pb.head? = some '-' then ['-'] else []) ++
      "Infinity".toList))) tok.below res) : Ends tok res := by
  have hturn : turn tok = some (.goOn { tok with
      str := r, top := tok.top.read (.double ((if tok.pb.head? = some '-' then ['-'] else []) ++
        "Infinity".toList)) }) := by
    simp only [turn, hstate, hstr, wordLoop_append hword]
  exact Ends.goOn hturn (hrest _ rfl rfl rfl)

theorem takeWhile_append_of_end (hchars : ∀ c ∈ t, isNumberChar c)
    (hend : isNumberChar (peekChar r) = false) : (t ++ r).takeWhile isNumberChar = t := by
  rw [List.takeWhile_append_of_pos hchars]
  cases r with
  | nil => simp
  | cons c r =>
    rw [List.takeWhile_cons_of_neg, List.append_nil]
    rw [show isNumberChar c = false from hend]
    decide

/-- The machine starts on a number. -/
theorem turn_startNumber (hstr : tok.str = t ++ r) (htop : tok.top = .begun)
    (hstart : t.head? = some '-' ∨ (t.headD ' ').isDigit) :
    turn tok = some (.goOn { tok with
      top := { tok.top with state := .number }, pb := [], isDouble := false }) := by
  have hpeek : (peekChar tok.str).isDigit ∨ peekChar tok.str = '-' := by
    cases t with
    | nil => simp at hstart
    | cons c t =>
      rw [hstr, List.cons_append, peek_cons]
      simpa [or_comm] using hstart
  have hturn : turn tok = some (startTurn tok) := by
    simp [turn, htop, Srec.begun]
  rw [hturn]
  unfold startTurn
  dsimp only
  have hne : ∀ d : Char, d.isDigit = false → d ≠ '-' → peekChar tok.str ≠ d := by
    rintro d hd hminus rfl
    simp [hd, hminus] at hpeek
  simp [hne, hpeek]

theorem ends_number (h : Number t v) (hend : isNumberChar (peekChar r) = false)
    (hstr : tok.str = t ++ r) (hstate : tok.top.state = .number) (hpb : tok.pb = [])
    (hdouble : tok.isDouble = false) (hrest : Yields r (tok.top.read v) tok.below res) :
    Ends tok res := by
  have hshape := h.shape
  rcases numberLoop_append scanned_nil hshape.chars (fun a c b hb => hshape.mayFollow a c b hb) hend
    with ⟨d, hloop, hd⟩
  rw [List.nil_append] at hd
  have htext := takeWhile_append_of_end hshape.chars hend
  have hturn : turn tok = some (numberTurn tok) := by simp only [turn, hstate]
  -- a minus sign alone is no number, so that the turn does not look for `Infinity`
  have hminus : ¬ (t.head? = some '-' ∧ t.length ≤ 1 ∧ (peekChar r = 'i' ∨ peekChar r = 'I')) := by
    rintro ⟨hhead, hlen, -⟩
    obtain rfl : t = ['-'] := by
      cases t with
      | nil => simp at hhead
      | cons c t => simp_all
    cases h with
    | int _ _ hparse => simp [jsonParseInt64, unsigned, isSpace] at hparse
    | double _ hfrac _ => simp [Fractional, IsExponent] at hfrac
  have hread : numberTurn tok = .goOn { tok with
      str := r, pb := t, isDouble := d, top := tok.top.read v } := by
    unfold numberTurn
    rw [hstr, hdouble, show numberLoop (t ++ r) 0 1 false false = some (d, r) from hloop]
    dsimp only
    rw [htext, hpb, List.nil_append, if_neg hminus]
    cases h with
    | int _ hfrac hparse =>
      rw [if_neg (fun ht => hfrac (hd.mp ht)), hparse]
    | double _ hfrac hparse =>
      rw [if_pos (hd.mpr hfrac), if_pos hparse]
  exact Ends.goOn (hturn.trans (congrArg some hread)) (hrest _ rfl rfl rfl)

/-! ## Values -/

/-- The first character of a value is no blank and closes nothing. -/
structure Opens (l : Text) : Prop where
  ready : Ready l
  ne_bracket : peekChar l ≠ ']'

theorem ready_cons (h : isSpace c = false ∧ c ≠ '/') : Ready (c :: l) := h

theorem opens_cons (h : isSpace c = false ∧ c ≠ '/' ∧ c ≠ ']') : Opens (c :: l) :=
  ⟨⟨h.1, h.2.1⟩, h.2.2⟩

theorem opens_letter {small capital : Char} (hc : c = small ∨ c = capital)
    (hsmall : isSpace small = false ∧ small ≠ '/' ∧ small ≠ ']')
    (hcapital : isSpace capital = false ∧ capital ≠ '/' ∧ capital ≠ ']') : Opens (c :: l) := by
  rcases hc with rfl | rfl
  · exact opens_cons hsmall
  · exact opens_cons hcapital

theorem opens_digit (hc : c.isDigit) : Opens (c :: l) := by
  refine ⟨⟨isSpace_of_isDigit hc, ?_⟩, ?_⟩ <;>
  · rintro h
    rw [peek_cons] at h
    rw [h] at hc
    revert hc
    decide

theorem opens_word {s : Text} {small : Char} (capital : Char)
    (hword : (lower s).head? = some small)
    (hcapital : capital.toNat + 32 = small.toNat)
    (h : isSpace small = false ∧ small ≠ '/' ∧ small ≠ ']')
    (h' : isSpace capital = false ∧ capital ≠ '/' ∧ capital ≠ ']') : Opens (s ++ r) := by
  cases s with
  | nil => simp [lower] at hword
  | cons c s =>
    have hc : c.toLower = small := by simpa [lower] using hword
    exact opens_letter (letter_of_toLower hc hcapital) h h'

theorem Number.opens (h : Number t v) : Opens (t ++ r) := by
  have hshape := h.shape
  cases t with
  | nil => have hstart := hshape.start; simp at hstart
  | cons c t =>
    rcases hshape.start with hminus | hdigit
    · obtain rfl : c = '-' := by simpa using hminus
      exact opens_cons (by decide)
    · exact opens_digit hdigit

theorem Value.opens (h : Value k l v r) : Opens l := by
  cases h with
  | null hs => exact opens_word 'N' (by rw [lower, hs]; rfl) rfl (by decide) (by decide)
  | nan hs => exact opens_word 'N' (by rw [lower, hs]; rfl) rfl (by decide) (by decide)
  | infinity hs => exact opens_word 'I' (by rw [lower, hs]; rfl) rfl (by decide) (by decide)
  | true hs => exact opens_word 'T' (by rw [lower, hs]; rfl) rfl (by decide) (by decide)
  | false hs => exact opens_word 'F' (by rw [lower, hs]; rfl) rfl (by decide) (by decide)
  | number hnumber => exact hnumber.opens
  | string hq =>
    rcases hq with rfl | rfl <;> exact opens_cons (by decide)
  | minusInfinity | array | object => exact opens_cons (by decide)

theorem Elements.ready {vs ws : List Json} (h : Elements k vs l ws r) : Ready l := by
  cases h with
  | close => exact ready_cons (by decide)
  | last hv => exact hv.opens.ready
  | next hv => exact hv.opens.ready

theorem ready_quote (hq : IsQuote q) : Ready (q :: l) := by
  rcases hq with rfl | rfl <;> exact ready_cons (by decide)

theorem Members.ready {ms ns : List (Text × Json)} (h : Members k ms l ns r) : Ready l := by
  cases h with
  | close => exact ready_cons (by decide)
  | last hq => exact ready_quote hq
  | next hq => exact ready_quote hq

/-- Where blanks end and a value starts. -/
theorem yields_begun (hblanks : Blanks l l') (hready : Ready l')
    (h : Yields l' .begun below res) : Yields l .fresh below res :=
  yields_blanks hblanks rfl (yields_ready rfl hready h)

/-- A level is opened above this one, which waits for the value. -/
def Pushes (l : Text) (level level' : Srec) : Prop :=
  level.state = .objectValue ∧ level' = { level with state := .objectValueAdd } ∨
    (level.state = .array ∨ level.state = .arrayAfterSep) ∧ peekChar l ≠ ']' ∧
      level' = { level with state := .arrayAdd }

/-- A level that waits gets its value. -/
def Adds (level : Srec) (v : Json) (level' : Srec) : Prop :=
  (∃ elems, level.state = .arrayAdd ∧ level.current = .array elems ∧
      level' = { level.eat .arraySep with current := .array (elems ++ [v]) }) ∨
    ∃ members name, level.state = .objectValueAdd ∧ level.current = .object members ∧
      level.objFieldName = some name ∧ level' = { level.eat .objectSep with
        current := .object (Assoc.set name v members), objFieldName := none }

/-- The turn that opens a level. -/
theorem Pushes.turn_eq {level' : Srec} (h : Pushes l level level') (hstr : tok.str = l)
    (htop : tok.top = level) : turn tok = some (push tok level'.state) := by
  rcases h with ⟨hstate, rfl⟩ | ⟨hstate | hstate, hpeek, rfl⟩
  · simp [turn, htop, hstate]
  · simp [turn, htop, hstate, hstr, hpeek]
  · simp [turn, htop, hstate, hstr, hpeek]

theorem Pushes.level_eq {level' : Srec} (h : Pushes l level level') :
    ({ level with state := level'.state } : Srec) = level' := by
  rcases h with ⟨-, rfl⟩ | ⟨-, -, rfl⟩ <;> rfl

/-- The turn that gives a level its value. -/
theorem Adds.turn_eq {level' : Srec} (h : Adds level v level') (hobj : tok.obj = v)
    (htop : tok.top = level) : turn tok = some (.goOn { tok with top := level' }) := by
  rcases h with ⟨elems, hstate, hcurrent, rfl⟩ | ⟨members, name, hstate, hcurrent, hname, rfl⟩
  · simp [turn, htop, hobj, hstate, hcurrent]
  · simp [turn, htop, hobj, hstate, hcurrent, hname]

theorem Adds.skips {level' : Srec} (h : Adds level v level') :
    level'.state = .eatws ∧ level'.savedState ≠ .finish := by
  rcases h with ⟨elems, -, -, rfl⟩ | ⟨members, name, -, -, -, rfl⟩ <;>
    exact ⟨rfl, by simp [Srec.eat]⟩

/-- The turn that closes the level of a value. -/
theorem turn_done (htop : tok.top = { Srec.done v with state := .finish })
    (hbelow : tok.below = level :: below) :
    turn tok = some (.goOn { tok with obj := v, top := level, below := below }) := by
  simp [turn, htop, hbelow, Srec.done, Srec.read]

/-- A level is opened for a value. -/
theorem yields_push {level' : Srec} (hpushes : Pushes l level level')
    (hdepth : below.length + 1 ≤ 31) (h : Yields l .fresh (level' :: below) res) :
    Yields l level below res := by
  intro tok hstr htop hbelow
  have hturn : turn tok = some (.goOn { tok with below := level' :: below, top := .fresh }) := by
    have hnot : ¬ JSON_TOKENER_DEFAULT_DEPTH - 1 ≤ below.length := by
      unfold JSON_TOKENER_DEFAULT_DEPTH
      omega
    rw [hpushes.turn_eq hstr htop, push, hbelow, if_neg hnot, htop, hpushes.level_eq]
  exact Ends.goOn hturn (h _ hstr rfl rfl)

/-- A value is given to the level that waits for it. -/
theorem yields_pop {level' : Srec} (hblanks : Blanks l l') (hready : Ready l')
    (hadd : Adds level v level')
    (h : Yields l' { level' with state := level'.savedState } below res) :
    Yields l (.done v) (level :: below) res := by
  refine yields_blanks hblanks rfl (yields_ready rfl hready ?_)
  intro tok hstr htop hbelow
  -- one turn closes the level, and the next one gives the value to the level below
  refine Ends.goOn (turn_done htop hbelow) (Ends.goOn (hadd.turn_eq rfl rfl) ?_)
  exact yields_ready hadd.skips.1 hready h _ hstr rfl rfl

/-- An array that is open. -/
def Srec.inArray (state saved : TokenerState) (vs : List Json) : Srec :=
  ⟨state, saved, .array vs, none⟩

/-- An object that is open. -/
def Srec.inObject (state saved : TokenerState) (ms : List (Text × Json)) (name : Option Text) :
    Srec :=
  ⟨state, saved, .object ms, name⟩

/-- The turn at the quotation mark of a name. -/
theorem turn_fieldStart {state saved : TokenerState} {ms : List (Text × Json)}
    (hstate : state = .objectFieldStart ∨ state = .objectFieldStartAfterSep) (hq : IsQuote q)
    (hstr : tok.str = q :: l) (htop : tok.top = .inObject state saved ms none) :
    turn tok = some (.goOn { tok with
      str := l, quoteChar := q, pb := [], top := { tok.top with state := .objectField } }) := by
  rcases hq with rfl | rfl <;> rcases hstate with rfl | rfl <;>
    simp [turn, htop, Srec.inObject, hstr, peek_cons, advanceChar]

/-- The start of a string that is a value. -/
theorem yields_string {s : Text} (hq : IsQuote q) (h : Quoted q l s r)
    (hrest : Yields r (.done (.string s)) below res) : Yields (q :: l) .begun below res := by
  intro tok hstr htop hbelow
  have hturn : turn tok = some (.goOn { tok with
      str := l, top := { tok.top with state := .string }, pb := [], quoteChar := q }) := by
    rcases hq with rfl | rfl <;>
      simp [turn, htop, Srec.begun, startTurn, hstr, peek_cons, advanceChar]
  refine Ends.goOn hturn (ends_quoted closes_string hq h rfl rfl rfl ?_)
  rw [htop, hbelow]
  exact hrest

/-- The start of a member: its name and the colon. -/
theorem yields_name {s l₁ l₂ l₃ : Text} {state saved : TokenerState} {ms : List (Text × Json)}
    (hstate : state = .objectFieldStart ∨ state = .objectFieldStartAfterSep) (hq : IsQuote q)
    (h : Quoted q l s l₁) (hcolon : Blanks l₁ (':' :: l₂)) (hblanks : Blanks l₂ l₃)
    (hready : Ready l₃)
    (hrest : Yields l₃ (.inObject .objectValue .objectValue ms (some (upToNul s))) below res) :
    Yields (q :: l) (.inObject state saved ms none) below res := by
  intro tok hstr htop hbelow
  refine Ends.goOn (turn_fieldStart hstate hq hstr htop)
    (ends_quoted closes_objectField hq h rfl rfl rfl ?_)
  rw [htop, hbelow]
  refine yields_blanks hcolon rfl (yields_ready rfl (ready_cons (by decide)) ?_)
  intro tok hstr htop hbelow
  have hturn : turn tok = some (.goOn { tok with str := l₂, top := tok.top.eat .objectValue }) := by
    simp [turn, htop, Srec.eat, Srec.inObject, hstr, peek_cons, advanceChar]
  refine Ends.goOn hturn ?_
  rw [htop]
  exact yields_blanks hblanks rfl (yields_ready rfl hready hrest) _ rfl rfl hbelow

/-- A bracket, a brace or a comma. -/
theorem yields_sep (state : TokenerState) (hstate : level.state = .arraySep ∧
      (c = ']' ∧ state = .finish ∨ c = ',' ∧ state = .arrayAfterSep) ∨
    level.state = .objectSep ∧
      (c = '\x7d' ∧ state = .finish ∨ c = ',' ∧ state = .objectFieldStartAfterSep) ∨
    (level.state = .array ∨ level.state = .arrayAfterSep) ∧ c = ']' ∧ state = .finish ∨
    (level.state = .objectFieldStart ∨ level.state = .objectFieldStartAfterSep) ∧ c = '\x7d' ∧
      state = .finish)
    (h : Yields l (level.eat state) below res) : Yields (c :: l) level below res := by
  intro tok hstr htop hbelow
  have hturn : turn tok = some (.goOn { tok with str := l, top := tok.top.eat state }) := by
    rcases hstate with ⟨hs, ⟨rfl, rfl⟩ | ⟨rfl, rfl⟩⟩ | ⟨hs, ⟨rfl, rfl⟩ | ⟨rfl, rfl⟩⟩ |
      ⟨hs | hs, rfl, rfl⟩ | ⟨hs | hs, rfl, rfl⟩ <;>
      simp [turn, htop, hs, hstr, peek_cons, advanceChar]
  exact Ends.goOn hturn (h _ rfl (by rw [htop]) hbelow)

/-- A value is read on the level that has been opened for it. -/
def ReadsValue (k : ℕ) (l : Text) (v : Json) (r : Text) : Prop :=
  ∀ {below : List Srec} {res : TokenerError × Json}, below.length + k ≤ 31 →
    Yields r (.done v) below res → Yields l .begun below res

/-- The rest of an array is read. -/
def ReadsElements (k : ℕ) (vs : List Json) (l : Text) (ws : List Json) (r : Text) : Prop :=
  ∀ {state saved : TokenerState} {below : List Srec} {res : TokenerError × Json},
    state = .array ∨ state = .arrayAfterSep → below.length + k ≤ 31 →
    Yields r (.done (.array ws)) below res → Yields l (.inArray state saved vs) below res

/-- The rest of an object is read. -/
def ReadsMembers (k : ℕ) (ms : List (Text × Json)) (l : Text) (ns : List (Text × Json))
    (r : Text) : Prop :=
  ∀ {state saved : TokenerState} {below : List Srec} {res : TokenerError × Json},
    state = .objectFieldStart ∨ state = .objectFieldStartAfterSep → below.length + k ≤ 31 →
    Yields r (.done (.object ns)) below res → Yields l (.inObject state saved ms none) below res

/-- An element is read, up to the bracket or the comma behind it. -/
theorem yields_element {vs : List Json} {state saved : TokenerState} (hopens : Opens l)
    (hv : ReadsValue k l v l') (hblanks : Blanks l' r) (hready : Ready r)
    (hstate : state = .array ∨ state = .arrayAfterSep) (hdepth : below.length + (k + 1) ≤ 31)
    (h : Yields r (.inArray .arraySep .arraySep (vs ++ [v])) below res) :
    Yields l (.inArray state saved vs) below res := by
  refine yields_push (.inr ⟨hstate, hopens.ne_bracket, rfl⟩) (by omega)
    (yields_begun .nil hopens.ready (hv (by rw [List.length_cons]; omega) ?_))
  exact yields_pop hblanks hready (.inl ⟨_, rfl, rfl, rfl⟩) h

/-- The value of a member is read, up to the brace or the comma behind it. -/
theorem yields_memberValue {ms : List (Text × Json)} {saved : TokenerState} {name : Text}
    (hopens : Opens l) (hv : ReadsValue k l v l') (hblanks : Blanks l' r) (hready : Ready r)
    (hdepth : below.length + (k + 1) ≤ 31)
    (h : Yields r (.inObject .objectSep .objectSep (Assoc.set name v ms) none) below res) :
    Yields l (.inObject .objectValue saved ms (some name)) below res := by
  refine yields_push (.inl ⟨rfl, rfl⟩) (by omega)
    (yields_begun .nil hopens.ready (hv (by rw [List.length_cons]; omega) ?_))
  exact yields_pop hblanks hready (.inr ⟨_, _, rfl, rfl, rfl, rfl⟩) h

/-- Behind a comma. -/
theorem yields_comma {state : TokenerState} (hblanks : Blanks l l') (hready : Ready l')
    (hstate : level.state = .arraySep ∧ state = .arrayAfterSep ∨
      level.state = .objectSep ∧ state = .objectFieldStartAfterSep)
    (h : Yields l' { level with state := state, savedState := state } below res) :
    Yields (',' :: l) level below res := by
  refine yields_sep state ?_ (yields_blanks hblanks rfl (yields_ready rfl hready h))
  rcases hstate with ⟨hs, hstate⟩ | ⟨hs, hstate⟩
  · exact .inl ⟨hs, .inr ⟨rfl, hstate⟩⟩
  · exact .inr (.inl ⟨hs, .inr ⟨rfl, hstate⟩⟩)

/-- The start of an array. -/
theorem yields_array (hblanks : Blanks l l') (hready : Ready l')
    (h : Yields l' (.inArray .array .array []) below res) : Yields ('[' :: l) .begun below res := by
  intro tok hstr htop hbelow
  have hturn : turn tok = some (.goOn { tok with
      str := l, top := { tok.top.eat .array with current := .array [] } }) := by
    simp [turn, htop, Srec.begun, startTurn, hstr, peek_cons, advanceChar]
  refine Ends.goOn hturn ?_
  rw [htop]
  exact yields_blanks hblanks rfl (yields_ready rfl hready h) _ rfl rfl hbelow

/-- The start of an object. -/
theorem yields_object (hblanks : Blanks l l') (hready : Ready l')
    (h : Yields l' (.inObject .objectFieldStart .objectFieldStart [] none) below res) :
    Yields ('\x7b' :: l) .begun below res := by
  intro tok hstr htop hbelow
  have hturn : turn tok = some (.goOn { tok with
      str := l, top := { tok.top.eat .objectFieldStart with current := .object [] } }) := by
    simp [turn, htop, Srec.begun, startTurn, hstr, peek_cons, advanceChar]
  refine Ends.goOn hturn ?_
  rw [htop]
  exact yields_blanks hblanks rfl (yields_ready rfl hready h) _ rfl rfl hbelow

theorem readsValue_infinity {s : Text} (hs : lower s = "infinity".toList) :
    ReadsValue k (s ++ r) (.double "Infinity".toList) r := by
  intro below res hdepth hrest tok hstr htop hbelow
  cases s with
  | nil => simp [lower] at hs
  | cons c s =>
    have hc : c.toLower = 'i' := (List.cons.inj hs).1
    refine ends_token .inf hstr htop (.inr (.inl ⟨letter_of_toLower hc rfl, rfl⟩))
      (ends_infinity hs hstr rfl ?_)
    rw [htop, hbelow]
    exact hrest

theorem readsValue_minusInfinity {s : Text} (hs : lower s = "infinity".toList) :
    ReadsValue k ('-' :: (s ++ r)) (.double "-Infinity".toList) r := by
  intro below res hdepth hrest tok hstr htop hbelow
  refine Ends.goOn (turn_startNumber (t := ['-']) hstr htop (.inl rfl)) ?_
  -- the number is the minus sign alone
  have hsign : ∀ tok : Tokener, tok.str = '-' :: (s ++ r) → tok.top.state = .number →
      tok.pb = [] → tok.isDouble = false → turn tok = some (.goOn { tok with
        str := s ++ r, pb := ['-'], top := { tok.top with state := .inf }, stPos := 0 }) := by
    intro tok hstr hstate hpb hdouble
    cases s with
    | nil => simp [lower] at hs
    | cons c s =>
      have hc : c = 'i' ∨ c = 'I' := letter_of_toLower (List.cons.inj hs).1 rfl
      have hend : isNumberChar c = false := by rcases hc with rfl | rfl <;> rfl
      have hminus : isNumberChar '-' = true := rfl
      simp [turn, hstate, numberTurn, hstr, hdouble, numberLoop, hminus, hend, hpb, peek_cons, hc]
  refine Ends.goOn (hsign _ hstr rfl rfl rfl) (ends_infinity hs rfl rfl ?_)
  rw [htop, hbelow]
  exact hrest

theorem readsValue_number {t : Text} (hnumber : Number t v)
    (hend : isNumberChar (peekChar r) = false) : ReadsValue k (t ++ r) v r := by
  intro below res hdepth hrest tok hstr htop hbelow
  refine Ends.goOn (turn_startNumber hstr htop hnumber.shape.start)
    (ends_number hnumber hend hstr rfl rfl rfl ?_)
  rw [htop, hbelow]
  exact hrest

/-- What the grammar derives is read. -/
theorem yields_value (h : Value k l v r) : ReadsValue k l v r := by
  -- by induction on the derivation, with what it says of the rest of an array or an object
  refine @Value.rec (fun k l v r _ => ReadsValue k l v r)
    (fun k vs l ws r _ => ReadsElements k vs l ws r)
    (fun k ms l ns r _ => ReadsMembers k ms l ns r)
    ?_ ?_ ?_ ?_ ?_ ?_ ?_ ?_ ?_ ?_ ?_ ?_ ?_ ?_ ?_ ?_ k l v r h
  · -- `null`
    intro k s r hs below res hdepth hrest
    exact yields_word turn_null .first (by decide) rfl (.inl ⟨rfl, rfl⟩) hs hrest
  · -- `NaN`
    intro k s r hs below res hdepth hrest
    exact yields_word turn_null (.second (by decide) (by decide)) (by decide) rfl (.inl ⟨rfl, rfl⟩)
      hs hrest
  · -- `Infinity`
    intro k s r hs
    exact readsValue_infinity hs
  · -- `-Infinity`
    intro k s r hs
    exact readsValue_minusInfinity hs
  · -- `true`
    intro k s r hs below res hdepth hrest
    exact yields_word turn_boolean .first (by decide) rfl (.inr ⟨.inl rfl, rfl⟩) hs hrest
  · -- `false`
    intro k s r hs below res hdepth hrest
    exact yields_word turn_boolean (.second (by decide) (by decide)) (by decide) rfl
      (.inr ⟨.inr rfl, rfl⟩) hs hrest
  · -- a number
    intro k t r v hnumber hend
    exact readsValue_number hnumber hend
  · -- a string
    intro k q l s r hq hquoted below res hdepth hrest
    exact yields_string hq hquoted hrest
  · -- an array
    intro k l l' r vs hblanks helements ih below res hdepth hrest
    exact yields_array hblanks helements.ready (ih (.inl rfl) hdepth hrest)
  · -- an object
    intro k l l' r ms hblanks hmembers ih below res hdepth hrest
    exact yields_object hblanks hmembers.ready (ih (.inl rfl) hdepth hrest)
  · -- no more elements
    intro k vs r state saved below res hstate hdepth hrest
    exact yields_sep .finish (.inr (.inr (.inl ⟨hstate, rfl, rfl⟩))) hrest
  · -- the last element
    intro k vs v l l' r hv hblanks ih state saved below res hstate hdepth hrest
    refine yields_element hv.opens ih hblanks (ready_cons (by decide)) hstate hdepth ?_
    exact yields_sep .finish (.inl ⟨rfl, .inl ⟨rfl, rfl⟩⟩) hrest
  · -- an element and a comma
    intro k vs ws v l l₁ l₂ l₃ r hv hcomma hblanks hmore ih ihmore state saved below res hstate
      hdepth hrest
    refine yields_element hv.opens ih hcomma (ready_cons (by decide)) hstate hdepth ?_
    exact yields_comma hblanks hmore.ready (.inl ⟨rfl, rfl⟩) (ihmore (.inr rfl) hdepth hrest)
  · -- no more members
    intro k ms r state saved below res hstate hdepth hrest
    exact yields_sep .finish (.inr (.inr (.inr ⟨hstate, rfl, rfl⟩))) hrest
  · -- the last member
    intro k ms q s l l₁ l₂ l₃ l₄ r v hq hquoted hcolon hafter hv hblanks ih state saved below res
      hstate hdepth hrest
    refine yields_name hstate hq hquoted hcolon hafter hv.opens.ready
      (yields_memberValue hv.opens ih hblanks (ready_cons (by decide)) hdepth ?_)
    -- the brace behind it
    exact yields_sep .finish (.inr (.inl ⟨rfl, .inl ⟨rfl, rfl⟩⟩)) hrest
  · -- a member and a comma
    intro k ms ns q s l l₁ l₂ l₃ l₄ l₅ l₆ r v hq hquoted hcolon hafter hv hcomma hblanks hmore ih
      ihmore state saved below res hstate hdepth hrest
    refine yields_name hstate hq hquoted hcolon hafter hv.opens.ready
      (yields_memberValue hv.opens ih hcomma (ready_cons (by decide)) hdepth ?_)
    exact yields_comma hblanks hmore.ready (.inr ⟨rfl, rfl⟩) (ihmore (.inr rfl) hdepth hrest)

/-! ## Comments that do not end -/

theorem leave_success (hsaved : tok.top.savedState = .finish ∨ tok.top.state = .finish) :
    leave tok .success = (.success, tok.top.current) := by
  have hnot : ¬ (peekChar tok.str = '\x00' ∧ tok.top.state ≠ .finish ∧
      tok.top.savedState ≠ .finish) := by
    rintro ⟨-, hstate, hne⟩
    rcases hsaved with h | h
    · exact hne h
    · exact hstate h
  simp only [leave, if_neg hnot, if_true]

theorem ends_out (hturn : turn tok = some (.out res)) : Ends tok res :=
  ⟨1, run_out hturn⟩

/-- The text ends here. -/
def AtEnd (l : Text) : Prop := l = [] ∨ ∃ str, l = '\x00' :: str

theorem peek_end (hend : AtEnd l) : peekChar l = '\x00' := by
  rcases hend with rfl | ⟨l', rfl⟩ <;> rfl

/-- The machine stops at the end of the text. -/
theorem advance_end (hend : AtEnd l) (htok : tok.str = l) :
    advanceChar tok = out tok .success := by
  rcases hend with rfl | ⟨l', rfl⟩
  · simp only [advanceChar, htok]
  · simp only [advanceChar, htok, if_true]

theorem yields_endless (h : Endless l) (hstate : level.state = .comment)
    (hsaved : level.savedState = .finish) : Yields l level below (.success, level.current) := by
  have hlevel : ({ level with state := .comment } : Srec) = level := by rw [← hstate]
  -- the text ends inside of the comment
  have hend : ∀ {l : Text}, AtEnd l → Yields l level below (.success, level.current) := by
    intro l hl tok hstr htop hbelow
    have hskip : l.dropWhile (fun c => c != '*' && c != '\x00') = l := by
      rcases hl with rfl | ⟨l', rfl⟩ <;> rfl
    have hpeek : peekChar l ≠ '*' := by
      rw [peek_end hl]
      decide
    apply ends_out
    simp only [turn, htop, hstate, hstr, hskip, if_neg hpeek, out]
    rw [leave_success (.inl hsaved)]
  -- it ends behind a star
  have hendStar : ∀ {l : Text}, AtEnd l →
      Yields l { level with state := .commentEnd } below (.success, level.current) := by
    intro l hl tok hstr htop hbelow
    have hpeek : peekChar l ≠ '/' := by
      rw [peek_end hl]
      decide
    apply ends_out
    simp only [turn, htop, hstr, if_neg hpeek]
    rw [advance_end hl rfl, out, leave_success (.inl hsaved)]
  induction h with
  | nil => exact hend (.inl rfl)
  | nul => exact hend (.inr ⟨_, rfl⟩)
  | starNil => exact yields_star hstate (hendStar (.inl rfl))
  | starNul => exact yields_star hstate (hendStar (.inr ⟨_, rfl⟩))
  | star hslash hnul _ ih =>
    refine yields_star hstate (yields_commentEnd hnul (.inr ⟨hslash, rfl⟩) ?_)
    rw [hlevel]
    exact ih
  | skip hstar hnul _ ih => exact yields_inComment hstate hstar hnul ih

theorem peek_dropLine (h : '\n' ∉ upToNul l) :
    peekChar (l.dropWhile fun c => c != '\n' && c != '\x00') ≠ '\n' := by
  induction l with
  | nil => decide
  | cons c l ih =>
    by_cases hnul : c = '\x00'
    · subst hnul
      rw [List.dropWhile_cons_of_neg (by decide), peek_cons]
      decide
    · have hupTo : upToNul (c :: l) = c :: upToNul l :=
        List.takeWhile_cons_of_pos (by simpa using hnul)
      rw [hupTo, List.mem_cons, not_or] at h
      rw [List.dropWhile_cons_of_pos (by simp [Ne.symm h.1, hnul])]
      exact ih h.2

theorem yields_unended (h : Unended r) (hstate : level.state = .eatws)
    (hsaved : level.savedState = .finish) : Yields r level below (.success, level.current) := by
  cases h with
  | block hendless =>
    exact yields_commentStart hstate (.inl ⟨rfl, rfl⟩) (yields_endless hendless rfl hsaved)
  | @line l hline =>
    refine yields_commentStart hstate (.inr ⟨rfl, rfl⟩) ?_
    intro tok hstr htop hbelow
    have hpeek : peekChar (l.dropWhile fun c => c != '\n' && c != '\x00') ≠ '\n' :=
      peek_dropLine hline
    apply ends_out
    simp only [turn, htop, hstr, if_neg hpeek, out]
    rw [leave_success (.inl hsaved)]

/-! ## Texts -/

theorem PastElements.ready (h : PastElements k l r) (hready : Ready r) : Ready l := by
  cases h with
  | here => exact hready
  | next hv => exact hv.opens.ready

theorem PastMembers.ready (h : PastMembers k l r) : Ready l := by
  cases h with
  | here hq => exact ready_quote hq
  | next hq => exact ready_quote hq

/-- Elements are read up to the start of an element. -/
theorem yields_pastElements {vs : List Json} {state saved : TokenerState}
    (h : PastElements k l r) (hstate : state = .array ∨ state = .arrayAfterSep)
    (hdepth : below.length + (k + 1) ≤ 31) (hready : Ready r)
    (hrest : ∀ {state saved vs}, state = .array ∨ state = .arrayAfterSep →
      Yields r (.inArray state saved vs) below res) :
    Yields l (.inArray state saved vs) below res := by
  induction h generalizing state saved vs with
  | here => exact hrest hstate
  | next hv hcomma hblanks hpast ih =>
    refine yields_element hv.opens (yields_value hv) hcomma (ready_cons (by decide)) hstate
      hdepth ?_
    exact yields_comma hblanks (hpast.ready hready) (.inl ⟨rfl, rfl⟩)
      (ih (.inr rfl) hready hrest)

/-- Members are read up to the start of a member's value. -/
theorem yields_pastMembers {ms : List (Text × Json)} {state saved : TokenerState}
    (h : PastMembers k l r) (hstate : state = .objectFieldStart ∨ state = .objectFieldStartAfterSep)
    (hdepth : below.length + (k + 1) ≤ 31) (hready : Ready r)
    (hrest : ∀ {saved ms name}, Yields r (.inObject .objectValue saved ms (some name)) below res) :
    Yields l (.inObject state saved ms none) below res := by
  induction h generalizing state saved ms with
  | here hq hquoted hcolon hblanks =>
    exact yields_name hstate hq hquoted hcolon hblanks hready hrest
  | next hq hquoted hcolon hafter hv hcomma hblanks hpast ih =>
    refine yields_name hstate hq hquoted hcolon hafter hv.opens.ready
      (yields_memberValue hv.opens (yields_value hv) hcomma (ready_cons (by decide)) hdepth ?_)
    exact yields_comma hblanks hpast.ready (.inr ⟨rfl, rfl⟩) (ih (.inr rfl) hready hrest)

theorem Stops.opens (h : Stops k l v) : Opens l := by
  cases h with
  | here hv => exact hv.opens
  | element | member => exact opens_cons (by decide)

/-- A comment behind a value inside of others. -/
theorem yields_stops (h : Stops k l v) (hdepth : below.length + k ≤ 31) :
    Yields l .begun below (.success, v) := by
  induction h generalizing below with
  | here hv hblanks hunended =>
    exact yields_value hv hdepth (yields_blanks hblanks rfl (yields_unended hunended rfl rfl))
  | @element k l l₁ l₂ v hblanks hpast hstops ih =>
    refine yields_array hblanks (hpast.ready hstops.opens.ready) ?_
    refine yields_pastElements hpast (.inl rfl) hdepth hstops.opens.ready ?_
    intro state saved vs hstate
    refine yields_push (.inr ⟨hstate, hstops.opens.ne_bracket, rfl⟩) (by omega) ?_
    exact yields_begun .nil hstops.opens.ready (ih (by rw [List.length_cons]; omega))
  | @member k l l₁ l₂ v hblanks hpast hstops ih =>
    refine yields_object hblanks hpast.ready ?_
    refine yields_pastMembers hpast (.inl rfl) hdepth hstops.opens.ready ?_
    intro saved ms name
    refine yields_push (.inl ⟨rfl, rfl⟩) (by omega) ?_
    exact yields_begun .nil hstops.opens.ready (ih (by rw [List.length_cons]; omega))

/-- A whole text is read. -/
theorem yields_textOf (h : TextOf v l) : Yields l .fresh [] (.success, v) := by
  cases h with
  | whole hblanks hv hafter hready =>
    refine yields_begun hblanks hv.opens.ready (yields_value hv (by decide)
      (yields_blanks hafter rfl (yields_ready rfl hready ?_)))
    intro tok hstr htop hbelow
    apply ends_out
    simp only [turn, htop, hbelow, Srec.done, Srec.read, out]
    rw [leave_success (.inr (by rw [htop]; rfl)), htop]
    rfl
  | stopped hblanks hstops =>
    exact yields_begun hblanks hstops.opens.ready (yields_stops hstops (by decide))

/-- A short text is not too long for the tokener. -/
theorem length_le_INT_MAX {s : Text} (h : s.length ≤ 1000) : (s.length : ℤ) ≤ INT_MAX.1 :=
  le_trans (Nat.cast_le.mpr h) (by decide)

/-- Every text of the grammar is accepted, with the value that the grammar gives it. -/
theorem parseVerbose_textOf (h : TextOf v l) (hlen : (upToNul l).length ≤ INT_MAX.1) :
    jsonTokenerParseVerbose l = some (.success, v) := by
  rcases tokener_returns l with ⟨res, hres⟩
  rcases yields_textOf h (jsonTokenerNew l) rfl rfl rfl with ⟨n, hn⟩
  have hrun := hres
  unfold jsonTokenerParseVerbose at hrun
  rw [if_neg (by omega)] at hrun
  rw [hres, Machine.run_unique hrun hn]

end MqttMsgHub
