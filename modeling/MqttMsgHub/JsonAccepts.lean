import MqttMsgHub.JsonReads

/-! # The tokener takes nothing but its dialect

What a successful run of the machine has read. `Ran` says that the machine came to a
success from a place in the text; it is taken apart turn by turn until the grammar of
`JsonDialect` derives what was read.

* `read_all` — a run from the start of a value has read a value, or it ended in a comment
  inside of it;
* `jsonTokenerParse_iff` — the texts that are accepted, and the values that are read.
-/

namespace MqttMsgHub

open Machine (run run_cases)

variable {str l l' r pb : Text} {top level : Srec} {below : List Srec} {n m k : ℕ} {w v : Json}
  {tok tok' : Tokener} {c q : Char} {err : TokenerError} {state saved : TokenerState}

/-! ## Runs that succeed -/

/-- From this place and these levels on, `n` turns led to a success. -/
def Ran (n : ℕ) (str : Text) (top : Srec) (below : List Srec) (w : Json) : Prop :=
  ∃ tok : Tokener, tok.str = str ∧ tok.top = top ∧ tok.below = below ∧
    run turn n tok = some (.success, w)

theorem ran_of_run (h : run turn n tok = some (.success, w)) : Ran n tok.str tok.top tok.below w :=
  ⟨tok, rfl, rfl, rfl, h⟩

theorem leave_error (herr : err ≠ .success) : leave tok err ≠ (.success, w) := by
  unfold leave
  by_cases heof : peekChar tok.str = '\x00' ∧ tok.top.state ≠ .finish ∧ tok.top.savedState ≠ .finish
  · simp [heof]
  · simp [heof, herr]

/-- At the end of the text a success needs a value that has been read. -/
theorem leave_end (h : leave tok .success = (.success, w)) (hpeek : peekChar tok.str = '\x00') :
    (tok.top.state = .finish ∨ tok.top.savedState = .finish) ∧ w = tok.top.current := by
  unfold leave at h
  by_cases heof : peekChar tok.str = '\x00' ∧ tok.top.state ≠ .finish ∧ tok.top.savedState ≠ .finish
  · simp [heof] at h
  · rw [not_and_or, not_and_or, not_not, not_not] at heof
    refine ⟨heof.resolve_left (fun hne => hne hpeek), ?_⟩
    have hvalue := (leave_success (heof.resolve_left (fun hne => hne hpeek)).symm).symm.trans h
    exact (Prod.mk.inj hvalue).2.symm

/-- A turn of a run that succeeds. -/
theorem run_goOn_inv (h : run turn n tok = some (.success, w))
    (hturn : turn tok = some (.goOn tok')) :
    ∃ m, n = m + 1 ∧ run turn m tok' = some (.success, w) := by
  rcases run_cases h with ⟨m, rfl, hout | ⟨tok₁, hgo, hrun⟩⟩
  · rw [hturn] at hout
    simp at hout
  · rw [hturn] at hgo
    simp only [Option.some.injEq, Machine.Turn.goOn.injEq] at hgo
    subst hgo
    exact ⟨m, rfl, hrun⟩

theorem run_out_inv (h : run turn n tok = some (.success, w))
    (hturn : turn tok = some (out tok' err)) : leave tok' err = (.success, w) := by
  rcases run_cases h with ⟨m, rfl, hout | ⟨tok₁, hgo, hrun⟩⟩
  · rw [hturn] at hout
    simpa [out] using hout
  · rw [hturn] at hgo
    simp [out] at hgo

/-- An error is no success. -/
theorem run_error_inv (h : run turn n tok = some (.success, w)) (herr : err ≠ .success)
    (hturn : turn tok = some (out tok' err)) : False :=
  leave_error herr (run_out_inv h hturn)

/-- The next character is taken, or the text ends. -/
theorem run_advance_inv (h : run turn n tok = some (.success, w))
    (hturn : turn tok = some (advanceChar tok')) :
    (∃ m c str, n = m + 1 ∧ tok'.str = c :: str ∧ c ≠ '\x00' ∧
        run turn m { tok' with str := str } = some (.success, w)) ∨
      AtEnd tok'.str ∧ (tok'.top.state = .finish ∨ tok'.top.savedState = .finish) ∧
        w = tok'.top.current := by
  cases hstr : tok'.str with
  | nil =>
    right
    have hadv : advanceChar tok' = out tok' .success := by simp only [advanceChar, hstr]
    rw [hadv] at hturn
    exact ⟨.inl rfl, leave_end (run_out_inv h hturn) (by rw [hstr]; rfl)⟩
  | cons c str =>
    by_cases hc : c = '\x00'
    · right
      have hadv : advanceChar tok' = out tok' .success := by
        simp only [advanceChar, hstr, if_pos hc]
      rw [hadv] at hturn
      exact ⟨.inr ⟨str, by rw [hc]⟩, leave_end (run_out_inv h hturn) (by rw [hstr]; exact hc)⟩
    · left
      rw [advance_cons hstr hc] at hturn
      rcases run_goOn_inv h hturn with ⟨m, hm, hrun⟩
      exact ⟨m, c, str, hm, rfl, hc, hrun⟩

/-- A turn that goes on from a place to another one. -/
theorem Ran.goOn {top' : Srec} {below' : List Srec} (h : Ran n l top below w)
    (hturn : ∀ tok : Tokener, tok.str = l → tok.top = top → tok.below = below →
      ∃ tok', turn tok = some (.goOn tok') ∧ tok'.str = l' ∧ tok'.top = top' ∧
        tok'.below = below') :
    ∃ m, n = m + 1 ∧ Ran m l' top' below' w := by
  rcases h with ⟨tok, hstr, htop, hbelow, hrun⟩
  rcases hturn tok hstr htop hbelow with ⟨tok', hgo, hplace⟩
  rcases run_goOn_inv hrun hgo with ⟨m, rfl, hrun'⟩
  exact ⟨m, rfl, tok', hplace.1, hplace.2.1, hplace.2.2, hrun'⟩

/-- A turn that takes the next character, if there is one. -/
theorem Ran.mayAdvance {top' : Srec} (h : Ran n l top below w)
    (hturn : ∀ tok : Tokener, tok.str = l → tok.top = top → tok.below = below →
      ∃ tok', turn tok = some (advanceChar tok') ∧ tok'.str = l' ∧ tok'.top = top' ∧
        tok'.below = below) :
    (∃ m c r, n = m + 1 ∧ l' = c :: r ∧ c ≠ '\x00' ∧ Ran m r top' below w) ∨
      AtEnd l' ∧ (top'.state = .finish ∨ top'.savedState = .finish) ∧ w = top'.current := by
  rcases h with ⟨tok, hstr, htop, hbelow, hrun⟩
  rcases hturn tok hstr htop hbelow with ⟨tok', hadv, rfl, rfl, hbelow'⟩
  rcases run_advance_inv hrun hadv with ⟨m, c, r, hm, hcons, hc, hrun'⟩ | hend
  · exact .inl ⟨m, c, r, hm, hcons, hc, { tok' with str := r }, rfl, rfl, hbelow', hrun'⟩
  · exact .inr hend

/-- A turn that is out with an error. -/
theorem Ran.not_error (h : Ran n l top below w)
    (hturn : ∀ tok : Tokener, tok.str = l → tok.top = top → tok.below = below →
      ∃ tok' err, turn tok = some (out tok' err) ∧ err ≠ .success) : False := by
  rcases h with ⟨tok, hstr, htop, hbelow, hrun⟩
  rcases hturn tok hstr htop hbelow with ⟨tok', err, hout, herr⟩
  exact run_error_inv hrun herr hout

/-- A turn that is out at the end of the text. -/
theorem Ran.at_end (h : Ran n l top below w)
    (hturn : ∀ tok : Tokener, tok.str = l → tok.top = top → tok.below = below →
      ∃ tok', turn tok = some (out tok' .success) ∧ peekChar tok'.str = '\x00' ∧ tok'.top = top) :
    (top.state = .finish ∨ top.savedState = .finish) ∧ w = top.current := by
  rcases h with ⟨tok, hstr, htop, hbelow, hrun⟩
  rcases hturn tok hstr htop hbelow with ⟨tok', hout, hpeek, rfl⟩
  exact leave_end (run_out_inv hrun hout) hpeek

/-! ## Blanks -/

/-- A text of characters of one kind, one after the other. -/
theorem induction_of_all {P : Text → Prop} {kind : Char → Prop} {a : Text}
    (ha : ∀ c ∈ a, kind c) (hnil : P []) (hcons : ∀ c a, kind c → P a → P (c :: a)) : P a := by
  induction a with
  | nil => exact hnil
  | cons c a ih =>
    exact hcons c a (ha c List.mem_cons_self) (ih fun d hd => ha d (List.mem_cons_of_mem c hd))

theorem block_skip {a : Text} (ha : ∀ c ∈ a, c ≠ '*' ∧ c ≠ '\x00') (h : BlockComment l r) :
    BlockComment (a ++ l) r := by
  refine induction_of_all (P := fun a => BlockComment (a ++ l) r) ha h ?_
  intro c a hc ih
  exact .skip hc.1 hc.2 ih

theorem endless_skip {a : Text} (ha : ∀ c ∈ a, c ≠ '*' ∧ c ≠ '\x00') (h : Endless l) :
    Endless (a ++ l) := by
  refine induction_of_all (P := fun a => Endless (a ++ l)) ha h ?_
  intro c a hc ih
  exact .skip hc.1 hc.2 ih

/-- Where the characters of a kind end. -/
theorem exists_span (p : Char → Bool) (l : Text) :
    ∃ a, l = a ++ l.dropWhile p ∧ (∀ c ∈ a, p c) :=
  ⟨l.takeWhile p, List.takeWhile_append_dropWhile.symm, fun _ hc => List.mem_takeWhile_imp hc⟩

/-- What stops a scan that stops at NUL. -/
theorem stop_dropWhile {p : Char → Bool} (l : Text) (hnul : p '\x00' = false) :
    p (peekChar (l.dropWhile p)) = false := by
  induction l with
  | nil => exact hnul
  | cons c l ih =>
    by_cases hc : p c = true
    · rw [List.dropWhile_cons_of_pos hc]
      exact ih
    · rw [List.dropWhile_cons_of_neg hc, peek_cons]
      simpa using hc

theorem cons_of_peek (hc : c ≠ '\x00') (h : peekChar l = c) : ∃ str, l = c :: str := by
  cases l with
  | nil => exact absurd h.symm hc
  | cons d str => exact ⟨str, by rw [show c = d from h.symm]⟩

theorem atEnd_of_peek (h : peekChar l = '\x00') : AtEnd l := by
  cases l with
  | nil => exact .inl rfl
  | cons d str => exact .inr ⟨str, by rw [show d = '\x00' from h]⟩

/-- Behind a star in a comment. -/
theorem ran_commentEnd (h : Ran n l level below w) (hstate : level.state = .commentEnd) :
    (∃ m r, n = m + 1 ∧ l = '/' :: r ∧ Ran m r { level with state := .eatws } below w) ∨
      (∃ m c r, n = m + 1 ∧ l = c :: r ∧ c ≠ '/' ∧ c ≠ '\x00' ∧
        Ran m r { level with state := .comment } below w) ∨
      AtEnd l ∧ level.savedState = .finish ∧ w = level.current := by
  by_cases hslash : peekChar l = '/'
  · obtain ⟨r, rfl⟩ := cons_of_peek (by decide) hslash
    left
    rcases h.goOn (fun tok hstr htop hbelow =>
      ⟨{ tok with str := r, top := { tok.top with state := .eatws } }, by
        simp [turn, htop, hstate, hstr, peek_cons, advanceChar], rfl, by rw [htop], hbelow⟩)
      with ⟨m, hm, hran⟩
    exact ⟨m, r, hm, rfl, hran⟩
  · right
    rcases h.mayAdvance (fun tok hstr htop hbelow =>
      ⟨{ tok with str := l, top := { tok.top with state := .comment } }, by
        simp [turn, htop, hstate, hstr, hslash], rfl, by rw [htop], hbelow⟩)
      with ⟨m, c, r, hm, rfl, hc, hran⟩ | ⟨hend, hsaved, hw⟩
    · exact .inl ⟨m, c, r, hm, rfl, hslash, hc, hran⟩
    · exact .inr ⟨hend, hsaved.resolve_left (by simp), hw⟩

/-- A block comment: it ends, or the text ends inside of it. -/
theorem ran_comment (h : Ran n l level below w) (hstate : level.state = .comment) :
    (∃ m r, m < n ∧ BlockComment l r ∧ Ran m r { level with state := .eatws } below w) ∨
      Endless l ∧ level.savedState = .finish ∧ w = level.current := by
  -- on the number of turns: a star that ends nothing leads back into the comment
  induction n using Nat.strongRecOn generalizing l level with
  | _ n ih =>
    obtain ⟨a, ha, hskip⟩ := exists_span (fun c => c != '*' && c != '\x00') l
    have hskip' : ∀ c ∈ a, c ≠ '*' ∧ c ≠ '\x00' := fun c hc => by simpa using hskip c hc
    have hstop := stop_dropWhile (p := fun c => c != '*' && c != '\x00') l (by decide)
    generalize hl₀ : l.dropWhile (fun c => c != '*' && c != '\x00') = l₀ at ha hstop
    by_cases hstar : peekChar l₀ = '*'
    · obtain ⟨l₁, rfl⟩ := cons_of_peek (by decide) hstar
      rcases h.goOn (fun tok hstr htop hbelow =>
        ⟨{ tok with str := l₁, top := { tok.top with state := .commentEnd } }, by
          simp [turn, htop, hstate, hstr, hl₀, peek_cons, advanceChar], rfl, by rw [htop], hbelow⟩)
        with ⟨m, rfl, hran⟩
      rw [ha]
      rcases ran_commentEnd hran rfl with ⟨m, r, rfl, rfl, hran'⟩ |
        ⟨m, c, l₂, rfl, rfl, hslash, hnul, hran'⟩ | ⟨hend, hsaved, hw⟩
      · exact .inl ⟨m, r, by omega, block_skip hskip' .close, hran'⟩
      · rcases ih m (by omega) hran' rfl with ⟨m', r, hm', hblock, hran''⟩ | ⟨hendless, hsaved, hw⟩
        · exact .inl ⟨m', r, by omega, block_skip hskip' (.star hslash hnul hblock), hran''⟩
        · exact .inr ⟨endless_skip hskip' (.star hslash hnul hendless), hsaved, hw⟩
      · refine .inr ⟨endless_skip hskip' ?_, hsaved, hw⟩
        rcases hend with rfl | ⟨l₂, rfl⟩
        · exact .starNil
        · exact .starNul
    · right
      have hpeek : peekChar l₀ = '\x00' := by
        simpa [hstar] using hstop
      have hend := h.at_end (fun tok hstr htop hbelow =>
        ⟨{ tok with str := l₀ }, by simp [turn, htop, hstate, hstr, hl₀, hstar], hpeek, htop⟩)
      refine ⟨?_, hend.1.resolve_left (by simp [hstate]), hend.2⟩
      rw [ha]
      rcases atEnd_of_peek hpeek with rfl | ⟨l₁, rfl⟩
      · exact endless_skip hskip' .nil
      · exact endless_skip hskip' .nul

/-- A comment up to the end of the line. -/
theorem ran_commentEol (h : Ran n l level below w) (hstate : level.state = .commentEol) :
    (∃ m cs r, m < n ∧ l = cs ++ '\n' :: r ∧ (∀ c ∈ cs, c ≠ '\n' ∧ c ≠ '\x00') ∧
        Ran m r { level with state := .eatws } below w) ∨
      '\n' ∉ upToNul l ∧ level.savedState = .finish ∧ w = level.current := by
  obtain ⟨a, ha, hskip⟩ := exists_span (fun c => c != '\n' && c != '\x00') l
  have hskip' : ∀ c ∈ a, c ≠ '\n' ∧ c ≠ '\x00' := fun c hc => by simpa using hskip c hc
  have hstop := stop_dropWhile (p := fun c => c != '\n' && c != '\x00') l (by decide)
  generalize hl₀ : l.dropWhile (fun c => c != '\n' && c != '\x00') = l₀ at ha hstop
  by_cases hline : peekChar l₀ = '\n'
  · obtain ⟨r, rfl⟩ := cons_of_peek (by decide) hline
    rcases h.goOn (fun tok hstr htop hbelow =>
      ⟨{ tok with str := r, top := { tok.top with state := .eatws } }, by
        simp [turn, htop, hstate, hstr, hl₀, peek_cons, advanceChar], rfl, by rw [htop],
        hbelow⟩) with ⟨m, rfl, hran⟩
    exact .inl ⟨m, a, r, by omega, ha, hskip', hran⟩
  · right
    have hpeek : peekChar l₀ = '\x00' := by simpa [hline] using hstop
    have hend := h.at_end (fun tok hstr htop hbelow =>
      ⟨{ tok with str := l₀ }, by simp [turn, htop, hstate, hstr, hl₀, hline], hpeek, htop⟩)
    refine ⟨?_, hend.1.resolve_left (by simp [hstate]), hend.2⟩
    have hupTo : upToNul l = a := by
      rw [ha]
      unfold upToNul
      rw [List.takeWhile_append_of_pos (fun c hc => by simpa using (hskip' c hc).2)]
      rcases atEnd_of_peek hpeek with rfl | ⟨l₁, rfl⟩ <;> simp
    rw [hupTo]
    exact fun hmem => (hskip' _ hmem).1 rfl

theorem blanks_append {a : Text} (ha : ∀ c ∈ a, isSpace c) (h : Blanks l r) :
    Blanks (a ++ l) r := by
  refine induction_of_all (P := fun a => Blanks (a ++ l) r) ha h ?_
  intro c a hc ih
  exact .space hc ih

/-- Behind a slash. -/
theorem ran_commentStart (h : Ran n l level below w) (hstate : level.state = .commentStart) :
    ∃ (m : ℕ) (c : Char) (r : Text) (state : TokenerState), n = m + 1 ∧ l = c :: r ∧
      (c = '*' ∧ state = .comment ∨ c = '/' ∧ state = .commentEol) ∧
      Ran m r { level with state := state } below w := by
  by_cases hstart : peekChar l = '*' ∨ peekChar l = '/'
  · have hstate' : ∃ state : TokenerState, peekChar l = '*' ∧ state = .comment ∨
        peekChar l = '/' ∧ state = .commentEol := by
      rcases hstart with h | h
      · exact ⟨_, .inl ⟨h, rfl⟩⟩
      · exact ⟨_, .inr ⟨h, rfl⟩⟩
    rcases hstate' with ⟨state, hc⟩
    obtain ⟨r, hr⟩ : ∃ r, l = peekChar l :: r := by
      rcases hstart with h | h <;> exact h ▸ cons_of_peek (by decide) h
    rcases h.goOn (fun tok hstr htop hbelow =>
      ⟨{ tok with str := r, top := { tok.top with state := state } }, by
        rw [hr] at hstr
        rcases hc with ⟨hc, rfl⟩ | ⟨hc, rfl⟩ <;> rw [hc] at hstr <;>
          simp [turn, htop, hstate, hstr, peek_cons, advanceChar], rfl, by rw [htop],
        hbelow⟩) with ⟨m, hm, hran⟩
    exact ⟨m, peekChar l, r, state, hm, hr, hc, hran⟩
  · rw [not_or] at hstart
    exact (h.not_error fun tok hstr htop hbelow => ⟨tok, .parseComment, by
      simp [turn, htop, hstate, hstr, hstart], by decide⟩).elim

/-- Blanks are skipped, or the text ends inside of a comment. -/
theorem ran_blanks (h : Ran n l level below w) (hstate : level.state = .eatws) :
    (∃ m r, m < n ∧ Blanks l r ∧ Ready r ∧
        Ran m r { level with state := level.savedState } below w) ∨
      (∃ r, Blanks l r ∧ Unended r) ∧ level.savedState = .finish ∧ w = level.current := by
  -- on the number of turns: behind a comment there may be more blanks
  induction n using Nat.strongRecOn generalizing l level with
  | _ n ih =>
    obtain ⟨a, ha, hskip⟩ := exists_span isSpace l
    have hstop := stop_dropWhile (p := isSpace) l rfl
    generalize hl₀ : l.dropWhile isSpace = l₀ at ha hstop
    by_cases hslash : peekChar l₀ = '/'
    · obtain ⟨l₁, rfl⟩ := cons_of_peek (by decide) hslash
      rcases h.goOn (fun tok hstr htop hbelow =>
        ⟨{ tok with str := l₁, top := { tok.top with state := .commentStart } }, by
          simp [turn, htop, hstate, hstr, hl₀, peek_cons, advanceChar], rfl, by rw [htop],
          hbelow⟩) with ⟨m, rfl, hran⟩
      rw [ha]
      have hlevel : ∀ state,
          ({ ({ level with state := state } : Srec) with state := .eatws } : Srec) = level := by
        intro state
        rw [← hstate]
      rcases ran_commentStart hran rfl with
        ⟨m, c, l₂, state, rfl, rfl, ⟨rfl, rfl⟩ | ⟨rfl, rfl⟩, hran⟩
      · rcases ran_comment hran rfl with ⟨m₁, l₃, hm₁, hblock, hran'⟩ | ⟨hendless, hend⟩
        · rw [hlevel] at hran'
          rcases ih m₁ (by omega) hran' hstate with
            ⟨m₂, r, hm₂, hblanks, hready, hran''⟩ | ⟨⟨r, hblanks, hunended⟩, hend⟩
          · exact .inl
              ⟨m₂, r, by omega, blanks_append hskip (.block hblock hblanks), hready, hran''⟩
          · exact .inr ⟨⟨r, blanks_append hskip (.block hblock hblanks), hunended⟩, hend⟩
        · exact .inr ⟨⟨_, blanks_append hskip .nil, .block hendless⟩, hend⟩
      · rcases ran_commentEol hran rfl with ⟨m₁, cs, l₃, hm₁, rfl, hcs, hran'⟩ | ⟨hline, hend⟩
        · rw [hlevel] at hran'
          rcases ih m₁ (by omega) hran' hstate with
            ⟨m₂, r, hm₂, hblanks, hready, hran''⟩ | ⟨⟨r, hblanks, hunended⟩, hend⟩
          · exact .inl ⟨m₂, r, by omega, blanks_append hskip (.line hcs hblanks), hready, hran''⟩
          · exact .inr ⟨⟨r, blanks_append hskip (.line hcs hblanks), hunended⟩, hend⟩
        · exact .inr ⟨⟨_, blanks_append hskip .nil, .line hline⟩, hend⟩
    · rcases h.goOn (fun tok hstr htop hbelow =>
        ⟨{ tok with str := l₀, top := { tok.top with state := tok.top.savedState } }, by
          simp [turn, htop, hstate, hstr, hl₀, hslash], rfl, by rw [htop], hbelow⟩)
        with ⟨m, rfl, hran⟩
      refine .inl ⟨m, l₀, by omega, ?_, ⟨hstop, hslash⟩, hran⟩
      rw [ha]
      exact blanks_append hskip .nil

/-! ## Escapes -/

/-- Four digits stand in front of the place where the code has been read. -/
theorem codeUnit_of_loop {hi : ℕ} {pb' : Text}
    (h : escapeUnicodeLoop l hi 0 0 pb = .ok (pb', r)) :
    ∃ a b c d v l', l = a :: b :: c :: d :: l' ∧ JsonString.codeUnit a b c d = some v ∧
      codeRead hi v pb l' = .ok (pb', r) := by
  have hstep : ∀ {str : Text} {u pos : ℕ}, pos + 1 ≠ 4 →
      escapeUnicodeLoop str hi u pos pb = .ok (pb', r) →
      ∃ x str', str = x :: str' ∧ isHexChar x = true ∧
        escapeUnicodeLoop str' hi (u + jtHexdigit x * 16 ^ (3 - pos)) (pos + 1) pb =
          .ok (pb', r) := by
    intro str u pos hpos h
    cases str with
    | nil => simp [escapeUnicodeLoop] at h
    | cons x str =>
      unfold escapeUnicodeLoop at h
      by_cases hx : isHexChar x = true
      · rw [if_pos hx] at h
        exact ⟨x, str, rfl, hx, by simpa [hpos] using h⟩
      · rw [if_neg hx] at h
        simp at h
  rcases hstep (by decide) h with ⟨a, l₁, rfl, ha, h₁⟩
  rcases hstep (by decide) h₁ with ⟨b, l₂, rfl, hb, h₂⟩
  rcases hstep (by decide) h₂ with ⟨c, l₃, rfl, hc, h₃⟩
  have hd : ∃ d l₄, l₃ = d :: l₄ ∧ isHexChar d = true := by
    cases l₃ with
    | nil => simp [escapeUnicodeLoop] at h₃
    | cons d l₄ =>
      refine ⟨d, l₄, rfl, ?_⟩
      by_contra hd
      simp [escapeUnicodeLoop, hd] at h₃
  rcases hd with ⟨d, l₄, rfl, hd⟩
  have hcode : JsonString.codeUnit a b c d =
      some (((jtHexdigit a * 16 + jtHexdigit b) * 16 + jtHexdigit c) * 16 + jtHexdigit d) := by
    simp [JsonString.codeUnit, hexValue_iff.mpr ⟨ha, rfl⟩, hexValue_iff.mpr ⟨hb, rfl⟩,
      hexValue_iff.mpr ⟨hc, rfl⟩, hexValue_iff.mpr ⟨hd, rfl⟩]
  refine ⟨a, b, c, d, _, l₄, rfl, hcode, ?_⟩
  rwa [escapeUnicodeLoop_code hcode] at h

theorem exists_joins (hi : Option ℕ) (v : ℕ) : ∃ p s, Joins hi v p s := by
  cases hi with
  | none => exact ⟨_, _, .alone⟩
  | some u =>
    by_cases hlow : IsLow v
    · exact ⟨_, _, .pair hlow⟩
    · exact ⟨_, _, .other hlow⟩

/-- What the machine has read behind `\u` is the code of a character. -/
theorem unicode_of_loop {hi : Option ℕ} {pb' : Text} (hhi : hi ≠ some 0)
    (h : escapeUnicodeLoop l (hi.getD 0) 0 0 pb = .ok (pb', r)) :
    ∃ u, pb' = pb ++ u ∧ Unicode hi l u r := by
  -- on the text: behind a high surrogate another code is read
  induction hn : l.length using Nat.strongRecOn generalizing l hi pb with
  | _ n ih =>
    rcases codeUnit_of_loop h with ⟨a, b, c, d, v, l₁, rfl, hcode, hread⟩
    rcases exists_joins hi v with ⟨p, s, hjoins⟩
    rw [codeRead_joins hjoins hhi] at hread
    have hdone : ∀ u, codeRead 0 p (pb ++ s) l₁ = .ok (pb ++ s ++ u, l₁) →
        Unicode hi (a :: b :: c :: d :: l₁) (s ++ u) l₁ →
        ∃ u, pb' = pb ++ u ∧ Unicode hi (a :: b :: c :: d :: l₁) u r := by
      intro u hok hunicode
      rw [hok, Except.ok.injEq, Prod.mk.injEq] at hread
      obtain ⟨rfl, rfl⟩ := hread
      exact ⟨s ++ u, List.append_assoc .., hunicode⟩
    by_cases hlow : IsLow p
    · exact hdone _ (codeRead_low _ _ hlow) (.low hcode hjoins hlow)
    by_cases hhigh : IsHigh p
    · by_cases hnext : ∃ l₂, l₁ = '\\' :: 'u' :: l₂
      · rcases hnext with ⟨l₂, rfl⟩
        rw [codeRead_next _ _ hhigh] at hread
        rcases ih l₂.length (by rw [← hn]; simp; omega) hhigh.some_ne hread rfl with ⟨u, rfl, hu⟩
        exact ⟨s ++ u, List.append_assoc .., .next hcode hjoins hhigh hu⟩
      · have hnot : ∀ l₂, l₁ ≠ '\\' :: 'u' :: l₂ := fun l₂ h => hnext ⟨l₂, h⟩
        exact hdone _ (codeRead_high _ _ hhigh hnot) (.high hcode hjoins hhigh hnot)
    · exact hdone _ (codeRead_char _ _ hhigh hlow) (.char hcode hjoins hhigh hlow)

/-! ## Strings -/

theorem quoted_skip {a s : Text} (ha : ∀ c ∈ a, c ≠ q ∧ c ≠ '\\' ∧ c ≠ '\x00')
    (h : Quoted q l s r) : Quoted q (a ++ l) (a ++ s) r := by
  refine induction_of_all (P := fun a => Quoted q (a ++ l) (a ++ s) r) ha h ?_
  intro c a hc ih
  exact .plain hc.1 hc.2.1 hc.2.2 ih

/-- A backslash: what stands behind it adds to the string. -/
theorem run_stringEscape_inv (h : run turn n tok = some (.success, w))
    (hstate : tok.top.state = .stringEscape) :
    ∃ m u tok', m < n ∧ run turn m tok' = some (.success, w) ∧ tok'.pb = tok.pb ++ u ∧
      tok'.top = { tok.top with state := tok.top.savedState } ∧ tok'.below = tok.below ∧
      tok'.quoteChar = tok.quoteChar ∧
      ∀ {q s r}, Quoted q tok'.str s r → Quoted q ('\\' :: tok.str) (u ++ s) r := by
  have hturn : turn tok = some (stringEscapeTurn tok) := by simp only [turn, hstate]
  cases hstr : tok.str with
  | nil =>
    have herror : stringEscapeTurn tok = out tok .parseString := by
      simp [stringEscapeTurn, hstr, peekChar]
    rw [herror] at hturn
    exact (run_error_inv h (by decide) hturn).elim
  | cons e l =>
    cases hescape : JsonString.unescape e with
    | some x =>
      rw [stringEscapeTurn_unescape hescape hstr] at hturn
      rcases run_goOn_inv h hturn with ⟨m, rfl, hrun⟩
      exact ⟨m, [x], _, Nat.lt_succ_self m, hrun, rfl, rfl, rfl, rfl, fun hs => .escape hescape hs⟩
    | none =>
      by_cases hu : e = 'u'
      · subst hu
        have hcode : stringEscapeTurn tok = .goOn { tok with
            str := l, ucsChar := 0, stPos := 0,
            top := { tok.top with state := .escapeUnicode } } := by
          simp [stringEscapeTurn, hstr, peek_cons, advanceChar]
        rw [hcode] at hturn
        rcases run_goOn_inv h hturn with ⟨m, rfl, hrun⟩
        -- the digits are read in one turn
        generalize htok : ({ tok with
            str := l, ucsChar := 0, stPos := 0,
            top := { tok.top with state := .escapeUnicode } } : Tokener) = tok₁ at hrun
        cases hloop : escapeUnicodeLoop l 0 0 0 tok.pb with
        | error str =>
          have herror : turn tok₁ = some (out { tok₁ with str := str } .parseString) := by
            simp only [← htok, turn, hloop]
          exact (run_error_inv hrun (by decide) herror).elim
        | ok res =>
          rcases res with ⟨pb, l'⟩
          have hread : turn tok₁ = some (.goOn { tok₁ with
              str := l', pb := pb, top := { tok₁.top with state := tok₁.top.savedState } }) := by
            simp only [← htok, turn, hloop]
          rcases run_goOn_inv hrun hread with ⟨m, rfl, hrun⟩
          rcases unicode_of_loop (Option.some_ne_none 0).symm hloop with ⟨u, rfl, hunicode⟩
          refine ⟨m, u, _, by omega, hrun, rfl, ?_, ?_, ?_, fun hs => .unicode hunicode hs⟩
          all_goals rw [← htok]
      · have herror : stringEscapeTurn tok = out tok .parseString := by
          have hne : ∀ d, JsonString.unescape d ≠ none → e ≠ d := by
            rintro d hd rfl
            exact hd hescape
          simp [stringEscapeTurn, hstr, peek_cons, hu, hne '"' (by decide), hne '\\' (by decide),
            hne '/' (by decide), hne 'b' (by decide), hne 'n' (by decide), hne 'r' (by decide),
            hne 't' (by decide), hne 'f' (by decide)]
        rw [herror] at hturn
        exact (run_error_inv h (by decide) hturn).elim

/-- A string: the machine has come to its closing quote. -/
theorem run_quoted_inv {close : Srec → Text → Srec} (hcloses : Closes state close)
    (hq : IsQuote q) (h : run turn n tok = some (.success, w)) (hquote : tok.quoteChar = q)
    (hstate : tok.top.state = state) (hfinish : state ≠ .finish)
    (hsaved : tok.top.savedState ≠ .finish) :
    ∃ m s r, m < n ∧ Quoted q tok.str s r ∧ Ran m r (close tok.top (tok.pb ++ s)) tok.below w := by
  have hnul : q ≠ '\x00' := by rcases hq with rfl | rfl <;> decide
  -- on the number of turns: an escape leads back into the string
  induction n using Nat.strongRecOn generalizing tok with
  | _ n ih =>
    have hturn := hcloses.turn_eq tok hstate
    rw [stringTurn_eq, hquote] at hturn
    dsimp only at hturn
    have hskip : ∀ c ∈ tok.str.takeWhile (fun c => !stopsString q c),
        c ≠ q ∧ c ≠ '\\' ∧ c ≠ '\x00' := by
      intro c hc
      simpa [stopsString, and_assoc] using List.mem_takeWhile_imp hc
    have hstop := stop_dropWhile (p := fun c => !stopsString q c) tok.str (by simp [stopsString])
    rw [← List.takeWhile_append_dropWhile (p := fun c => !stopsString q c) (l := tok.str)]
    generalize tok.str.takeWhile (fun c => !stopsString q c) = a at hturn hskip ⊢
    generalize tok.str.dropWhile (fun c => !stopsString q c) = l at hturn hstop ⊢
    by_cases hclose : peekChar l = q
    · obtain ⟨r, rfl⟩ := cons_of_peek hnul hclose
      rw [if_pos hclose, advance_cons rfl hnul] at hturn
      rcases run_goOn_inv h hturn with ⟨m, rfl, hrun⟩
      refine ⟨m, a ++ [], r, Nat.lt_succ_self m, quoted_skip hskip .close, ?_⟩
      rw [List.append_nil]
      exact ran_of_run hrun
    · rw [if_neg hclose] at hturn
      by_cases hescape : peekChar l = '\\'
      · obtain ⟨l, rfl⟩ := cons_of_peek (by decide) hescape
        rw [if_pos hescape, advance_cons rfl (by decide)] at hturn
        rcases run_goOn_inv h hturn with ⟨m, rfl, hrun⟩
        rcases run_stringEscape_inv hrun rfl with
          ⟨m₁, u, tok₁, hm₁, hrun₁, hpb, htop, hbelow, hquote₁, hadd⟩
        rcases ih m₁ (by omega) hrun₁ hquote₁ (by rw [htop]) (by rw [htop]; exact hfinish)
          with ⟨m₂, s, r, hm₂, hquoted, hran⟩
        refine ⟨m₂, a ++ (u ++ s), r, by omega, quoted_skip hskip (hadd hquoted), ?_⟩
        rw [htop, hcloses.close_eq, hcloses.close_eq, hpb, hbelow] at hran
        simpa using hran
      · -- the text ends here, and a string that is open is no success
        rw [if_neg hescape] at hturn
        have hend : peekChar l = '\x00' := by
          simpa [stopsString, hclose, hescape] using hstop
        have hleave := leave_end (run_out_inv h hturn) hend
        rw [hstate] at hleave
        exact (hleave.1.elim hfinish hsaved).elim

/-! ## Words -/

variable {w₁ w₂ s t : Text} {v₁ v₂ : Json}

/-- Enough characters without mismatch are the word. -/
theorem lower_of_strncasecmpEq
    (h : strncasecmpEq w₁ (pb ++ [c]) (min (pb.length + 1) w₁.length) = true)
    (hlen : pb.length = w₁.length) : lower pb = lower w₁ := by
  rw [hlen, Nat.min_eq_right (Nat.le_succ _), strncasecmpEq_iff, lower_append, ← length_lower w₁,
    List.take_length] at h
  rw [h, List.take_append_of_le_length (by rw [length_lower, length_lower, hlen]), length_lower,
    ← hlen, ← length_lower pb, List.take_length]

/-- One of the two words: the machine has come to its end. -/
theorem run_word_inv (h : run turn n tok = some (.success, w))
    (hturn : ∀ tok : Tokener, tok.top.state = state →
      turn tok = some (wordTurn tok w₁ v₁ w₂ v₂ err)) (herr : err ≠ .success)
    (hstate : tok.top.state = state) (hfinish : state ≠ .finish)
    (hsaved : tok.top.savedState ≠ .finish) (hpos : tok.stPos = tok.pb.length) :
    ∃ m s r v, m < n ∧ tok.str = s ++ r ∧
      (lower (tok.pb ++ s) = lower w₁ ∧ v = v₁ ∨ lower (tok.pb ++ s) = lower w₂ ∧ v = v₂) ∧
      Ran m r (tok.top.read v) tok.below w := by
  -- on the number of turns: each one takes a character, as long as a word goes on with it
  induction n using Nat.strongRecOn generalizing tok with
  | _ n ih =>
    have hword := hturn tok hstate
    -- the next character is taken
    have hmore : turn tok = some (advanceChar { tok with
          pb := tok.pb ++ [peekChar tok.str], stPos := tok.stPos + 1 }) →
        ∃ m s r v, m < n ∧ tok.str = s ++ r ∧
          (lower (tok.pb ++ s) = lower w₁ ∧ v = v₁ ∨ lower (tok.pb ++ s) = lower w₂ ∧ v = v₂) ∧
          Ran m r (tok.top.read v) tok.below w := by
      intro hadv
      rcases run_advance_inv h hadv with ⟨m, c, str, rfl, hstr, hc, hrun⟩ | ⟨-, hend, -⟩
      · replace hstr : tok.str = c :: str := hstr
        rcases ih m (Nat.lt_succ_self m) hrun hstate hsaved (by simp [hpos]) with
          ⟨m', s, r, v, hm', hs, hread, hran⟩
        refine ⟨m', c :: s, r, v, by omega, ?_, ?_, hran⟩
        · rw [hstr, show str = s ++ r from hs, List.cons_append]
        · rw [List.append_cons]
          simpa only [hstr, peek_cons] using hread
      · rw [hstate] at hend
        exact (hend.elim hfinish hsaved).elim
    -- the character behind a word is there
    have hdone : ∀ {v : Json} {w₀ : Text}, (v = v₁ ∧ w₀ = w₁ ∨ v = v₂ ∧ w₀ = w₂) →
        lower tok.pb = lower w₀ →
        turn tok = some (.goOn { tok with
          pb := tok.pb ++ [peekChar tok.str], top := tok.top.read v }) →
        ∃ m s r v, m < n ∧ tok.str = s ++ r ∧
          (lower (tok.pb ++ s) = lower w₁ ∧ v = v₁ ∨ lower (tok.pb ++ s) = lower w₂ ∧ v = v₂) ∧
          Ran m r (tok.top.read v) tok.below w := by
      intro v w₀ hv hlower hgo
      rcases run_goOn_inv h hgo with ⟨m, rfl, hrun⟩
      refine ⟨m, [], tok.str, v, Nat.lt_succ_self m, rfl, ?_, ran_of_run hrun⟩
      rw [List.append_nil, hlower]
      rcases hv with ⟨rfl, rfl⟩ | ⟨rfl, rfl⟩
      · exact .inl ⟨rfl, rfl⟩
      · exact .inr ⟨rfl, rfl⟩
    unfold wordTurn at hword
    dsimp only at hword
    split at hword
    · rename_i hfirst
      rw [hpos] at hfirst
      split at hword
      · rename_i hlen
        exact hdone (.inl ⟨rfl, rfl⟩) (lower_of_strncasecmpEq hfirst (hpos.symm.trans hlen)) hword
      · exact hmore hword
    · split at hword
      · rename_i hsecond
        rw [hpos] at hsecond
        split at hword
        · rename_i hlen
          exact hdone (.inr ⟨rfl, rfl⟩) (lower_of_strncasecmpEq hsecond (hpos.symm.trans hlen))
            hword
        · exact hmore hword
      · exact (run_error_inv h herr hword).elim

theorem wordLoop_inv {word : Text} (hnul : '\x00' ∉ word) (h : wordLoop word l = .ok r) :
    ∃ s, l = s ++ r ∧ lower s = word := by
  induction word generalizing l with
  | nil =>
    simp only [wordLoop, Except.ok.injEq] at h
    exact ⟨[], h, rfl⟩
  | cons d word ih =>
    rw [List.mem_cons, not_or] at hnul
    unfold wordLoop at h
    split at h
    · rename_i hd
      cases l with
      | nil => exact absurd hd hnul.1
      | cons c l =>
        rcases ih hnul.2 h with ⟨s, rfl, rfl⟩
        exact ⟨c :: s, rfl, by rw [← hd]; rfl⟩
    · simp at h

/-! ## Numbers -/

theorem numberLoop_inv {a : Text} {minus : ℕ} {isExponent isDouble d : Bool}
    (h : Scanned a minus isExponent isDouble)
    (hloop : numberLoop l a.length minus isExponent isDouble = some (d, r)) :
    ∃ b, l = b ++ r ∧ (∀ c ∈ b, isNumberChar c) ∧ isNumberChar (peekChar r) = false ∧
      (∀ a' c b', b = a' ++ c :: b' → MayFollow (a ++ a') c) ∧
      (d = true ↔ Fractional (a ++ b)) := by
  induction l generalizing a minus isExponent isDouble with
  | nil =>
    simp only [numberLoop, Option.some.injEq, Prod.mk.injEq] at hloop
    obtain ⟨rfl, rfl⟩ := hloop
    exact ⟨[], rfl, by simp, rfl, by simp, by rw [List.append_nil]; exact h.double⟩
  | cons c l ih =>
    by_cases hc : isNumberChar c = true
    · rcases (numberLoop_cons_iff h hc).mp hloop with ⟨hfollow, hmore⟩
      rcases ih (h.snoc c) hmore with ⟨b, rfl, hchars, hend, hfollow', hd⟩
      refine ⟨c :: b, rfl, by simpa [hc] using hchars, hend, ?_, by rwa [List.append_cons]⟩
      intro a' c' b' hb
      cases a' with
      | nil =>
        obtain rfl : c = c' := (List.cons.inj hb).1
        rwa [List.append_nil]
      | cons d' a' =>
        obtain ⟨rfl, rfl⟩ := List.cons.inj hb
        rw [List.append_cons]
        exact hfollow' a' c' b' rfl
    · unfold numberLoop at hloop
      rw [if_neg hc] at hloop
      simp only [Option.some.injEq, Prod.mk.injEq] at hloop
      obtain ⟨rfl, rfl⟩ := hloop
      refine ⟨[], rfl, by simp, by simpa [peek_cons] using hc, by simp, ?_⟩
      rw [List.append_nil]
      exact h.double

/-- `Infinity`. -/
theorem run_inf_inv (h : run turn n tok = some (.success, w)) (hstate : tok.top.state = .inf) :
    ∃ m s r, m < n ∧ tok.str = s ++ r ∧ lower s = "infinity".toList ∧
      Ran m r (tok.top.read (.double ((if tok.pb.head? = some '-' then ['-'] else []) ++
        "Infinity".toList))) tok.below w := by
  cases hloop : wordLoop "infinity".toList tok.str with
  | error str =>
    have herror : turn tok = some (out { tok with str := str } .parseUnexpected) := by
      simp only [turn, hstate, hloop]
    exact (run_error_inv h (by decide) herror).elim
  | ok str =>
    have hread : turn tok = some (.goOn { tok with
        str := str, top := tok.top.read (.double
          ((if tok.pb.head? = some '-' then ['-'] else []) ++ "Infinity".toList)) }) := by
      simp only [turn, hstate, hloop]
    rcases run_goOn_inv h hread with ⟨m, rfl, hrun⟩
    rcases wordLoop_inv (by decide) hloop with ⟨s, hs, hword⟩
    exact ⟨m, s, str, Nat.lt_succ_self m, hs, hword, ran_of_run hrun⟩

/-- What starts a number. -/
theorem starts_of_peek {t : Text} (hpeek : (peekChar (t ++ r)).isDigit ∨ peekChar (t ++ r) = '-')
    (hend : isNumberChar (peekChar r) = false) : t.head? = some '-' ∨ (t.headD ' ').isDigit := by
  cases t with
  | nil =>
    exfalso
    rw [List.nil_append] at hpeek
    rcases hpeek with hdigit | hminus
    · rw [isNumberChar_of_isDigit hdigit] at hend
      exact absurd hend (by decide)
    · rw [hminus] at hend
      exact absurd hend (by decide)
  | cons c t =>
    rw [List.cons_append, peek_cons] at hpeek
    simpa [or_comm] using hpeek

/-- A number, or minus infinity. -/
theorem run_number_inv (h : run turn n tok = some (.success, w)) (hstate : tok.top.state = .number)
    (hpb : tok.pb = []) (hdouble : tok.isDouble = false)
    (hpeek : (peekChar tok.str).isDigit ∨ peekChar tok.str = '-') :
    ∃ m v r, m < n ∧ Value k tok.str v r ∧ Ran m r (tok.top.read v) tok.below w := by
  have hturn : turn tok = some (numberTurn tok) := by simp only [turn, hstate]
  unfold numberTurn at hturn
  rw [hdouble, hpb] at hturn
  split at hturn
  · exact (run_error_inv h (by decide) hturn).elim
  · rename_i d r hloop
    rcases numberLoop_inv scanned_nil hloop with ⟨t, ht, hchars, hend, hfollow, hd⟩
    rw [ht] at hpeek ⊢
    rw [List.nil_append] at hd
    rw [ht, takeWhile_append_of_end hchars hend] at hturn
    dsimp only [List.nil_append] at hturn
    have hshape : NumberShape t := ⟨starts_of_peek hpeek hend, hchars, hfollow⟩
    split at hturn
    · -- a minus sign, and the first letter of the word behind it
      rename_i hinf
      obtain rfl : t = ['-'] := by
        cases t with
        | nil => simp at hinf
        | cons c t =>
          have hhead : c = '-' := by simpa using hinf.1
          have hlen := hinf.2.1
          rw [List.length_cons] at hlen
          rw [hhead, List.length_eq_zero_iff.mp (by omega : t.length = 0)]
      rcases run_goOn_inv h hturn with ⟨m, rfl, hrun⟩
      rcases run_inf_inv hrun rfl with ⟨m, s, r', hm, hs, hword, hran⟩
      replace hs : r = s ++ r' := hs
      exact ⟨m, _, r', by omega, hs ▸ .minusInfinity hword, hran⟩
    · split at hturn
      · rename_i hfrac
        split at hturn
        · rename_i hparse
          rcases run_goOn_inv h hturn with ⟨m, rfl, hrun⟩
          exact ⟨m, _, r, Nat.lt_succ_self m, .number (.double hshape (hd.mp hfrac) hparse) hend,
            ran_of_run hrun⟩
        · exact (run_error_inv h (by decide) hturn).elim
      · rename_i hfrac
        split at hturn
        · rename_i num64 hparse
          rcases run_goOn_inv h hturn with ⟨m, rfl, hrun⟩
          exact ⟨m, _, r, Nat.lt_succ_self m,
            .number (.int hshape (fun hf => hfrac (hd.mpr hf)) hparse) hend, ran_of_run hrun⟩
        · exact (run_error_inv h (by decide) hturn).elim

/-! ## Values -/

/-- The next character is known. -/
theorem run_advance_peek (h : run turn n tok = some (.success, w))
    (hturn : turn tok = some (advanceChar tok')) (hpeek : peekChar tok'.str = c) (hc : c ≠ '\x00') :
    ∃ m r, n = m + 1 ∧ tok'.str = c :: r ∧ Ran m r tok'.top tok'.below w := by
  rcases cons_of_peek hc hpeek with ⟨r, hr⟩
  rw [advance_cons hr hc] at hturn
  rcases run_goOn_inv h hturn with ⟨m, hm, hrun⟩
  exact ⟨m, r, hm, hr, ran_of_run hrun⟩

/-- A value that is no array and no object is read; an array or an object is opened. -/
theorem ran_start (h : Ran n l .begun below w) :
    (∃ m v r, m < n ∧ Value k l v r ∧ Ran m r (.done v) below w) ∨
      (∃ m r, m < n ∧ l = '[' :: r ∧
        Ran m r { Srec.begun.eat .array with current := .array [] } below w) ∨
      ∃ m r, m < n ∧ l = '\x7b' :: r ∧
        Ran m r { Srec.begun.eat .objectFieldStart with current := .object [] } below w := by
  rcases h with ⟨tok, rfl, htop, rfl, hrun⟩
  have hturn : turn tok = some (startTurn tok) := by simp [turn, htop, Srec.begun]
  unfold startTurn at hturn
  dsimp only at hturn
  rw [htop] at hturn
  split at hturn
  · rename_i hpeek
    rcases run_advance_peek hrun hturn hpeek (by decide) with ⟨m, r, rfl, hstr, hran⟩
    exact .inr (.inr ⟨m, r, Nat.lt_succ_self m, hstr, hran⟩)
  split at hturn
  · rename_i hpeek
    rcases run_advance_peek hrun hturn hpeek (by decide) with ⟨m, r, rfl, hstr, hran⟩
    exact .inr (.inl ⟨m, r, Nat.lt_succ_self m, hstr, hran⟩)
  left
  split at hturn
  · rcases run_goOn_inv hrun hturn with ⟨m, rfl, hrun'⟩
    rcases run_inf_inv hrun' rfl with ⟨m, s, r, hm, hs, hword, hran⟩
    replace hs : tok.str = s ++ r := hs
    exact ⟨m, _, r, by omega, hs ▸ .infinity hword, hran⟩
  split at hturn
  · rcases run_goOn_inv hrun hturn with ⟨m, rfl, hrun'⟩
    rcases run_word_inv hrun' turn_null (by decide) rfl (by decide)
      (by simp [Srec.begun, Srec.fresh]) rfl with ⟨m, s, r, v, hm, hs, hword, hran⟩
    replace hs : tok.str = s ++ r := hs
    rcases hword with ⟨hword, rfl⟩ | ⟨hword, rfl⟩
    · exact ⟨m, _, r, by omega, hs ▸ .null hword, hran⟩
    · exact ⟨m, _, r, by omega, hs ▸ .nan hword, hran⟩
  split at hturn
  · rename_i hquote
    have hq : IsQuote (peekChar tok.str) := hquote.symm
    have hnul : peekChar tok.str ≠ '\x00' := by
      rcases hquote with h | h <;> rw [h] <;> decide
    obtain ⟨r, hr⟩ := cons_of_peek hnul rfl
    generalize peekChar tok.str = q at hturn hq hnul hr
    rcases run_goOn_inv hrun (hturn.trans (congrArg some (advance_cons hr hnul)))
      with ⟨m, rfl, hrun'⟩
    rcases run_quoted_inv closes_string hq hrun' rfl rfl (by decide)
      (by simp [Srec.begun, Srec.fresh]) with ⟨m, s, r', hm, hquoted, hran⟩
    exact ⟨m, _, r', by omega, hr ▸ .string hq hquoted, hran⟩
  split at hturn
  · rcases run_goOn_inv hrun hturn with ⟨m, rfl, hrun'⟩
    rcases run_word_inv hrun' turn_boolean (by decide) rfl (by decide)
      (by simp [Srec.begun, Srec.fresh]) rfl with ⟨m, s, r, v, hm, hs, hword, hran⟩
    replace hs : tok.str = s ++ r := hs
    rcases hword with ⟨hword, rfl⟩ | ⟨hword, rfl⟩
    · exact ⟨m, _, r, by omega, hs ▸ .true hword, hran⟩
    · exact ⟨m, _, r, by omega, hs ▸ .false hword, hran⟩
  split at hturn
  · rename_i hpeek
    rcases run_goOn_inv hrun hturn with ⟨m, rfl, hrun'⟩
    rcases run_number_inv hrun' rfl rfl rfl hpeek with ⟨m, v, r, hm, hvalue, hran⟩
    exact ⟨m, v, r, by omega, hvalue, hran⟩
  · exact (run_error_inv hrun (by decide) hturn).elim

theorem blanks_ready (h : Blanks l r) (hready : Ready l) : r = l := by
  cases h with
  | nil => rfl
  | space hc => exact absurd hready.1 (by rw [peek_cons, hc]; decide)
  | block | line => exact absurd rfl hready.2

/-- Blanks that are not skipped behind a value. -/
theorem ran_blanks_next (h : Ran n l level below w) (hstate : level.state = .eatws)
    (hsaved : level.savedState ≠ .finish) :
    ∃ m r, m < n ∧ Blanks l r ∧ Ready r ∧
      Ran m r { level with state := level.savedState } below w := by
  rcases ran_blanks h hstate with hread | ⟨-, hfinish, -⟩
  · exact hread
  · exact absurd hfinish hsaved

/-- No blank is left to skip. -/
theorem ran_ready (h : Ran n l level below w) (hstate : level.state = .eatws)
    (hsaved : level.savedState ≠ .finish) (hready : Ready l) :
    ∃ m, m < n ∧ Ran m l { level with state := level.savedState } below w := by
  rcases ran_blanks_next h hstate hsaved with ⟨m, r, hm, hblanks, -, hran⟩
  rw [blanks_ready hblanks hready] at hran
  exact ⟨m, hm, hran⟩

/-- A level is opened for a value, as long as there are levels. -/
theorem ran_push {level' : Srec} (h : Ran n l level below w)
    (hpushes : Pushes l level level') (hready : Ready l) :
    below.length + 1 ≤ 31 ∧ ∃ m, m < n ∧ Ran m l .begun (level' :: below) w := by
  by_cases hdepth : JSON_TOKENER_DEFAULT_DEPTH - 1 ≤ below.length
  · exact (h.not_error fun tok hstr htop hbelow => ⟨tok, .depth, by
      rw [hpushes.turn_eq hstr htop, push, hbelow, if_pos hdepth], by decide⟩).elim
  · refine ⟨by unfold JSON_TOKENER_DEFAULT_DEPTH at hdepth; omega, ?_⟩
    rcases h.goOn (fun tok hstr htop hbelow =>
      ⟨{ tok with below := level' :: below, top := .fresh }, by
        rw [hpushes.turn_eq hstr htop, push, hbelow, if_neg hdepth, htop, hpushes.level_eq], hstr,
        rfl, rfl⟩)
      with ⟨m, rfl, hran⟩
    rcases ran_ready hran rfl (by decide) hready with ⟨m, hm, hran⟩
    exact ⟨m, by omega, hran⟩

/-- A value is given to the level that waits for it, or a comment behind it does not end. -/
theorem ran_pop {level' : Srec} (h : Ran n l (.done v) (level :: below) w)
    (hadd : Adds level v level') :
    (∃ m r, m < n ∧ Blanks l r ∧ Ran m r { level' with state := level'.savedState } below w) ∨
      (∃ r, Blanks l r ∧ Unended r) ∧ w = v := by
  rcases ran_blanks h rfl with ⟨m, r, hm, hblanks, hready, hran⟩ | ⟨hcomment, -, hw⟩
  · left
    rcases hran with ⟨tok, rfl, htop, hbelow, hrun⟩
    rcases run_goOn_inv hrun (turn_done htop hbelow) with ⟨m₁, rfl, hrun₁⟩
    rcases run_goOn_inv hrun₁ (hadd.turn_eq rfl rfl) with ⟨m₂, rfl, hrun₂⟩
    rcases ran_ready (ran_of_run hrun₂) hadd.skips.1 hadd.skips.2 hready with ⟨m₃, hm₃, hran⟩
    exact ⟨m₃, tok.str, by omega, hblanks, hran⟩
  · exact .inr ⟨hcomment, hw⟩

/-- A character that the state of a level takes. -/
theorem Ran.take (level' : Srec) (h : Ran n l level below w) (hpeek : peekChar l = c)
    (hc : c ≠ '\x00')
    (hturn : ∀ tok : Tokener, tok.str = l → tok.top = level → tok.below = below →
      turn tok = some (advanceChar { tok with top := level' })) :
    ∃ m r, m < n ∧ l = c :: r ∧ Ran m r level' below w := by
  rcases h with ⟨tok, rfl, htop, rfl, hrun⟩
  rcases run_advance_peek hrun (hturn tok rfl htop rfl) hpeek hc with ⟨m, r, rfl, hr, hran⟩
  exact ⟨m, r, Nat.lt_succ_self m, hr, hran⟩

/-- A run from the start of a value has read a value, or it ended in a comment inside. -/
def ReadValue (n : ℕ) : Prop :=
  ∀ {k : ℕ} {l : Text} {below : List Srec} {w : Json}, below.length + k = 31 →
    Ran n l .begun below w →
    (∃ m v r, m < n ∧ Value k l v r ∧ Ran m r (.done v) below w) ∨ Stops k l w

/-- A run inside of an array has read its rest. -/
def ReadElements (n : ℕ) : Prop :=
  ∀ {k : ℕ} {l : Text} {state saved : TokenerState} {vs : List Json} {below : List Srec} {w : Json},
    state = .array ∨ state = .arrayAfterSep → Ready l → below.length + k = 31 →
    Ran n l (.inArray state saved vs) below w →
    (∃ m ws r, m < n ∧ Elements k vs l ws r ∧ Ran m r (.done (.array ws)) below w) ∨
      ∃ k' r, k = k' + 1 ∧ PastElements k' l r ∧ Stops k' r w

/-- A run inside of an object has read its rest. -/
def ReadMembers (n : ℕ) : Prop :=
  ∀ {k : ℕ} {l : Text} {state saved : TokenerState} {ms : List (Text × Json)} {below : List Srec}
    {w : Json}, state = .objectFieldStart ∨ state = .objectFieldStartAfterSep →
    saved ≠ .finish → below.length + k = 31 →
    Ran n l (.inObject state saved ms none) below w →
    (∃ m ns r, m < n ∧ Members k ms l ns r ∧ Ran m r (.done (.object ns)) below w) ∨
      ∃ k' r, k = k' + 1 ∧ PastMembers k' l r ∧ Stops k' r w

/-- An element or the value of a member. -/
theorem ran_inside {level' : Srec} {added : Json → Srec} (hvalue : ∀ m < n, ReadValue m)
    (hdepth : below.length + k = 31) (hready : Ready l) (hpush : Pushes l level level')
    (hadd : ∀ v, Adds level' v (added v)) (h : Ran n l level below w) :
    ∃ k', k = k' + 1 ∧ ((∃ m v r r', m < n ∧ Value k' l v r ∧ Blanks r r' ∧
      Ran m r' { added v with state := (added v).savedState } below w) ∨ Stops k' l w) := by
  rcases ran_push h hpush hready with ⟨hbound, m, hm, hran⟩
  obtain ⟨k', rfl⟩ : ∃ k', k = k' + 1 := ⟨k - 1, by omega⟩
  refine ⟨k', rfl, ?_⟩
  rcases hvalue m hm (k := k') (by rw [List.length_cons]; omega) hran with
    ⟨m₁, v, r, hm₁, hv, hran₁⟩ | hstops
  · rcases ran_pop hran₁ (hadd v) with ⟨m₂, r', hm₂, hblanks, hran₂⟩ |
      ⟨⟨r', hblanks, hunended⟩, rfl⟩
    · exact .inl ⟨m₂, v, r, r', by omega, hv, hblanks, hran₂⟩
    · exact .inr (.here hv hblanks hunended)
  · exact .inr hstops

/-- Behind an element or a member. -/
theorem ran_sep {close : Char} {next : TokenerState} (h : Ran n l level below w)
    (hstate : level.state = .arraySep ∧ close = ']' ∧ next = .arrayAfterSep ∨
      level.state = .objectSep ∧ close = '\x7d' ∧ next = .objectFieldStartAfterSep) :
    ∃ m r, m < n ∧ (l = close :: r ∧ Ran m r (level.eat .finish) below w ∨
      ∃ r', l = ',' :: r' ∧ Blanks r' r ∧ Ready r ∧
        Ran m r { level with state := next, savedState := next } below w) := by
  by_cases hclose : peekChar l = close
  · rcases h.take (level.eat .finish) hclose
      (by rcases hstate with ⟨-, rfl, -⟩ | ⟨-, rfl, -⟩ <;> decide)
      (fun tok hstr htop hbelow => by
        rcases hstate with ⟨hs, rfl, -⟩ | ⟨hs, rfl, -⟩ <;> simp [turn, htop, hs, hstr, hclose])
      with ⟨m, r, hm, hr, hran⟩
    exact ⟨m, r, hm, .inl ⟨hr, hran⟩⟩
  · by_cases hcomma : peekChar l = ','
    · rcases h.take (level.eat next) hcomma (by decide) (fun tok hstr htop hbelow => by
        rcases hstate with ⟨hs, rfl, rfl⟩ | ⟨hs, rfl, rfl⟩ <;>
          simp [turn, htop, hs, hstr, hcomma]) with ⟨m, r', hm, hr, hran⟩
      rcases ran_blanks_next hran rfl (by
        rcases hstate with ⟨-, -, rfl⟩ | ⟨-, -, rfl⟩ <;> simp [Srec.eat]) with
        ⟨m', r, hm', hblanks, hready, hran'⟩
      exact ⟨m', r, by omega, .inr ⟨r', hr, hblanks, hready, hran'⟩⟩
    · -- anything else is an error, of its own kind in an array and in an object
      have herror : ∃ err : TokenerError, err ≠ .success ∧ ∀ tok : Tokener, tok.str = l →
          tok.top = level → turn tok = some (out tok err) := by
        rcases hstate with ⟨hs, rfl, -⟩ | ⟨hs, rfl, -⟩
        · exact ⟨.parseArray, by decide, fun tok hstr htop => by
            simp [turn, htop, hs, hstr, hclose, hcomma]⟩
        · exact ⟨.parseObjectValueSep, by decide, fun tok hstr htop => by
            simp [turn, htop, hs, hstr, hclose, hcomma]⟩
      rcases herror with ⟨err, herr, hturn⟩
      exact (h.not_error fun tok hstr htop _ => ⟨tok, err, hturn tok hstr htop, herr⟩).elim

/-- The rest of an array. -/
theorem readElements (hvalue : ∀ m < n, ReadValue m) (hmore : ∀ m < n, ReadElements m) :
    ReadElements n := by
  intro k l state saved vs below w hstate hready hdepth h
  by_cases hclose : peekChar l = ']'
  · rcases h.take (.done (.array vs)) hclose (by decide) (fun tok hstr htop hbelow => by
      rcases hstate with rfl | rfl <;> simp [turn, htop, Srec.inArray, hstr, hclose] <;> rfl) with
      ⟨m, r, hm, rfl, hran⟩
    exact .inl ⟨m, vs, r, hm, .close, hran⟩
  · rcases ran_inside hvalue hdepth hready (.inr ⟨hstate, hclose, rfl⟩)
      (fun v => .inl ⟨vs, rfl, rfl, rfl⟩) h with
      ⟨k', rfl, ⟨m, v, l₁, l₂, hm, hv, hblanks, hran⟩ | hstops⟩
    · rcases ran_sep hran (.inl ⟨rfl, rfl, rfl⟩) with
        ⟨m₁, r, hm₁, ⟨rfl, hran₁⟩ | ⟨l₃, rfl, hcomma, hready', hran₁⟩⟩
      · exact .inl ⟨m₁, _, r, by omega, .last hv hblanks, hran₁⟩
      · rcases hmore m₁ (by omega) (.inr rfl) hready' hdepth hran₁ with
          ⟨m₂, ws, r', hm₂, hws, hran₂⟩ | ⟨k'', r', hk, hpast, hstops⟩
        · exact .inl ⟨m₂, ws, r', by omega, .next hv hblanks hcomma hws, hran₂⟩
        · obtain rfl : k' = k'' := by omega
          exact .inr ⟨k', r', rfl, .next hv hblanks hcomma hpast, hstops⟩
    · exact .inr ⟨k', l, rfl, .here, hstops⟩

/-- The name of a member and its colon, or the end of the object. -/
theorem ran_name {ms : List (Text × Json)} (hstate : state = .objectFieldStart ∨
      state = .objectFieldStartAfterSep) (hsaved : saved ≠ .finish)
    (h : Ran n l (.inObject state saved ms none) below w) :
    (∃ m r, m < n ∧ l = '\x7d' :: r ∧ Ran m r (.done (.object ms)) below w) ∨
      ∃ m q l₀ s l₁ l₂ l₃, m < n ∧ l = q :: l₀ ∧ IsQuote q ∧ Quoted q l₀ s l₁ ∧
        Blanks l₁ (':' :: l₂) ∧ Blanks l₂ l₃ ∧ Ready l₃ ∧
        Ran m l₃ (.inObject .objectValue .objectValue ms (some (upToNul s))) below w := by
  by_cases hclose : peekChar l = '\x7d'
  · rcases h.take (.done (.object ms)) hclose (by decide) (fun tok hstr htop hbelow => by
      rcases hstate with rfl | rfl <;> simp [turn, htop, Srec.inObject, hstr, hclose] <;> rfl) with
      ⟨m, r, hm, rfl, hran⟩
    exact .inl ⟨m, r, hm, rfl, hran⟩
  right
  by_cases hq : IsQuote (peekChar l)
  · have hnul : peekChar l ≠ '\x00' := by
      rcases hq with h | h <;> rw [h] <;> decide
    obtain ⟨l₀, hl⟩ := cons_of_peek hnul rfl
    generalize peekChar l = q at hclose hq hnul hl
    subst hl
    rcases h with ⟨tok, hstr, htop, rfl, hrun⟩
    rcases run_goOn_inv hrun (turn_fieldStart hstate hq hstr htop) with ⟨m, rfl, hrun'⟩
    rcases run_quoted_inv closes_objectField hq hrun' rfl rfl (by decide)
      (by rw [htop]; exact hsaved) with ⟨m₁, s, l₁, hm₁, hquoted, hran⟩
    rw [htop] at hran
    rcases ran_blanks_next hran rfl (by simp [Srec.eat]) with ⟨m₂, l₂, hm₂, hblanks, -, hran₂⟩
    by_cases hcolon : peekChar l₂ = ':'
    · rcases hran₂.take (.eat (.inObject state saved ms (some (upToNul s))) .objectValue)
        hcolon (by decide) (fun tok hstr htop hbelow => by
          simp [turn, htop, Srec.inObject, Srec.eat, hstr, hcolon]) with ⟨m₃, l₃, hm₃, rfl, hran₃⟩
      rcases ran_blanks_next hran₃ rfl (by simp [Srec.eat]) with
        ⟨m₄, l₄, hm₄, hblanks', hready, hran₄⟩
      exact ⟨m₄, q, l₀, s, l₁, l₃, l₄, by omega, rfl, hq, hquoted, hblanks, hblanks', hready, hran₄⟩
    · exact (hran₂.not_error fun tok hstr htop _ => ⟨tok, .parseObjectKeySep, by
        simp [turn, htop, Srec.eat, hstr, hcolon], by decide⟩).elim
  · unfold IsQuote at hq
    exact (h.not_error fun tok hstr htop _ => ⟨tok, .parseObjectKeyName, by
      rcases hstate with rfl | rfl <;> simp [turn, htop, Srec.inObject, hstr, hclose, hq],
      by decide⟩).elim

/-- The rest of an object. -/
theorem readMembers (hvalue : ∀ m < n, ReadValue m) (hmore : ∀ m < n, ReadMembers m) :
    ReadMembers n := by
  intro k l state saved ms below w hstate hsaved hdepth h
  rcases ran_name hstate hsaved h with ⟨m, r, hm, rfl, hran⟩ |
    ⟨m, q, l₀, s, l₁, l₂, l₃, hm, rfl, hq, hquoted, hcolon, hafter, hready, hran⟩
  · exact .inl ⟨m, ms, r, hm, .close, hran⟩
  · rcases ran_inside (fun m' hm' => hvalue m' (by omega)) hdepth hready (.inl ⟨rfl, rfl⟩)
      (fun v => .inr ⟨ms, _, rfl, rfl, rfl, rfl⟩) hran with
      ⟨k', rfl, ⟨m₁, v, l₄, l₅, hm₁, hv, hblanks, hran₁⟩ | hstops⟩
    · rcases ran_sep hran₁ (.inr ⟨rfl, rfl, rfl⟩) with
        ⟨m₂, r, hm₂, ⟨rfl, hran₂⟩ | ⟨l₆, rfl, hcomma, -, hran₂⟩⟩
      · exact .inl ⟨m₂, _, r, by omega, .last hq hquoted hcolon hafter hv hblanks, hran₂⟩
      · rcases hmore m₂ (by omega) (.inr rfl) (by decide) hdepth hran₂ with
          ⟨m₃, ns, r', hm₃, hns, hran₃⟩ | ⟨k'', r', hk, hpast, hstops⟩
        · exact .inl ⟨m₃, ns, r', by omega,
            .next hq hquoted hcolon hafter hv hblanks hcomma hns, hran₃⟩
        · obtain rfl : k' = k'' := by omega
          exact .inr ⟨k', r', rfl, .next hq hquoted hcolon hafter hv hblanks hcomma hpast, hstops⟩
    · exact .inr ⟨k', l₃, rfl, .here hq hquoted hcolon hafter, hstops⟩

/-- A value. -/
theorem readValue (helements : ∀ m < n, ReadElements m) (hmembers : ∀ m < n, ReadMembers m) :
    ReadValue n := by
  intro k l below w hdepth h
  rcases ran_start h with hread | ⟨m, r, hm, rfl, hran⟩ | ⟨m, r, hm, rfl, hran⟩
  · exact .inl hread
  · rcases ran_blanks_next hran rfl (by simp [Srec.eat]) with
      ⟨m₁, l₁, hm₁, hblanks, hready, hran₁⟩
    rcases helements m₁ (by omega) (.inl rfl) hready hdepth hran₁ with
      ⟨m₂, ws, r', hm₂, hws, hran₂⟩ | ⟨k', r', rfl, hpast, hstops⟩
    · exact .inl ⟨m₂, _, r', by omega, .array hblanks hws, hran₂⟩
    · exact .inr (.element hblanks hpast hstops)
  · rcases ran_blanks_next hran rfl (by simp [Srec.eat]) with
      ⟨m₁, l₁, hm₁, hblanks, hready, hran₁⟩
    rcases hmembers m₁ (by omega) (.inl rfl) (by decide) hdepth hran₁ with
      ⟨m₂, ns, r', hm₂, hns, hran₂⟩ | ⟨k', r', rfl, hpast, hstops⟩
    · exact .inl ⟨m₂, _, r', by omega, .object hblanks hns, hran₂⟩
    · exact .inr (.member hblanks hpast hstops)

theorem read_all (n : ℕ) : ReadValue n ∧ ReadElements n ∧ ReadMembers n := by
  -- all three together, on the number of turns: each part of a value is read in fewer of them
  induction n using Nat.strongRecOn with
  | _ n ih =>
    have hvalue : ∀ m < n, ReadValue m := fun m hm => (ih m hm).1
    exact ⟨readValue (fun m hm => (ih m hm).2.1) (fun m hm => (ih m hm).2.2),
      readElements hvalue (fun m hm => (ih m hm).2.1),
      readMembers hvalue (fun m hm => (ih m hm).2.2)⟩

/-! ## Texts -/

/-- A run over a whole text has read a text of the grammar. -/
theorem textOf_of_ran (h : Ran n l .fresh [] w) : TextOf w l := by
  rcases ran_blanks_next h rfl (by decide) with ⟨m, l₁, hm, hblanks, -, hran⟩
  rcases (read_all m).1 (k := 31) rfl hran with ⟨m₁, v, r, hm₁, hv, hran₁⟩ | hstops
  · -- behind the value the machine is out at the next character that is no blank
    rcases ran_blanks hran₁ rfl with ⟨m₂, r', hm₂, hafter, hready, tok, rfl, htop, hbelow, hrun⟩ |
      ⟨⟨r', hafter, hunended⟩, -, rfl⟩
    · have hturn : turn tok = some (out tok .success) := by
        simp [turn, htop, hbelow, Srec.done, Srec.read]
      have hleave := (leave_success (.inr (by rw [htop]; rfl))).symm.trans (run_out_inv hrun hturn)
      obtain rfl : v = w := by
        rw [htop] at hleave
        exact (Prod.mk.inj hleave).2
      exact .whole hblanks hv hafter hready
    · exact .stopped hblanks (.here hv hafter hunended)
  · exact .stopped hblanks hstops

/-- The tokener succeeds on the texts of the grammar, with their value, as long as the text is
not longer than an `int` can say. -/
theorem parseVerbose_iff : jsonTokenerParseVerbose l = some (.success, v) ↔
    (upToNul l).length ≤ INT_MAX.1 ∧ TextOf v l := by
  constructor
  · intro h
    unfold jsonTokenerParseVerbose at h
    split at h
    · simp at h
    · rename_i hlen
      exact ⟨by omega, textOf_of_ran (ran_of_run h)⟩
  · rintro ⟨hlen, htext⟩
    exact parseVerbose_textOf htext hlen

/-- What `json_tokener_parse` accepts, and the values it reads. -/
theorem jsonTokenerParse_iff : jsonTokenerParse l = some v ↔
    v ≠ .null ∧ (upToNul l).length ≤ INT_MAX.1 ∧ TextOf v l := by
  rw [← parseVerbose_iff]
  unfold jsonTokenerParse
  constructor
  · intro h
    split at h
    · simp at h
    · rename_i u hnull hread
      simp only [Option.some.injEq] at h
      subst h
      refine ⟨?_, hread⟩
      rintro rfl
      exact hnull rfl
    · simp at h
  · rintro ⟨hnull, hread⟩
    rw [hread]
    cases v <;> first | exact absurd rfl hnull | rfl

end MqttMsgHub
