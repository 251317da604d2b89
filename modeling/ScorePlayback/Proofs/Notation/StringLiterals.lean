import ScorePlayback.Proofs.Notation.Printing

/-! # Where strings end

A string goes from a quote outside of comments and strings to the next quote that is not escaped. A
text that stops inside a string is refused at its quote. But if its last character is an escape mark
that is not escaped itself, the end of the text ends the string, too. -/

namespace ScorePlayback

/-! ## Texts without an open string -/

/-- What is written behind the quote of a string so far, and the text that it stands for. Behind an
escape mark any character stands for itself. -/
inductive IsInside : List Char → List Char → Prop where
  | nil : IsInside [] []
  | plain {written text : List Char} (h : IsInside written text) {c : Char}
      (hquote : c ≠ quoteMark) (hescape : c ≠ escapeMark) : IsInside (written ++ [c]) (text ++ [c])
  | escaped {written text : List Char} (h : IsInside written text) (c : Char) :
      IsInside (written ++ [escapeMark, c]) (text ++ [c])

/-- An atom does not go on behind the text. -/
def EndsNoAtom (front : List Char) : Prop := ∀ c ∈ front.getLast?, isAtomChar c = false

/-- A text that ends outside of comments and strings. An atom at its end may go on. -/
inductive IsOutside : List Char → Prop where
  | nil : IsOutside []
  | separator {front : List Char} (h : IsOutside front) {c : Char}
      (hc : isBlank c = true ∨ c = '(' ∨ c = ')') : IsOutside (front ++ [c])
  | comment {front : List Char} (h : IsOutside front) (hends : EndsNoAtom front) {text : List Char}
      (hline : '\n' ∉ text) : IsOutside (front ++ ('/' :: '/' :: text ++ ['\n']))
  | atom {front : List Char} (h : IsOutside front) (hends : EndsNoAtom front) {text : List Char}
      (htext : (Lexeme.atom (String.ofList text)).IsPrintable) : IsOutside (front ++ text)
  | string {front : List Char} (h : IsOutside front) {written text : List Char}
      (hinside : IsInside written text) :
      IsOutside (front ++ (quoteMark :: written ++ [quoteMark]))

/-- If the token is a string, it begins at a quote where a token can begin, and a later quote that
is not escaped ends it. -/
def Token.IsTerminated (source : List Char) (token : Token) : Prop :=
  ∀ text, token.lexeme = .quoted text → ∃ front written behind, IsOutside front ∧
    IsInside written text.toList ∧ token.position = .behind front ∧
      source = front ++ (quoteMark :: written ++ quoteMark :: behind)

/-- The token is a string that no quote ends: the text stops behind an escape mark inside it. -/
def Token.StopsEscaped (source : List Char) (token : Token) : Prop :=
  ∃ front written text, IsOutside front ∧ IsInside written text ∧
    token = ⟨.quoted (String.ofList text), .behind front⟩ ∧
      source = front ++ (quoteMark :: written ++ [escapeMark])

theorem Token.IsTerminated.append {source : List Char} {token : Token}
    (h : token.IsTerminated source) (more : List Char) : token.IsTerminated (source ++ more) := by
  intro text htext
  obtain ⟨front, written, behind, hfront, hinside, hposition, rfl⟩ := h text htext
  exact ⟨front, written, behind ++ more, hfront, hinside, hposition, by simp⟩

theorem endsNoAtom_concat {front : List Char} {c : Char} (hc : isAtomChar c = false) :
    EndsNoAtom (front ++ [c]) := by
  simpa [EndsNoAtom] using hc

theorem isAtomChar_of_separator {c : Char} (hc : isBlank c = true ∨ c = '(' ∨ c = ')') :
    isAtomChar c = false := by
  rcases hc with hblank | rfl | rfl
  · simp [isAtomChar, hblank]
  · rfl
  · rfl

/-! ## The scanner knows where it is -/

namespace ScanMode

/-- The mode behind a text. -/
inductive IsBehind : List Char → ScanMode → Prop where
  | between {front : List Char} (h : IsOutside front) (hends : EndsNoAtom front) :
      IsBehind front .between
  | slash {front : List Char} (h : IsOutside front) (hends : EndsNoAtom front) :
      IsBehind (front ++ ['/']) (.slash (.behind front))
  | comment {front : List Char} (h : IsOutside front) (hends : EndsNoAtom front) {text : List Char}
      (hline : '\n' ∉ text) : IsBehind (front ++ '/' :: '/' :: text) .comment
  | atom {front : List Char} (h : IsOutside front) (hends : EndsNoAtom front) {text : List Char}
      (htext : (Lexeme.atom (String.ofList text)).IsPrintable) (hslash : text ≠ ['/']) :
      IsBehind (front ++ text) (.atom (.behind front) text.reverse)
  | quoted {front : List Char} (h : IsOutside front) {written text : List Char}
      (hinside : IsInside written text) :
      IsBehind (front ++ quoteMark :: written) (.quoted (.behind front) text.reverse)
  | escaped {front : List Char} (h : IsOutside front) {written text : List Char}
      (hinside : IsInside written text) :
      IsBehind (front ++ (quoteMark :: written ++ [escapeMark]))
        (.escaped (.behind front) text.reverse)

theorem isPrintable_singleton {c : Char} (hc : isAtomChar c = true) :
    (Lexeme.atom (String.ofList [c])).IsPrintable := by
  simp [Lexeme.IsPrintable, hc]

theorem isPrintable_concat {text : List Char} {c : Char}
    (htext : (Lexeme.atom (String.ofList text)).IsPrintable) (hslash : text ≠ ['/'] ∨ c ≠ '/')
    (hc : isAtomChar c = true) : (Lexeme.atom (String.ofList (text ++ [c]))).IsPrintable := by
  simp only [Lexeme.IsPrintable, String.toList_ofList] at htext ⊢
  obtain ⟨hne, hchars, hcomment⟩ := htext
  refine ⟨by simp, List.forall_mem_append.mpr ⟨hchars, List.forall_mem_singleton.mpr hc⟩, ?_⟩
  cases text with
  | nil => exact absurd rfl hne
  | cons first rest =>
      cases rest with
      | nil =>
          rintro ⟨behind, hbehind⟩
          simp only [List.cons_append, List.nil_append, List.cons.injEq] at hbehind
          obtain ⟨rfl, rfl, -⟩ := hbehind
          simp at hslash
      | cons second rest => simpa using hcomment

/-- A character starts something behind a text where no atom goes on with it. -/
theorem isBehind_startToken {front : List Char} (h : IsOutside front) {c : Char}
    (hends : isAtomChar c = true → EndsNoAtom front) :
    IsBehind (front ++ [c]) (startToken (.behind front) c).1 := by
  have hseparator (hc : isBlank c = true ∨ c = '(' ∨ c = ')') :
      IsBehind (front ++ [c]) .between :=
    .between (h.separator hc) (endsNoAtom_concat (isAtomChar_of_separator hc))
  unfold startToken
  split
  · next hopen => exact hseparator (.inr (.inl hopen))
  split
  · next hclose => exact hseparator (.inr (.inr hclose))
  split
  · next hquote =>
    subst hquote
    exact .quoted h .nil
  split
  · next hslash =>
    subst hslash
    exact .slash h (hends rfl)
  split
  · next hblank => exact hseparator (.inl hblank)
  · next hopen hclose hquote hslash hblank =>
    have hc : isAtomChar c = true := by simp [isAtomChar, hopen, hclose, hquote, hblank]
    exact .atom h (hends hc) (isPrintable_singleton hc) (by simpa using hslash)

theorem isBehind_extendAtom {front text : List Char} (h : IsOutside front)
    (hends : EndsNoAtom front) (htext : (Lexeme.atom (String.ofList text)).IsPrintable) {c : Char}
    (hslash : text ≠ ['/'] ∨ c ≠ '/') : IsBehind (front ++ text ++ [c])
      (extendAtom (.behind front) text.reverse (.behind (front ++ text)) c).1 := by
  unfold extendAtom
  split
  · next hc =>
    have hne : text ++ [c] ≠ ['/'] := by
      intro heq
      have hnil : text = [] := by
        have hlength := congrArg List.length heq
        simpa using hlength
      exact htext.1 (by simp [hnil])
    have hatom := IsBehind.atom h hends (isPrintable_concat htext hslash hc) hne
    simpa using hatom
  · next hc => exact isBehind_startToken (h.atom hends htext) fun htrue => absurd htrue hc

/-- Each character leads to the mode behind it. -/
theorem IsBehind.step {read : List Char} {mode : ScanMode} (h : IsBehind read mode) (c : Char) :
    IsBehind (read ++ [c]) (mode.step (.behind read) c).1 := by
  cases h with
  | between h hends => exact isBehind_startToken h fun _ => hends
  | slash h hends =>
      rw [ScanMode.step]
      split
      · next hc =>
        subst hc
        simpa using IsBehind.comment h hends (List.not_mem_nil (a := '\n'))
      · next hc => exact isBehind_extendAtom h hends (isPrintable_singleton rfl) (.inr hc)
  | @comment front h hends text hline =>
      rw [ScanMode.step]
      split
      · next hc =>
        subst hc
        have houtside := h.comment hends hline
        rw [← List.append_assoc] at houtside
        exact .between houtside (endsNoAtom_concat rfl)
      · next hc =>
        have hmore : '\n' ∉ text ++ [c] := by
          simpa [hline] using fun heq : '\n' = c => hc heq.symm
        simpa using IsBehind.comment h hends hmore
  | atom h hends htext hslash => exact isBehind_extendAtom h hends htext (.inl hslash)
  | @quoted front h written text hinside =>
      rw [ScanMode.step]
      split
      · next hquote =>
        subst hquote
        have houtside := h.string hinside
        rw [← List.append_assoc] at houtside
        exact .between houtside (endsNoAtom_concat rfl)
      split
      · next hescape =>
        subst hescape
        simpa using IsBehind.escaped h hinside
      · next hquote hescape => simpa using IsBehind.quoted h (hinside.plain hquote hescape)
  | escaped h hinside => simpa [ScanMode.step] using IsBehind.quoted h (hinside.escaped c)

/-- Of the strings that a character completes, the quotes are in the text. -/
theorem IsBehind.isTerminated_step {read : List Char} {mode : ScanMode} (h : IsBehind read mode)
    (c : Char) : ∀ token ∈ (mode.step (.behind read) c).2, token.IsTerminated (read ++ [c]) := by
  have hnone : ∀ token ∈ ([] : List Token), token.IsTerminated (read ++ [c]) :=
    List.forall_mem_nil _
  have hstart (p : Position) : ∀ token ∈ (startToken p c).2, token.IsTerminated (read ++ [c]) := by
    unfold startToken
    repeat' split
    all_goals simp [Token.IsTerminated]
  have hextend (start p : Position) (text : List Char) :
      ∀ token ∈ (extendAtom start text p c).2, token.IsTerminated (read ++ [c]) := by
    unfold extendAtom
    split
    · exact hnone
    · refine List.forall_mem_cons.mpr ⟨fun text htext => ?_, hstart p⟩
      cases htext
  cases h with
  | between h hends => exact hstart _
  | slash h hends =>
      rw [ScanMode.step]
      split
      · exact hnone
      · exact hextend _ _ _
  | comment h hends hline =>
      rw [ScanMode.step]
      split
      · exact hnone
      · exact hnone
  | atom h hends htext hslash => exact hextend _ _ _
  | @quoted front h written text hinside =>
      rw [ScanMode.step]
      split
      · next hquote =>
        subst hquote
        refine List.forall_mem_singleton.mpr fun found hfound => ?_
        obtain rfl : String.ofList text = found := by
          simpa [quotedToken] using hfound
        exact ⟨front, written, [], h, by simpa using hinside, rfl, by simp⟩
      · split
        · exact hnone
        · exact hnone
  | escaped h hinside => exact hnone

end ScanMode

namespace Scanner

/-- The scanner behind a text. -/
structure IsBehind (read : List Char) (s : Scanner) : Prop where
  position : s.position = .behind read
  mode : s.mode.IsBehind read
  tokens : ∀ token ∈ s.tokens, token.IsTerminated read

theorem IsBehind.step {read : List Char} {s : Scanner} (h : s.IsBehind read) (c : Char) :
    (s.step c).IsBehind (read ++ [c]) where
  position := by
    rw [Position.behind_concat, ← h.position]
    rfl
  mode := by
    have hmode := h.mode.step c
    rw [← h.position] at hmode
    exact hmode
  tokens := by
    have hnew := h.mode.isTerminated_step c
    rw [← h.position] at hnew
    refine List.forall_mem_append.mpr ⟨fun token htoken => ?_, fun token htoken => ?_⟩
    · exact hnew token (List.mem_reverse.mp htoken)
    · exact (h.tokens token htoken).append [c]

theorem isBehind_foldl (source : List Char) : (source.foldl step initial).IsBehind source := by
  induction source using List.reverseRecOn with
  | nil => exact ⟨rfl, .between .nil nofun, nofun⟩
  | append_singleton source c ih =>
      rw [List.foldl_append]
      exact ih.step c

/-! ## The scanner follows the text -/

/-- The inside of a string. -/
theorem foldl_step_inside {written text : List Char} (h : IsInside written text)
    (start p : Position) (tokens : List Token) :
    written.foldl step ⟨.quoted start [], p, tokens⟩ =
      ⟨.quoted start text.reverse, written.foldl Position.after p, tokens⟩ := by
  induction h with
  | nil => rfl
  | plain h hquote hescape ih =>
      rw [List.foldl_append, ih, List.foldl_append]
      simp [step, ScanMode.step, hquote, hescape]
  | escaped h c ih =>
      have hmark : escapeMark ≠ quoteMark := by decide
      rw [List.foldl_append, ih, List.foldl_append]
      simp [step, ScanMode.step, hmark]

/-- A character that no atom has begins something, whatever is in front of it. -/
def TakesTokens (s : Scanner) : Prop :=
  ∀ p c, isAtomChar c = false → (s.mode.step p c).1 = (ScanMode.startToken p c).1

theorem takesTokens_of_reading {s : Scanner} {start : Position} {read : List Char}
    (h : s.mode = reading start read) : s.TakesTokens := by
  intro p c hc
  rw [h]
  by_cases hslash : read = ['/']
  · have hother : c ≠ '/' := by
      rintro rfl
      exact absurd hc (by decide)
    simp [reading, hslash, ScanMode.step, hother, ScanMode.extendAtom, hc]
  · simp [reading, hslash, ScanMode.step, ScanMode.extendAtom, hc]

theorem takesTokens_of_between {s : Scanner} (h : s.mode = .between) : s.TakesTokens := by
  intro p c _
  rw [h]
  rfl

theorem TakesTokens.mode_foldl_string {s : Scanner} (h : s.TakesTokens) {written text : List Char}
    (hinside : IsInside written text) :
    ((quoteMark :: written).foldl step s).mode = .quoted s.position text.reverse := by
  have hquote : (s.step quoteMark).mode = .quoted s.position [] := h s.position quoteMark rfl
  rw [List.foldl_cons]
  generalize s.step quoteMark = opened at hquote
  obtain ⟨mode, position, tokens⟩ := opened
  obtain rfl : mode = .quoted s.position [] := hquote
  rw [foldl_step_inside hinside]

/-- Outside of comments and strings a token can begin. -/
theorem takesTokens_of_isOutside {front : List Char} (h : IsOutside front) :
    (front.foldl step initial).TakesTokens ∧
      (EndsNoAtom front → (front.foldl step initial).mode = .between) := by
  induction h with
  | nil => exact ⟨takesTokens_of_between rfl, fun _ => rfl⟩
  | @separator front h c hc ih =>
      have hbetween : ((front ++ [c]).foldl step initial).mode = .between := by
        rw [List.foldl_append]
        refine (ih.1 _ c (isAtomChar_of_separator hc)).trans ?_
        rcases hc with hblank | rfl | rfl
        · exact congrArg Prod.fst (step_between_of_isBlank hblank _)
        · rfl
        · rfl
      exact ⟨takesTokens_of_between hbetween, fun _ => hbetween⟩
  | @comment front h hends text hline ih =>
      have hbetween : ((front ++ ('/' :: '/' :: text ++ ['\n'])).foldl step initial).mode =
          .between := by
        have hmode := ih.2 hends
        rw [List.foldl_append, List.foldl_append]
        generalize front.foldl step initial = s at hmode
        obtain ⟨mode, position, tokens⟩ := s
        obtain rfl : mode = .between := hmode
        rw [foldl_step_comment hline]
        rfl
      exact ⟨takesTokens_of_between hbetween, fun _ => hbetween⟩
  | @atom front h hends text htext ih =>
      have hready : front.foldl step initial =
          ready front (front.foldl step initial).tokens.reverse := by
        rw [ready, List.reverse_reverse, ← (isBehind_foldl front).position, ← ih.2 hends]
      have hmode : ((front ++ text).foldl step initial).mode =
          reading (.behind front) text.reverse := by
        have hatom := foldl_step_atom htext front (front.foldl step initial).tokens.reverse
        rw [String.toList_ofList] at hatom
        rw [List.foldl_append, hready, hatom]
      refine ⟨takesTokens_of_reading hmode, fun hlast => ?_⟩
      obtain ⟨hne, hchars, -⟩ := htext
      rw [String.toList_ofList] at hne hchars
      have hatomChar := hchars _ (List.getLast_mem hne)
      have hother := hlast (text.getLast hne)
        (by simp [List.getLast?_append, List.getLast?_eq_some_getLast hne])
      simp [hatomChar] at hother
  | @string front h written text hinside ih =>
      have hbetween : ((front ++ (quoteMark :: written ++ [quoteMark])).foldl step initial).mode =
          .between := by
        have hquoted := ih.1.mode_foldl_string hinside
        rw [List.foldl_append, List.foldl_append]
        generalize (quoteMark :: written).foldl step (front.foldl step initial) = s at hquoted
        obtain ⟨mode, position, tokens⟩ := s
        obtain rfl : mode = _ := hquoted
        rfl
      exact ⟨takesTokens_of_between hbetween, fun _ => hbetween⟩

theorem mode_of_isOutside {front written text : List Char} (h : IsOutside front)
    (hinside : IsInside written text) :
    ((front ++ quoteMark :: written).foldl step initial).mode =
      .quoted (.behind front) text.reverse := by
  rw [List.foldl_append, ← (isBehind_foldl front).position]
  exact (takesTokens_of_isOutside h).1.mode_foldl_string hinside

end Scanner

/-! ## Texts that stop inside a string -/

/-- What becomes of the strings of a text when it is scanned. -/
structure EndsStrings (source : List Char) (result : Except ParseError (List Token)) : Prop where
  /-- A text is refused if it stops inside a string, but not behind an escape mark there. The error
  is at the quote of this string. -/
  refused : ∀ e, result = .error e ↔ ∃ front written text, IsOutside front ∧
    IsInside written text ∧ source = front ++ quoteMark :: written ∧
      e = ⟨.unterminatedString, .behind front⟩
  /-- All strings of other texts are ended by quotes, except the last one perhaps. -/
  terminated : ∀ tokens, result = .ok tokens → ∀ token ∈ tokens, token.IsTerminated source ∨
    token.StopsEscaped source ∧ tokens.getLast? = some token
  /-- Behind an escape mark the end of the text ends a string. -/
  escaped : ∀ token, token.StopsEscaped source → ∃ tokens, result = .ok (tokens ++ [token])

namespace Scanner

variable {read : List Char} {s : Scanner}

/-- The scanner refuses a text only inside a string. -/
theorem IsBehind.exists_of_finish_error (h : s.IsBehind read) {e : ParseError}
    (herror : s.finish = .error e) : ∃ front written text, IsOutside front ∧
      IsInside written text ∧ read = front ++ quoteMark :: written ∧
        e = ⟨.unterminatedString, .behind front⟩ := by
  obtain ⟨mode, position, tokens⟩ := s
  obtain ⟨-, hmode, -⟩ := h
  cases hmode with
  | quoted hfront hinside => exact ⟨_, _, _, hfront, hinside, rfl, (Except.error.inj herror).symm⟩
  | _ => cases herror

/-- The strings that the end of a text completes. -/
theorem IsBehind.isTerminated_of_finish (h : s.IsBehind read) {tokens : List Token}
    (hfinish : s.finish = .ok tokens) : ∀ token ∈ tokens, token.IsTerminated read ∨
      token.StopsEscaped read ∧ tokens.getLast? = some token := by
  obtain ⟨mode, position, found⟩ := s
  obtain ⟨-, hmode, hfound⟩ := h
  have hbefore {last : List Token} (hlast : ∀ token ∈ last, token.IsTerminated read ∨
      token.StopsEscaped read ∧ (found.reverse ++ last).getLast? = some token) :
      ∀ token ∈ found.reverse ++ last, token.IsTerminated read ∨
        token.StopsEscaped read ∧ (found.reverse ++ last).getLast? = some token :=
    List.forall_mem_append.mpr
      ⟨fun token htoken => .inl (hfound token (List.mem_reverse.mp htoken)), hlast⟩
  cases hmode with
  | between | comment =>
      obtain rfl := Except.ok.inj hfinish
      exact hbefore nofun
  | slash | atom =>
      obtain rfl := Except.ok.inj hfinish
      exact hbefore (List.forall_mem_singleton.mpr (.inl nofun))
  | quoted => cases hfinish
  | escaped hfront hinside =>
      obtain rfl := Except.ok.inj hfinish
      refine hbefore <| List.forall_mem_singleton.mpr <|
        .inr ⟨⟨_, _, _, hfront, hinside, ?_, rfl⟩, ?_⟩
      · rw [ScanMode.quotedToken, List.reverse_reverse]
      · exact List.getLast?_concat

end Scanner

/-- A string that is never ended by a quote is refused where it begins, unless the text stops behind
an escape mark in it. -/
theorem endsStrings_scan (source : String) : EndsStrings source.toList (scan source) := by
  unfold scan
  generalize source.toList = read
  have hbehind := Scanner.isBehind_foldl read
  refine ⟨fun e => ⟨hbehind.exists_of_finish_error, ?_⟩,
    fun tokens => hbehind.isTerminated_of_finish, ?_⟩
  · rintro ⟨front, written, text, hfront, hinside, rfl, rfl⟩
    rw [Scanner.finish, Scanner.mode_of_isOutside hfront hinside]
    rfl
  · rintro token ⟨front, written, text, hfront, hinside, rfl, rfl⟩
    have hmode := Scanner.mode_of_isOutside hfront hinside
    rw [← List.append_assoc, List.foldl_append]
    generalize (front ++ quoteMark :: written).foldl Scanner.step Scanner.initial = s at hmode
    obtain ⟨mode, position, tokens⟩ := s
    obtain rfl : mode = .quoted (.behind front) text.reverse := hmode
    have hlast : ([escapeMark].foldl Scanner.step
        ⟨.quoted (.behind front) text.reverse, position, tokens⟩).finish =
          .ok (tokens.reverse ++ [ScanMode.quotedToken (.behind front) text.reverse]) := rfl
    refine ⟨tokens.reverse, ?_⟩
    rw [hlast, ScanMode.quotedToken, List.reverse_reverse]

/-- The text has one quote, so none ends the string that begins there. It is a token all the
same. -/
theorem not_isTerminated_escapedEnd :
    let source := "(name \x22Flute\x5c"
    ∃ tokens, scan source = .ok tokens ∧
      ∃ token ∈ tokens, token = ⟨.quoted "Flute", ⟨1, 7⟩⟩ ∧ ¬token.IsTerminated source.toList := by
  intro source
  have hscan : scan source = .ok [⟨.leftParen, ⟨1, 1⟩⟩, ⟨.atom "name", ⟨1, 2⟩⟩,
      ⟨.quoted "Flute", ⟨1, 7⟩⟩] := by decide +kernel
  have hcount : source.toList.count quoteMark = 1 := by decide +kernel
  refine ⟨_, hscan, ⟨.quoted "Flute", ⟨1, 7⟩⟩, by simp, rfl, fun hterminated => ?_⟩
  obtain ⟨front, written, behind, -, -, -, hsource⟩ := hterminated "Flute" rfl
  rw [hsource] at hcount
  simp only [List.count_append, List.count_cons_self] at hcount
  omega

end ScorePlayback
