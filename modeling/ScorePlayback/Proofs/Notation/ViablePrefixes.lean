import ScorePlayback.Proofs.Notation.Grammar

/-! # Where reading fails

A list of tokens is refused at its first token that no tree could have there, or, if it only stops
too early, at the innermost parenthesis that is still open. -/

namespace ScorePlayback

/-! ## Lists that can go on -/

def IsAccepted (tokens : List Token) : Prop := ∃ tree, parseTokens tokens = .ok tree

/-- Some tokens, perhaps none, complete the list. -/
def IsViable (tokens : List Token) : Prop := ∃ rest, IsAccepted (tokens ++ rest)

theorem IsViable.of_prefix {past tokens : List Token} (h : IsViable tokens)
    (hpast : past <+: tokens) : IsViable past := by
  obtain ⟨rest, haccepted⟩ := h
  obtain ⟨behind, rfl⟩ := hpast
  exact ⟨behind ++ rest, by rwa [← List.append_assoc]⟩

/-- The parentheses that are open behind a token, the innermost one first. -/
def Token.openParens (token : Token) (openBefore : List Token) : List Token :=
  match token.lexeme with
  | .leftParen => token :: openBefore
  | .rightParen => openBefore.tail
  | _ => openBefore

/-- The parentheses of a list that are still open at its end, the innermost one first. -/
def openParens (tokens : List Token) : List Token :=
  tokens.foldl (fun openBefore token => token.openParens openBefore) []

/-- Where an error has to be. A list that only stops too early has it at its innermost open
parenthesis, or at the beginning if it is empty. Any other list has it at the first token that it
cannot go on with. -/
inductive IsRefusedAt (tokens : List Token) (p : Position) : Prop where
  | stops (rest : List Token) (hrest : rest ≠ []) (haccepted : IsAccepted (tokens ++ rest))
      (hplace : tokens = [] ∧ p = .first ∨
        ∃ opening ∈ (openParens tokens).head?, p = opening.position)
  | fails (front : List Token) (token : Token) (behind : List Token)
      (htokens : tokens = front ++ token :: behind)
      (hviable : ∀ past, past <+: front → IsViable past)
      (hfails : ¬IsViable (front ++ [token])) (hplace : p = token.position)

namespace ParseState

/-! ## Every state can be completed -/

/-- Closing parentheses complete open elements. -/
theorem exists_run_inside (e : OpenElement) (outer : List OpenElement) :
    ∃ rest tree, rest ≠ [] ∧ (inside e outer).run rest = .ok (.done tree) := by
  let closing : Token := ⟨.rightParen, .first⟩
  induction outer generalizing e with
  | nil => exact ⟨[closing], e.close, List.cons_ne_nil _ _, rfl⟩
  | cons innermost outer ih =>
      obtain ⟨rest, tree, -, hrun⟩ := ih (innermost.add e.close)
      exact ⟨closing :: rest, tree, List.cons_ne_nil _ _, hrun⟩

theorem exists_run_naming (position : Position) (outer : List OpenElement) :
    ∃ rest tree, rest ≠ [] ∧ (naming position outer).run rest = .ok (.done tree) := by
  let name : Token := ⟨.atom ElementName.note.text, .first⟩
  obtain ⟨rest, tree, -, hrun⟩ := exists_run_inside ⟨.note, position, []⟩ outer
  have hstep : step name (naming position outer) = .ok (.inside ⟨.note, position, []⟩ outer) := by
    simp [step, name, ElementName.ofText?_text]
  refine ⟨name :: rest, tree, List.cons_ne_nil _ _, ?_⟩
  rw [run, hstep]
  exact hrun

/-- A state that is not done lacks some tokens. -/
theorem exists_run_done {state : ParseState} {e : ParseError} (h : state.finish = .error e) :
    ∃ rest tree, rest ≠ [] ∧ state.run rest = .ok (.done tree) := by
  cases state with
  | start =>
      obtain ⟨rest, tree, -, hrun⟩ := exists_run_naming .first []
      exact ⟨⟨.leftParen, .first⟩ :: rest, tree, List.cons_ne_nil _ _, hrun⟩
  | naming position outer => exact exists_run_naming position outer
  | inside innermost outer => exact exists_run_inside innermost outer
  | done root => cases h

/-! ## Where the open elements stand -/

/-- Where the elements stand that are still open, the innermost one first. -/
def openPlaces : ParseState → List Position
  | .start => []
  | .naming position outer => position :: outer.map OpenElement.position
  | .inside innermost outer => (innermost :: outer).map OpenElement.position
  | .done _ => []

theorem openPlaces_place (node : Node) (outer : List OpenElement) :
    (place node outer).openPlaces = outer.map OpenElement.position := by
  cases outer <;> rfl

/-- The elements that are open are those whose parentheses are. -/
theorem openPlaces_step {token : Token} {state next : ParseState} {openBefore : List Token}
    (h : state.openPlaces = openBefore.map Token.position) (hstep : state.step token = .ok next) :
    next.openPlaces = (token.openParens openBefore).map Token.position := by
  obtain ⟨lexeme, position⟩ := token
  cases state with
  | start =>
      cases lexeme with
      | leftParen =>
          obtain rfl := Except.ok.inj hstep
          obtain rfl := List.map_eq_nil_iff.mp h.symm
          rfl
      | _ => cases hstep
  | naming start outer =>
      cases lexeme with
      | atom text =>
          simp only [step] at hstep
          split at hstep
          · obtain rfl := Except.ok.inj hstep
            exact h
          · cases hstep
      | _ => cases hstep
  | inside innermost outer =>
      cases lexeme with
      | leftParen =>
          obtain rfl := Except.ok.inj hstep
          exact congrArg (position :: ·) h
      | rightParen =>
          obtain rfl := Except.ok.inj hstep
          rw [openPlaces_place, Token.openParens, List.map_tail, ← h]
          rfl
      | atom text =>
          obtain rfl := Except.ok.inj hstep
          exact h
      | quoted text =>
          obtain rfl := Except.ok.inj hstep
          exact h
  | done root => cases hstep

theorem openPlaces_run {tokens openBefore : List Token} {state last : ParseState}
    (h : state.openPlaces = openBefore.map Token.position) (hrun : state.run tokens = .ok last) :
    last.openPlaces = (tokens.foldl (fun openBefore token => token.openParens openBefore)
      openBefore).map Token.position := by
  induction tokens generalizing state openBefore with
  | nil =>
      obtain rfl := Except.ok.inj hrun
      exact h
  | cons token tokens ih =>
      rw [run] at hrun
      cases hstep : state.step token with
      | error e => simp [hstep, Except.bind] at hrun
      | ok next =>
          rw [hstep] at hrun
          exact ih (openPlaces_step h hstep) hrun

/-! ## Where the errors stand -/

theorem position_of_step {token : Token} {state : ParseState} {e : ParseError}
    (h : state.step token = .error e) : e.position = token.position := by
  obtain ⟨lexeme, position⟩ := token
  cases state with
  | start =>
      cases lexeme with
      | leftParen => cases h
      | _ => exact Except.error.inj h ▸ rfl
  | naming start outer =>
      cases lexeme with
      | atom text =>
          simp only [step] at h
          split at h
          · cases h
          · exact Except.error.inj h ▸ rfl
      | _ => exact Except.error.inj h ▸ rfl
  | inside innermost outer => cases lexeme <;> cases h
  | done root => exact Except.error.inj h ▸ rfl

theorem position_of_finish {state : ParseState} {e : ParseError} (h : state.finish = .error e) :
    (state = .start ∧ e.position = .first) ∨ e.position ∈ state.openPlaces.head? := by
  cases state with
  | start => exact .inl ⟨rfl, Except.error.inj h ▸ rfl⟩
  | naming position outer => exact .inr (Except.error.inj h ▸ rfl)
  | inside innermost outer => exact .inr (Except.error.inj h ▸ rfl)
  | done root => cases h

theorem eq_nil_of_run_start {tokens : List Token} (h : start.run tokens = .ok .start) :
    tokens = [] := by
  have hstart : start.IsWellFormed := trivial
  exact List.forall₂_nil_right_iff.mp (isKeptAs_run hstart .nil h).2

/-- What is refused is refused at some token. All tokens in front of it can be read. -/
theorem exists_step_of_run {tokens : List Token} {state : ParseState} {e : ParseError}
    (h : state.run tokens = .error e) : ∃ front token behind last,
      tokens = front ++ token :: behind ∧ state.run front = .ok last ∧
        last.step token = .error e := by
  induction tokens generalizing state with
  | nil => cases h
  | cons token tokens ih =>
      rw [run] at h
      cases hstep : state.step token with
      | error fault =>
          rw [hstep] at h
          obtain rfl := Except.error.inj h
          exact ⟨[], token, tokens, state, rfl, rfl, hstep⟩
      | ok next =>
          rw [hstep] at h
          obtain ⟨front, failing, behind, last, rfl, hfront, hlast⟩ := ih h
          refine ⟨token :: front, failing, behind, last, rfl, ?_, hlast⟩
          rw [run, hstep]
          exact hfront

end ParseState

/-! ## Viable lists are those that are read without an error -/

theorem isAccepted_iff {tokens : List Token} :
    IsAccepted tokens ↔ ∃ tree, ParseState.start.run tokens = .ok (.done tree) := by
  unfold IsAccepted parseTokens
  cases ParseState.start.run tokens with
  | error e => simp [Except.bind]
  | ok last => cases last <;> simp [Except.bind, ParseState.finish]

theorem isViable_iff {tokens : List Token} :
    IsViable tokens ↔ ∃ last, ParseState.start.run tokens = .ok last := by
  unfold IsViable
  simp only [isAccepted_iff, ParseState.run_append]
  constructor
  · rintro ⟨rest, tree, h⟩
    cases hrun : ParseState.start.run tokens with
    | error e => simp [hrun, Except.bind] at h
    | ok last => exact ⟨last, rfl⟩
  · rintro ⟨last, hrun⟩
    rw [hrun]
    cases hfinish : last.finish with
    | error e =>
        obtain ⟨rest, tree, -, hrest⟩ := ParseState.exists_run_done hfinish
        exact ⟨rest, tree, hrest⟩
    | ok root =>
        cases last with
        | done tree => exact ⟨[], tree, rfl⟩
        | _ => cases hfinish

/-- Errors are never late, and none is at a token with which the list could go on. -/
theorem isRefusedAt_of_parseTokens {tokens : List Token} {e : ParseError}
    (h : parseTokens tokens = .error e) : IsRefusedAt tokens e.position := by
  unfold parseTokens at h
  cases hrun : ParseState.start.run tokens with
  | ok last =>
      have hfinish : last.finish = .error e := by simpa [hrun, Except.bind] using h
      obtain ⟨rest, tree, hrest, hdone⟩ := ParseState.exists_run_done hfinish
      have haccepted : IsAccepted (tokens ++ rest) := by
        rw [isAccepted_iff, ParseState.run_append, hrun]
        exact ⟨tree, hdone⟩
      have hplaces : last.openPlaces = (openParens tokens).map Token.position :=
        ParseState.openPlaces_run rfl hrun
      refine .stops rest hrest haccepted ?_
      rcases ParseState.position_of_finish hfinish with ⟨rfl, hfirst⟩ | hplace
      · exact .inl ⟨ParseState.eq_nil_of_run_start hrun, hfirst⟩
      · rw [hplaces, List.head?_map] at hplace
        obtain ⟨opening, hopening, hposition⟩ := Option.map_eq_some_iff.mp hplace
        exact .inr ⟨opening, hopening, hposition.symm⟩
  | error fault =>
      obtain rfl : fault = e := by simpa [hrun, Except.bind] using h
      obtain ⟨front, token, behind, last, rfl, hfront, hlast⟩ := ParseState.exists_step_of_run hrun
      have hviable : IsViable front := isViable_iff.mpr ⟨last, hfront⟩
      refine .fails front token behind rfl (fun past hpast => hviable.of_prefix hpast) ?_
        (ParseState.position_of_step hlast)
      rw [isViable_iff, ParseState.run_append, hfront]
      simp [Except.bind, ParseState.run, hlast]

/-- Where the inner element has been closed, the outer one is the innermost that is open. A name
that is not in the vocabulary is refused where it stands. -/
theorem isRefusedAt_score :
    let front : List Token :=
      [⟨.leftParen, ⟨1, 1⟩⟩, ⟨.atom "score", ⟨1, 2⟩⟩, ⟨.leftParen, ⟨1, 8⟩⟩, ⟨.atom "vers", ⟨1, 9⟩⟩,
       ⟨.rightParen, ⟨1, 13⟩⟩]
    let unknown : List Token :=
      front ++ [⟨.leftParen, ⟨1, 15⟩⟩, ⟨.atom "foo", ⟨1, 16⟩⟩, ⟨.rightParen, ⟨1, 19⟩⟩]
    parseTokens front = .error ⟨.unclosedElement .score, ⟨1, 1⟩⟩ ∧ IsRefusedAt front ⟨1, 1⟩ ∧
      parseTokens unknown = .error ⟨.unknownElement "foo", ⟨1, 16⟩⟩ ∧
        IsRefusedAt unknown ⟨1, 16⟩ := by
  intro front unknown
  have hfront : parseTokens front = .error ⟨.unclosedElement .score, ⟨1, 1⟩⟩ := rfl
  have hunknown : parseTokens unknown = .error ⟨.unknownElement "foo", ⟨1, 16⟩⟩ := rfl
  exact ⟨hfront, isRefusedAt_of_parseTokens hfront, hunknown, isRefusedAt_of_parseTokens hunknown⟩

end ScorePlayback
