import ScorePlayback.Proofs.Analysis.Placeless

/-! # The same lexemes at other positions

Which tree a list of tokens reads as, or what is wrong with it, is decided by the lexemes. The
positions of the tokens go into the tree and into the error, and nothing looks at them. -/

namespace ScorePlayback

/-- Data that tell where something stands in a text. -/
class HasPlaces (σ : Type) where
  /-- The same with everything at one position. -/
  placeless : σ → σ

open HasPlaces (placeless)

/-- Data that are the same but for positions. -/
def SameButPlaces {σ : Type} [HasPlaces σ] (s s' : σ) : Prop := placeless s = placeless s'

instance {α : Type} [HasPlaces α] : HasPlaces (List α) where
  placeless xs := xs.map placeless

instance {ε α : Type} [HasPlaces ε] [HasPlaces α] : HasPlaces (Except ε α) where
  placeless
    | .ok value => .ok (placeless value)
    | .error fault => .error (placeless fault)

instance : HasPlaces Position where
  placeless _ := ⟨1, 1⟩

instance : HasPlaces Token where
  placeless token := { token with position := ⟨1, 1⟩ }

instance : HasPlaces Node where
  placeless := Node.placeless

instance : HasPlaces ParseError where
  placeless e := { e with position := ⟨1, 1⟩ }

instance : HasPlaces OpenElement where
  placeless e := ⟨e.name, ⟨1, 1⟩, placeless e.children⟩

instance : HasPlaces ParseState where
  placeless
    | .start => .start
    | .naming _ outer => .naming ⟨1, 1⟩ (placeless outer)
    | .inside innermost outer => .inside (placeless innermost) (placeless outer)
    | .done root => .done (placeless root)

theorem OpenElement.placeless_close (e : OpenElement) :
    placeless e.close = (placeless e).close := by
  simp [placeless, close, Node.placeless_element]

namespace ParseState

theorem placeless_place (node : Node) (outer : List OpenElement) :
    placeless (place node outer) = place (placeless node) (placeless outer) := by
  cases outer <;> rfl

theorem placeless_step (token : Token) (state : ParseState) :
    placeless (state.step token) = (placeless state).step (placeless token) := by
  obtain ⟨lexeme, position⟩ := token
  cases state with
  | start => cases lexeme <;> rfl
  | naming start outer =>
      cases lexeme with
      | atom text =>
          simp only [step, placeless]
          cases ElementName.ofText? text <;> rfl
      | _ => rfl
  | inside innermost outer =>
      cases lexeme with
      | rightParen =>
          refine congrArg Except.ok ?_
          rw [placeless_place, innermost.placeless_close]
      | _ => simp [step, placeless, OpenElement.add, Node.placeless]
  | done root => rfl

theorem placeless_run (tokens : List Token) (state : ParseState) :
    placeless (state.run tokens) = (placeless state).run (placeless tokens) := by
  induction tokens generalizing state with
  | nil => rfl
  | cons token tokens ih =>
      have hstep := placeless_step token state
      show placeless ((state.step token).bind fun next => next.run tokens) =
        ((placeless state).step (placeless token)).bind fun next => next.run (placeless tokens)
      rw [← hstep]
      cases state.step token with
      | ok next => exact ih next
      | error e => rfl

theorem placeless_finish (state : ParseState) :
    placeless state.finish = (placeless state).finish := by
  cases state <;> rfl

end ParseState

/-- Reading tokens at one position gives the same tree or error at one position. -/
theorem placeless_parseTokens (tokens : List Token) :
    placeless (parseTokens tokens) = parseTokens (placeless tokens) := by
  have hrun := ParseState.placeless_run tokens .start
  show _ = (ParseState.run (placeless .start) (placeless tokens)).bind ParseState.finish
  rw [← hrun, parseTokens]
  cases ParseState.start.run tokens with
  | ok state => exact state.placeless_finish
  | error e => rfl

theorem placeless_tokens_eq {tokens tokens' : List Token}
    (h : tokens.map Token.lexeme = tokens'.map Token.lexeme) : SameButPlaces tokens tokens' := by
  have hmap := congrArg (List.map fun lexeme : Lexeme => (⟨lexeme, ⟨1, 1⟩⟩ : Token)) h
  rwa [List.map_map, List.map_map] at hmap

theorem sameButPlaces_parseTokens {tokens tokens' : List Token}
    (h : tokens.map Token.lexeme = tokens'.map Token.lexeme) :
    SameButPlaces (parseTokens tokens) (parseTokens tokens') := by
  have htokens : placeless tokens = placeless tokens' := placeless_tokens_eq h
  show placeless _ = placeless _
  rw [placeless_parseTokens, htokens, placeless_parseTokens]

end ScorePlayback
