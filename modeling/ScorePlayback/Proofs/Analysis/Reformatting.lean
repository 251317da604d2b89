import ScorePlayback.Proofs.Analysis.Places
import ScorePlayback.Proofs.Sound.Unheard

/-! # Blanks and comments

Blanks and comments move the lexemes of a text to other positions. So they decide where problems are
reported, and not what is read and what is played. -/

namespace ScorePlayback

open HasPlaces (placeless)

variable {τ : Type}

/-! ## Sound tables -/

section

variable [TimeValue τ]

/-- Nothing that sounds depends on positions. -/
theorem ofScore_placeless (score : Score τ) :
    SoundTable.ofScore (placeless score) = SoundTable.ofScore score := by
  have hnotes : NoteRest.Unheard (placeless : NoteRest τ → NoteRest τ) :=
    ⟨fun _ => rfl, fun _ => rfl, fun _ => rfl⟩
  have hobjects : StaffObject.Unheard (placeless : StaffObject τ → StaffObject τ) :=
    ⟨fun _ => rfl, fun _ => rfl, fun _ => rfl, fun _ => rfl, fun _ => rfl⟩
  exact ofScore_mapParts hnotes hobjects score

omit [TimeValue τ] in
theorem scores_placeless (d : Document τ) : (placeless d).scores = placeless d.scores := by
  have hitem (item : ContentItem τ) : (placeless item).score? = item.score?.map placeless := by
    cases item <;> rfl
  show (d.content.map placeless).filterMap ContentItem.score? =
    (d.content.filterMap ContentItem.score?).map placeless
  rw [List.filterMap_map, List.map_filterMap]
  exact List.filterMap_congr fun item _ => hitem item

theorem map_ofScore_of_sameButPlaces {d d' : Document τ} (h : SameButPlaces d d') :
    d.scores.map SoundTable.ofScore = d'.scores.map SoundTable.ofScore := by
  have hplaceless (d : Document τ) :
      (placeless d).scores.map SoundTable.ofScore = d.scores.map SoundTable.ofScore := by
    rw [scores_placeless]
    show (d.scores.map placeless).map _ = _
    rw [List.map_map]
    exact List.map_congr_left fun score _ => ofScore_placeless score
  rw [← hplaceless, show placeless d = placeless d' from h, hplaceless]

end

/-! ## Whole texts -/

/-- The lexemes of a text. -/
def lexemesOf (source : String) : Except ParseError (List Lexeme) :=
  (scan source).map (List.map Token.lexeme)

theorem parse_of_lexemesOf {source : String} {lexemes : List Lexeme}
    (h : lexemesOf source = .ok lexemes) :
    ∃ tokens, tokens.map Token.lexeme = lexemes ∧ parse source = parseTokens tokens := by
  unfold lexemesOf at h
  unfold parse
  cases hscan : scan source with
  | error e => rw [hscan] at h; cases h
  | ok tokens =>
      rw [hscan] at h
      exact ⟨tokens, Except.ok.inj h, rfl⟩

/-- Two outcomes for a text have the same message without the place of the error, or they are
documents that are the same but for positions, sound the same and have problems of the same kinds in
the same order. -/
inductive AgreeButPlaces [TimeValue τ] :
    Except CompileError (Analysis τ) → Except CompileError (Analysis τ) → Prop where
  | syntactic {e e' : ParseError} (hfault : e.fault = e'.fault) :
      AgreeButPlaces (.error (.syntactic e)) (.error (.syntactic e'))
  | notADocument (root : NodeKind) :
      AgreeButPlaces (.error (.notADocument root)) (.error (.notADocument root))
  | ok {analysis analysis' : Analysis τ}
      (hdocument : SameButPlaces analysis.document analysis'.document)
      (hkinds : analysis.diagnostics.map Diagnostic.kind =
        analysis'.diagnostics.map Diagnostic.kind)
      (htables : analysis.document.scores.map SoundTable.ofScore =
        analysis'.document.scores.map SoundTable.ofScore) :
      AgreeButPlaces (.ok analysis) (.ok analysis')

variable [TimeValue τ]

theorem agreeButPlaces_analyse (settings : Settings) {tree tree' : Node}
    (h : SameButPlaces tree tree') :
    AgreeButPlaces (analyse settings tree : Except CompileError (Analysis τ))
      (analyse settings tree') := by
  have hanalyse := analyse?_sameButPlaces (τ := τ) settings h
  unfold analyse
  generalize (analyse? settings tree : Option (Analysis τ)) = result at hanalyse ⊢
  generalize (analyse? settings tree' : Option (Analysis τ)) = result' at hanalyse ⊢
  cases result with
  | none =>
      cases result' with
      | none =>
          rw [Node.eq_of_sameButPlaces Node.kind_placeless h]
          exact .notADocument _
      | some analysis' => cases hanalyse
  | some analysis =>
      cases result' with
      | none => cases hanalyse
      | some analysis' =>
          obtain ⟨hdocument, hdiagnostics⟩ :=
            (Analysis.mk.injEq ..).to_iff.mp (Option.some.inj hanalyse)
          exact .ok hdocument (map_kind_of_sameButPlaces hdiagnostics)
            (map_ofScore_of_sameButPlaces hdocument)

/-- Reformatting a text changes nothing but positions. -/
theorem agreeButPlaces_compile {source source' : String} {lexemes : List Lexeme}
    (h : lexemesOf source = .ok lexemes) (h' : lexemesOf source' = .ok lexemes)
    (settings : Settings) :
    AgreeButPlaces (compile settings source : Except CompileError (Analysis τ))
      (compile settings source') := by
  obtain ⟨tokens, htokens, hparse⟩ := parse_of_lexemesOf h
  obtain ⟨tokens', htokens', hparse'⟩ := parse_of_lexemesOf h'
  have hsame := sameButPlaces_parseTokens (htokens.trans htokens'.symm)
  unfold compile
  rw [hparse, hparse']
  generalize parseTokens tokens = reading at hsame ⊢
  generalize parseTokens tokens' = reading' at hsame ⊢
  cases reading with
  | error e =>
      cases reading' with
      | error e' => exact .syntactic (ParseError.mk.inj (Except.error.inj hsame)).1
      | ok tree' => cases hsame
  | ok tree =>
      cases reading' with
      | error e' => cases hsame
      | ok tree' => exact agreeButPlaces_analyse settings (Except.ok.inj hsame)

/-- A score on one line and on several ones, with a comment. -/
theorem agreeButPlaces_compile_repeatedNote :
    let lexemes : List Lexeme := [.leftParen, .atom "score", .leftParen, .atom "instrument",
      .leftParen, .atom "musicData", .leftParen, .atom "n", .atom "c4", .atom "q", .rightParen,
      .leftParen, .atom "barline", .atom "endRepetition", .rightParen, .rightParen, .rightParen,
      .rightParen]
    let source := "(score (instrument (musicData (n c4 q) (barline endRepetition))))"
    let source' := "(score // one note\n(instrument\n(musicData\n(n c4 q)(barline endRepetition) )))"
    lexemesOf source = .ok lexemes ∧ lexemesOf source' = .ok lexemes ∧
      AgreeButPlaces (compile {} source : Except CompileError (Analysis Rat)) (compile {} source') :=
  have h := by decide +kernel
  have h' := by decide +kernel
  ⟨h, h', agreeButPlaces_compile h h' {}⟩

end ScorePlayback
