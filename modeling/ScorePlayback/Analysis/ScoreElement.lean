import ScorePlayback.Analysis.Instrument

/-! # Analysing a score -/

namespace ScorePlayback

variable {τ : Type} [TimeValue τ]

/-- The state of the analysis inside a score. `header` has neither notes nor relations; they
are with the links. -/
structure ScoreState (τ : Type) where
  header : Score τ := {}
  linking : Linking τ := {}

namespace ScoreState

def reject (s : ScoreState τ) (fault : GrammarFault) (child : Node) : ScoreState τ :=
  { s with linking := s.linking.reject [⟨fault, child.position⟩] }

def addInstrument (settings : Settings) (s : ScoreState τ) (children : List Node) : ScoreState τ :=
  let state := children.foldl (InstrumentState.read settings) (.start settings s.linking)
  { linking := state.linking
    header := { s.header with instruments := s.header.instruments ++ [state.finish] } }

/-- Reads one child of a score. -/
def read (settings : Settings) (s : ScoreState τ) (child : Node) : ScoreState τ :=
  match child with
  | .element .version _ _ =>
    match child.atoms.head?.bind fun atom => ScoreVersion.read? atom.text.toList with
    | some version => { s with header := { s.header with version } }
    | none => s.reject .versionMissing child
  | .element .option _ _ =>
    match child.atoms with
    | [name, value] =>
      let options := Keyed.insert name.text value.text s.header.options
      { s with header := { s.header with options } }
    | _ => s.reject .optionShape child
  | .element .title _ _ =>
    match child.string? with
    | some title => { s with header := { s.header with title := some title } }
    | none => s.reject .titleText child
  | .element .instrument children _ => s.addInstrument settings children
  | child => { s with linking := s.linking.reject [child.misplacedIn .score] }

end ScoreState

/-- An analysed score and the problems found in it. -/
structure ScoreAnalysis (τ : Type) where
  score : Score τ
  diagnostics : List Diagnostic

/-- Analyses the children of a score element. -/
def analyseScore (settings : Settings) (children : List Node) : ScoreAnalysis τ :=
  let state := children.foldl (ScoreState.read settings) {}
  let linking := state.linking.finish
  { score := { state.header with notes := linking.notes, relations := linking.relations }
    diagnostics := linking.diagnostics }

end ScorePlayback
