import ScorePlayback.Notation.Token

/-! # Diagnostics

Problems found while a score is analysed. They never stop the analysis. -/

namespace ScorePlayback

inductive DiagnosticKind where
  | grammarError
  | duplicatedRelation
  | unmatchedEnd
  | unterminatedRelation
  | invalidTie
  | invalidLegacyTie
  | unterminatedLegacyBeam
deriving DecidableEq, Repr

def DiagnosticKind.label : DiagnosticKind → String
  | .grammarError => "Grammar error"
  | .duplicatedRelation => "Duplicated relation"
  | .unmatchedEnd => "Unmatched end"
  | .unterminatedRelation => "Unterminated relation"
  | .invalidTie => "Invalid tie"
  | .invalidLegacyTie => "Invalid old tie"
  | .unterminatedLegacyBeam => "Unterminated old beam"

structure Diagnostic where
  kind : DiagnosticKind
  position : Option Position
  message : String
deriving DecidableEq, Repr

namespace Diagnostic

def text (d : Diagnostic) : String :=
  let place := match d.position with
    | some p => " at line " ++ toString p.line ++ ", column " ++ toString p.column
    | none => ""
  d.kind.label ++ place ++ ": " ++ d.message

/-- One line for each diagnostic, in the order they were found. -/
def report (diagnostics : List Diagnostic) : String :=
  String.join (diagnostics.map fun d => d.text ++ "\n")

end Diagnostic
end ScorePlayback
