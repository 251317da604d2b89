import ScorePlayback.Analysis.Document
import ScorePlayback.Notation.Parse

/-! # From a text to an analysed document -/

namespace ScorePlayback

inductive CompileError where
  | syntactic (error : ParseError)
  | notADocument (root : NodeKind)
deriving DecidableEq, Repr

def CompileError.message : CompileError → String
  | .syntactic error => error.message
  | .notADocument root => "Not a document: root element is '" ++ root.text ++ "'"

variable {τ : Type} [TimeValue τ]

def analyse (settings : Settings) (tree : Node) : Except CompileError (Analysis τ) :=
  match analyse? settings tree with
  | some analysis => .ok analysis
  | none => .error (.notADocument tree.kind)

def compile (settings : Settings) (source : String) : Except CompileError (Analysis τ) :=
  match parse source with
  | .ok tree => analyse settings tree
  | .error error => .error (.syntactic error)

end ScorePlayback
