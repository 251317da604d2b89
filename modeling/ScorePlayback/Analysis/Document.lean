import ScorePlayback.Analysis.ScoreElement

/-! # Analysing a document

The scores of a document are independent. A title in the content belongs to the last score
before it. -/

namespace ScorePlayback

variable {τ : Type} [TimeValue τ]

/-- An analysed document and the problems found in it. -/
structure Analysis (τ : Type) where
  document : Document τ
  diagnostics : List Diagnostic

namespace Analysis

def empty : Analysis τ := ⟨⟨"", []⟩, []⟩

def report (a : Analysis τ) (found : List Diagnostic) : Analysis τ :=
  { a with diagnostics := a.diagnostics ++ found }

def reject (a : Analysis τ) (fault : GrammarFault) (child : Node) : Analysis τ :=
  a.report [fault.diagnostic child.position]

def add (a : Analysis τ) (item : ContentItem τ) : Analysis τ :=
  { a with document := { a.document with content := a.document.content ++ [item] } }

def addScore (a : Analysis τ) (s : ScoreAnalysis τ) : Analysis τ :=
  (a.add (.score s.score)).report s.diagnostics

/-- Gives a title to the last score, if there is one. -/
def retitle? (title : String) : List (ContentItem τ) → Option (List (ContentItem τ))
  | [] => none
  | item :: rest =>
    match retitle? title rest, item with
    | some rest, item => some (item :: rest)
    | none, .score score => some (.score { score with title := some title } :: rest)
    | none, .paragraph _ => none

def addTitle (a : Analysis τ) (child : Node) : Analysis τ :=
  match child.string? with
  | none => a.reject .titleText child
  | some title =>
    match retitle? title a.document.content with
    | some content => { a with document := { a.document with content } }
    | none => a.reject .titleWithoutScore child

/-- The strings of a paragraph, with a blank between two of them. -/
def paragraphText (children : List Node) : String :=
  " ".intercalate ((children.filter fun c => c.kind = .atom .string).map Node.text)

/-- Reads one child of a content element. -/
def readItem (settings : Settings) (a : Analysis τ) (child : Node) : Analysis τ :=
  match child with
  | .element .score children _ => a.addScore (analyseScore settings children)
  | .element .paragraph children _ => a.add (.paragraph (paragraphText children))
  | .element .title _ _ => a.addTitle child
  | child => a.report [(child.misplacedIn .content).diagnostic]

/-- Reads one child of a document. -/
def read (settings : Settings) (a : Analysis τ) (child : Node) : Analysis τ :=
  match child with
  | .element .version _ _ =>
    match child.atoms.head? with
    | some version => { a with document := { a.document with version := version.text } }
    | none => a.reject .versionMissing child
  | .element .content children _ => children.foldl (readItem settings) a
  | child => a.report [(child.misplacedIn .document).diagnostic]

end Analysis

/-- Analyses a tree. A score alone makes a document with one score; no other element than
these two is a document. -/
def analyse? (settings : Settings) : Node → Option (Analysis τ)
  | .element .document children _ => some (children.foldl (Analysis.read settings) .empty)
  | .element .score children _ => some (Analysis.empty.addScore (analyseScore settings children))
  | _ => none

end ScorePlayback
