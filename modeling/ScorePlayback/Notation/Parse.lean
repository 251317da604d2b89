import ScorePlayback.Notation.Node
import ScorePlayback.Notation.Scan

/-! # Reading trees

`element := ( NAME item* )` and `item := element | ATOM | STRING`, where the name belongs to
the vocabulary. Tokens are read one by one; the elements that are still open wait on a stack,
the innermost on top. -/

namespace ScorePlayback

/-- An element whose end has not been read; its last child comes first. -/
structure OpenElement where
  name : ElementName
  position : Position
  children : List Node

namespace OpenElement

def add (e : OpenElement) (child : Node) : OpenElement :=
  { e with children := child :: e.children }

def close (e : OpenElement) : Node := .element e.name e.children.reverse e.position

end OpenElement

/-- An atom is a number if it reads as one. -/
def atomKind (text : String) : AtomKind :=
  if (Numeral.scientific? text.toList).isSome then .number else .label

/-- What may follow the tokens read so far. -/
inductive ParseState where
  | start
  | naming (position : Position) (outer : List OpenElement)
  | inside (innermost : OpenElement) (outer : List OpenElement)
  | done (root : Node)

namespace ParseState

/-- A finished node becomes a child of the innermost open element, or the root. -/
def place (node : Node) : List OpenElement → ParseState
  | [] => .done node
  | innermost :: outer => .inside (innermost.add node) outer

def step (token : Token) : ParseState → Except ParseError ParseState
  | .start =>
    match token.lexeme with
    | .leftParen => .ok (.naming token.position [])
    | _ => .error ⟨.expectedElement, token.position⟩
  | .naming position outer =>
    match token.lexeme with
    | .atom text =>
      match ElementName.ofText? text with
      | some name => .ok (.inside ⟨name, position, []⟩ outer)
      | none => .error ⟨.unknownElement text, token.position⟩
    | _ => .error ⟨.expectedName, token.position⟩
  | .inside innermost outer =>
    match token.lexeme with
    | .leftParen => .ok (.naming token.position (innermost :: outer))
    | .rightParen => .ok (place innermost.close outer)
    | .atom text => .ok (.inside (innermost.add (.atom (atomKind text) text token.position)) outer)
    | .quoted text => .ok (.inside (innermost.add (.atom .string text token.position)) outer)
  | .done _ => .error ⟨.contentAfterRoot, token.position⟩

/-- The end of the tokens. An error stands at the innermost element still open. -/
def finish : ParseState → Except ParseError Node
  | .start => .error ⟨.missingRoot, .first⟩
  | .naming position _ => .error ⟨.missingName, position⟩
  | .inside innermost _ => .error ⟨.unclosedElement innermost.name, innermost.position⟩
  | .done root => .ok root

/-- Reads tokens from left to right, up to the first one that cannot be read. -/
def run (state : ParseState) : List Token → Except ParseError ParseState
  | [] => .ok state
  | token :: tokens => (state.step token).bind fun next => next.run tokens

end ParseState

/-- The tree of a list of tokens. -/
def parseTokens (tokens : List Token) : Except ParseError Node :=
  (ParseState.start.run tokens).bind ParseState.finish

/-- The tree of a text. -/
def parse (source : String) : Except ParseError Node := (scan source).bind parseTokens

end ScorePlayback
