import ScorePlayback.Notation.Element

/-! # Reasons to refuse a text -/

namespace ScorePlayback

inductive ParseFault where
  | unterminatedString
  | missingRoot
  | expectedElement
  | expectedName
  | missingName
  | unknownElement (name : String)
  | unclosedElement (name : ElementName)
  | contentAfterRoot
deriving DecidableEq, Repr

def ParseFault.message : ParseFault → String
  | .unterminatedString => "Unterminated string literal"
  | .missingRoot => "Unexpected end of input, expected '('"
  | .expectedElement => "Expected '('"
  | .expectedName => "Expected element name after '('"
  | .missingName => "Unexpected end of input after '('"
  | .unknownElement name => "Unknown element '" ++ name ++ "'"
  | .unclosedElement name => "Element '" ++ name.text ++ "' is not closed"
  | .contentAfterRoot => "Unexpected content after the root element"

structure ParseError where
  fault : ParseFault
  position : Position
deriving DecidableEq, Repr

def ParseError.message (e : ParseError) : String :=
  "Parse error at line " ++ toString e.position.line ++ ", column " ++ toString e.position.column
    ++ ": " ++ e.fault.message

end ScorePlayback
