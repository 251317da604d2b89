import ScorePlayback.Yaml.Tag

/-! # YAML directives

Lines in front of a document that start with a percent sign: the version of YAML, and the
meanings of handles in tags. -/

namespace ScorePlayback
namespace YamlDirective

/-- A part of a version has at most nine digits. -/
def isVersionPart (digits : List Char) : Bool := !digits.isEmpty && digits.length ≤ 9

/-- Reads a version, two numbers with a point between them. -/
def version? (text : List Char) : Option YamlToken :=
  let major := text.takeWhile Char.isDigit
  match text.dropWhile Char.isDigit with
  | '.' :: rest =>
    let minor := rest.takeWhile Char.isDigit
    if isVersionPart major && isVersionPart minor
        && YamlChar.isLineEnd (rest.dropWhile Char.isDigit) then
      some (.version (Numeral.ofDigits major) (Numeral.ofDigits minor))
    else none
  | _ => none

/-- The first word of a text that does not start with a blank, and the text behind the blanks
that follow it. -/
def splitWord (text : List Char) : List Char × List Char :=
  let isWord c := !YamlChar.isSpace c
  (text.takeWhile isWord, (text.dropWhile isWord).dropWhile YamlChar.isSpace)

/-- Reads a handle and its meaning. -/
def handle? (text : List Char) : Option YamlToken :=
  let (name, rest) := splitWord text
  let (meaning, rest) := splitWord rest
  if YamlTag.isHandle name && !meaning.isEmpty && YamlChar.isLineEnd rest then
    (TagAddress.read? true meaning).map (.handle (String.ofList name))
  else none

/-- Reads a line without its percent sign. -/
def ofText? (text : List Char) : Option YamlToken :=
  let (name, rest) := splitWord text
  match String.ofList name with
  | "YAML" => version? rest
  | "TAG" => handle? rest
  | _ => none

end YamlDirective
end ScorePlayback
