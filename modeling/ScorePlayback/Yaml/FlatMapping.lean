import ScorePlayback.Yaml.Scan

/-! # Reading a flat YAML mapping

A document that maps scalars to scalars, in block style or in braces. An empty document is an
empty mapping. -/

namespace ScorePlayback

/-- A scalar and its full tag, if it has one. -/
structure YamlScalar where
  style : YamlStyle := .plain
  text : String := ""
  tag : Option String := none
deriving DecidableEq, Repr

/-- A mapping in the order of the text. -/
abbrev YamlEntries := List (String × YamlScalar)

namespace FlatMapping

/-! ## Directives -/

/-- Handles of tags with what they stand for. -/
abbrev TagHandles := List (String × String)

/-- What the directives of a document say. -/
structure Directives where
  hasVersion : Bool := false
  handles : TagHandles := []

/-- Takes a directive. The version is given at most once, and so is each handle. -/
def Directives.add? (d : Directives) : YamlToken → Option Directives
  | .version major minor =>
    if !d.hasVersion && major = 1 && (minor = 1 || minor = 2) then
      some { d with hasVersion := true }
    else none
  | .handle name meaning =>
    if (d.handles.lookup name).isNone then some { d with handles := (name, meaning) :: d.handles }
    else none
  | _ => none

/-- What handles stand for if the directives do not say it. -/
def usualHandles : TagHandles := [("!", "!"), ("!!", "tag:yaml.org,2002:")]

/-- The full tag, if the handle is known. -/
def fullTag? (handles : TagHandles) (tag : YamlTag) : Option String :=
  if tag.handle = "" then some tag.suffix
  else ((handles ++ usualHandles).lookup tag.handle).map (· ++ tag.suffix)

/-! ## Nodes -/

/-- What can stand in front of a scalar or of the mapping. -/
structure Properties where
  anchor : Option String := none
  tag : Option String := none

/-- The properties in front of a list of tokens, and the tokens behind them. -/
def properties? (handles : TagHandles) (p : Properties) :
    List YamlToken → Option (Properties × List YamlToken)
  | .anchor name :: rest =>
    if p.anchor.isNone then properties? handles { p with anchor := some name } rest else none
  | .tag tag :: rest =>
    if p.tag.isNone then
      (fullTag? handles tag).bind fun tag => properties? handles { p with tag := some tag } rest
    else none
  | tokens => some (p, tokens)

/-- A key or a value as it is written. -/
inductive Node where
  | scalar (anchor : Option String) (scalar : YamlScalar)
  | alias (name : String)
deriving DecidableEq, Repr

/-- Reads a key or a value. Nothing is an empty scalar. -/
def node? (handles : TagHandles) (tokens : List YamlToken) : Option Node := do
  match tokens with
  | [.alias name] => some (.alias name)
  | tokens =>
    let (p, rest) ← properties? handles {} tokens
    match rest with
    | [] => some (.scalar p.anchor { tag := p.tag })
    | [.scalar style text] => some (.scalar p.anchor ⟨style, text, p.tag⟩)
    | _ => none

/-! ## Entries -/

/-- Reads the tokens between the question mark of an entry and the next entry. -/
def pair? (handles : TagHandles) (tokens : List YamlToken) : Option (Node × Node) := do
  let key ← node? handles (tokens.takeWhile (· ≠ .value))
  let value ← node? handles ((tokens.dropWhile (· ≠ .value)).drop 1)
  some (key, value)

/-- Reads an entry in braces. Without a question mark it has no colon either. -/
def bracedPair? (handles : TagHandles) : List YamlToken → Option (Node × Node)
  | [] => none
  | .key :: rest => pair? handles rest
  | tokens => (node? handles tokens).map fun key => (key, .scalar none {})

/-- Splits tokens at each occurrence of one of them. -/
def splitAt (mark : YamlToken) (tokens : List YamlToken) : List (List YamlToken) :=
  tokens.foldr
    (fun token parts => if token = mark then [] :: parts else parts.modifyHead (token :: ·)) [[]]

/-- A comma may follow the last entry in braces. -/
def dropLastEmpty (entries : List (List YamlToken)) : List (List YamlToken) :=
  if entries.getLast? = some [] then entries.dropLast else entries

/-- Reads the entries of a mapping. -/
def pairs? (handles : TagHandles) : List YamlToken → Option (List (Node × Node))
  | [] => some []
  | .key :: rest => (splitAt .key rest).mapM (pair? handles)
  | .mappingStart :: rest =>
    if rest.getLast? = some .mappingEnd then
      (dropLastEmpty (splitAt .comma rest.dropLast)).mapM (bracedPair? handles)
    else none
  | _ => none

/-! ## Anchors -/

/-- The anchors so far, with the last one first. Each has as its number how many names were in
use before it, so a number can be given again. -/
structure Anchors where
  numbers : List (String × Nat) := []
  inUse : Nat := 0
  /-- What the numbers stand for. An alias cannot stand for the mapping around it. -/
  targets : List (Nat × Option YamlScalar) := []

def Anchors.add (a : Anchors) (target : Option YamlScalar) : Option String → Anchors
  | none => a
  | some name =>
    { numbers := (name, a.inUse) :: a.numbers
      inUse := if (a.numbers.lookup name).isNone then a.inUse + 1 else a.inUse
      targets := (a.inUse, target) :: a.targets }

/-- A key or a value with the number for the name in an alias. -/
inductive Content where
  | scalar (scalar : YamlScalar)
  | numbered (number : Nat)
deriving DecidableEq, Repr

/-- Takes a key or a value. The name in an alias must be in use. -/
def Anchors.take? (a : Anchors) : Node → Option (Anchors × Content)
  | .scalar anchor scalar => some (a.add (some scalar) anchor, .scalar scalar)
  | .alias name => (a.numbers.lookup name).map fun number => (a, .numbered number)

def Anchors.takeAll? (a : Anchors) :
    List (Node × Node) → Option (Anchors × List (Content × Content))
  | [] => some (a, [])
  | (key, value) :: rest => do
    let (a, key) ← a.take? key
    let (a, value) ← a.take? value
    let (a, rest) ← a.takeAll? rest
    some (a, (key, value) :: rest)

/-- The scalar that a key or a value stands for in the whole document. -/
def Anchors.scalar? (a : Anchors) : Content → Option YamlScalar
  | .scalar scalar => some scalar
  | .numbered number => (a.targets.lookup number).join

def Anchors.pairOf? (a : Anchors) (pair : Content × Content) : Option (String × YamlScalar) := do
  let key ← a.scalar? pair.1
  let value ← a.scalar? pair.2
  some (key.text, value)

/-! ## Documents -/

/-- Reads a document without its marks. -/
def content? (handles : TagHandles) (tokens : List YamlToken) : Option YamlEntries := do
  let (p, rest) ← properties? handles {} tokens
  let pairs ← pairs? handles rest
  let (anchors, contents) ← (Anchors.add {} none p.anchor).takeAll? pairs
  contents.mapM anchors.pairOf?

def isDirective : YamlToken → Bool
  | .version _ _ => true
  | .handle _ _ => true
  | _ => false

/-- Nothing but further ends may follow the end of the document. -/
def body? (tokens : List YamlToken) : Option (List YamlToken) :=
  let rest := tokens.dropWhile (· ≠ .documentEnd)
  if rest.all (· = .documentEnd) then some (tokens.takeWhile (· ≠ .documentEnd)) else none

/-- Reads the only document of a text. It has a start mark if it has directives. -/
def document? (tokens : List YamlToken) : Option YamlEntries := do
  let directives ← (tokens.takeWhile isDirective).foldlM Directives.add? {}
  match tokens.dropWhile isDirective with
  | .documentStart :: rest => (body? rest).bind (content? directives.handles)
  | .documentEnd :: _ => none
  | _ => if tokens.any isDirective then none else (body? tokens).bind (content? [])

end FlatMapping

/-- The entries of a text, if it is a flat mapping. -/
def readFlatMapping? (text : List Char) : Option YamlEntries :=
  (scanYaml? text).bind FlatMapping.document?

end ScorePlayback
