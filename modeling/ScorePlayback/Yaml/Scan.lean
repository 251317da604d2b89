import ScorePlayback.Yaml.Directive
import ScorePlayback.Yaml.LineScalar

/-! # Scanning a flat YAML mapping

A finite automaton over the characters of a text. What stands before a colon is known for a key
only when the colon comes, so the scanner remembers where the last one may have started. -/

namespace ScorePlayback

/-- What the characters read last belong to; texts hold their last character first. -/
inductive YamlMode where
  | between
  | comment
  /-- Some characters of `---` or `...` at the start of a line. -/
  | marker (mark : Char) (count : Nat)
  | directive (text : List Char)
  /-- A colon where a token can start. -/
  | colon
  | question
  | plain (text : List Char)
  | plainColon (text : List Char)
  /-- Blanks behind a plain scalar. `broken` says that there is a line break among them. -/
  | gap (text : List Char) (broken : Bool)
  | gapColon (text : List Char) (broken : Bool)
  | single (text : List Char)
  | singleQuote (text : List Char)
  | double (text : List Char)
  | doubleEscape (text : List Char)
  /-- Some digits of an escaped character, of which `digits` more must follow. -/
  | doubleCode (text : List Char) (digits code : Nat)
  /-- The start of a line behind an escaped line break. -/
  | doubleBreak (text : List Char)
  | anchor (name : List Char)
  | alias (name : List Char)
  | tag (text : List Char)
  | lineHeader (style : YamlStyle) (text : List Char)
  | lineIndent (header : LineScalar)
  | lineText (header : LineScalar) (column : Nat) (text : List Char)
  /-- The lines behind such a line, which are empty up to its column. -/
  | lineTail (header : LineScalar) (column : Nat) (text : List Char)
deriving DecidableEq, Repr

/-- Where a key without question mark may have started. In the column of the mapping nothing but
a key starts a line, so there it is `required`. -/
structure KeyPlace where
  line : Nat
  column : Nat
  required : Bool
deriving DecidableEq, Repr

/-- `recent` holds the tokens since the last place where a key may have started, `settled` those
before it, both with the last token first. -/
structure YamlScanner where
  mode : YamlMode := .between
  line : Nat := 0
  column : Nat := 0
  inBraces : Bool := false
  /-- Whether a key without question mark can start here. -/
  keyAllowed : Bool := true
  /-- The column of a mapping without braces. -/
  indent : Option Nat := none
  keyPlace : Option KeyPlace := none
  settled : List YamlToken := []
  recent : List YamlToken := []

namespace YamlScanner

def enter (s : YamlScanner) (mode : YamlMode) : YamlScanner := { s with mode }

def push (s : YamlScanner) (token : YamlToken) : YamlScanner :=
  { s with mode := .between, recent := token :: s.recent }

def textOf (reversed : List Char) : String := String.ofList reversed.reverse

/-- The first column of what belongs to an entry. -/
def innerColumn (s : YamlScanner) : Nat :=
  match s.indent with
  | some column => column + 1
  | none => 0

/-! ## Keys -/

/-- Gives up the key that may have started. -/
def dropKey? (s : YamlScanner) : Option YamlScanner :=
  if s.keyPlace.any KeyPlace.required then none else some { s with keyPlace := none }

/-- A key and its colon share a line and are at most 1024 characters apart. -/
def KeyPlace.isPast (place : KeyPlace) (line column : Nat) : Bool :=
  place.line < line || place.column + 1024 < column

/-- Prepares for a token in a column, which is not to the left of the mapping. -/
def beginToken? (s : YamlScanner) (column : Nat) : Option YamlScanner := do
  let s ← if s.keyPlace.any (KeyPlace.isPast · s.line column) then s.dropKey? else some s
  if s.inBraces || s.indent.all (· ≤ column) then some s else none

/-- Remembers that a key may start in this column. -/
def markKey? (s : YamlScanner) : Option YamlScanner :=
  if s.keyAllowed then
    s.dropKey?.map fun s =>
      { s with
        keyAllowed := false
        keyPlace := some ⟨s.line, s.column, !s.inBraces && s.indent = some s.column⟩
        settled := s.recent ++ s.settled
        recent := [] }
  else some s

/-- The entries of a mapping without braces start in one column. -/
def enterBlock? (s : YamlScanner) (column : Nat) : Option YamlScanner :=
  if s.inBraces then some s
  else if s.indent.all (· = column) then some { s with indent := some column }
  else none

/-- Adds a question mark before a key, or a colon before a value that no key on its line belongs
to. Without braces it must be where a key can start. -/
def pushMark? (s : YamlScanner) (mark : YamlToken) (column : Nat) : Option YamlScanner :=
  if s.inBraces then some { s.push mark with keyAllowed := false }
  else if s.keyAllowed then (s.enterBlock? column).map (push · mark)
  else none

def pushKey? (s : YamlScanner) (column : Nat) : Option YamlScanner := do
  let s ← s.beginToken? column
  let s ← s.pushMark? .key column
  s.dropKey?

/-- Adds a colon. If a key may have started on its line, it did. -/
def pushValue? (s : YamlScanner) (column : Nat) : Option YamlScanner := do
  let s ← s.beginToken? column
  match s.keyPlace with
  | some place =>
    (s.enterBlock? place.column).map fun s =>
      { s.push .value with keyAllowed := false, keyPlace := none, settled := .key :: s.settled }
  | none => s.pushMark? .value column

/-! ## Single characters -/

/-- Starts a scalar or what can stand in front of one. -/
def beginScalar? (s : YamlScanner) (mode : YamlMode) : Option YamlScanner := do
  let s ← s.beginToken? s.column
  let s ← s.markKey?
  some (s.enter mode)

/-- Starts a scalar on a line of its own. The next line can start a key. -/
def beginLine? (s : YamlScanner) (style : YamlStyle) : Option YamlScanner := do
  let s ← s.beginToken? s.column
  let s ← s.dropKey?
  if s.inBraces then none else some { s.enter (.lineHeader style []) with keyAllowed := true }

/-- A mark or directive in the first column, outside braces. -/
def beginMarker? (s : YamlScanner) (mode : YamlMode) : Option YamlScanner :=
  if s.inBraces then none
  else s.dropKey?.map fun s => { s.enter mode with keyAllowed := false }

/-- A character where a token can start. -/
def start? (s : YamlScanner) (c : Char) : Option YamlScanner :=
  match c with
  | '\n' => some { s.enter .between with keyAllowed := s.keyAllowed || !s.inBraces }
  | ' ' => some (s.enter .between)
  | '\t' => if s.inBraces || !s.keyAllowed then some (s.enter .between) else none
  | '#' => some (s.enter .comment)
  | '\x7b' =>
    if s.inBraces then none
    else some { s.push .mappingStart with inBraces := true, keyAllowed := true, keyPlace := none }
  | '\x7d' =>
    if s.inBraces then
      some { s.push .mappingEnd with inBraces := false, keyAllowed := false, keyPlace := none }
    else none
  | ',' =>
    if s.inBraces then some { s.push .comma with keyAllowed := true, keyPlace := none } else none
  | ':' => if s.inBraces then s.pushValue? s.column else some (s.enter .colon)
  | '?' => if s.inBraces then s.pushKey? s.column else some (s.enter .question)
  | '\x27' => s.beginScalar? (.single [])
  | '\x22' => s.beginScalar? (.double [])
  | '&' => s.beginScalar? (.anchor [])
  | '*' => s.beginScalar? (.alias [])
  | '!' => s.beginScalar? (.tag ['!'])
  | '|' => s.beginLine? .literal
  | '>' => s.beginLine? .folded
  | c =>
    if s.column = 0 && c = YamlChar.byteOrderMark then some (s.enter .between)
    else if s.column = 0 && (c = '-' || c = '.') then s.beginMarker? (.marker c 1)
    else if s.column = 0 && c = '%' then s.beginMarker? (.directive [])
    else if YamlChar.isReserved c then none
    else s.beginScalar? (.plain [c])

/-- A character after part of a document mark, which fills its first three columns. Other
characters would make a scalar of it that no setting is. -/
def inMarker? (s : YamlScanner) (mark : Char) (count : Nat) (c : Char) : Option YamlScanner :=
  if count < 3 && c = mark then some (s.enter (.marker mark (count + 1)))
  else if count = 3 && YamlChar.isBlank c then
    (s.push (if mark = '-' then .documentStart else .documentEnd)).start? c
  else none

/-- A character of a directive. The line break behind it does not allow a key. -/
def inDirective? (s : YamlScanner) (text : List Char) (c : Char) : Option YamlScanner :=
  if c = '\n' then (YamlDirective.ofText? text.reverse).map s.push
  else some (s.enter (.directive (c :: text)))

/-! ## Plain scalars -/

def endPlain (s : YamlScanner) (text : List Char) (broken : Bool) : YamlScanner :=
  { s.push (.scalar .plain (textOf text)) with keyAllowed := broken }

/-- A blank or another character after the blanks behind a plain scalar. A scalar that goes on
there has several words, as no setting has. -/
def inGap? (s : YamlScanner) (text : List Char) (broken : Bool) (c : Char) : Option YamlScanner :=
  let isOutside := broken && s.column < s.innerColumn
  let ended := s.endPlain text broken
  match c with
  | ' ' => some (s.enter (.gap text broken))
  | '\t' => if isOutside then none else some (s.enter (.gap text broken))
  | '\n' => some (s.enter (.gap text true))
  | '#' => ended.start? c
  | c =>
    if (isOutside && !s.inBraces) || (s.inBraces && YamlChar.isFlowMark c) then ended.start? c
    else if c = ':' then some (s.enter (.gapColon text broken))
    else none

/-- A character after part of a plain scalar. -/
def inPlain? (s : YamlScanner) (text : List Char) (c : Char) : Option YamlScanner :=
  if YamlChar.isBlank c then s.inGap? text false c
  else if c = ':' then some (s.enter (.plainColon text))
  else if s.inBraces && YamlChar.isFlowMark c then (s.endPlain text false).start? c
  else some (s.enter (.plain (c :: text)))

/-- A blank after the colon that ends a plain scalar. -/
def afterColon? (s : YamlScanner) (text : List Char) (broken : Bool) (c : Char) :
    Option YamlScanner := do
  let s ← (s.endPlain text broken).pushValue? (s.column - 1)
  s.start? c

/-- A character after a colon right behind part of a plain scalar. -/
def inPlainColon? (s : YamlScanner) (text : List Char) (c : Char) : Option YamlScanner :=
  if YamlChar.isBlank c then s.afterColon? text false c
  else if s.inBraces && (c = '?' || YamlChar.isFlowMark c) then none
  else s.inPlain? (':' :: text) c

/-! ## Quoted scalars -/

/-- A character between single quotes. A quote inside is written twice. -/
def inSingle? (s : YamlScanner) (text : List Char) (c : Char) : Option YamlScanner :=
  if c = '\n' then none
  else if c = '\x27' then some (s.enter (.singleQuote text))
  else some (s.enter (.single (c :: text)))

def afterSingleQuote? (s : YamlScanner) (text : List Char) (c : Char) : Option YamlScanner :=
  if c = '\x27' then some (s.enter (.single (c :: text)))
  else (s.push (.scalar .quoted (textOf text))).start? c

/-- A character between double quotes. -/
def inDouble? (s : YamlScanner) (text : List Char) (c : Char) : Option YamlScanner :=
  match c with
  | '\n' => none
  | '\x22' => some (s.push (.scalar .quoted (textOf text)))
  | '\x5c' => some (s.enter (.doubleEscape text))
  | c => some (s.enter (.double (c :: text)))

/-- A character after a backslash. Of what can follow, only the number of a character and a line
break lead to a text that a setting has. -/
def inEscape? (s : YamlScanner) (text : List Char) (c : Char) : Option YamlScanner :=
  match c with
  | 'x' => some (s.enter (.doubleCode text 2 0))
  | 'u' => some (s.enter (.doubleCode text 4 0))
  | 'U' => some (s.enter (.doubleCode text 8 0))
  | '\n' => some (s.enter (.doubleBreak text))
  | _ => none

/-- A digit of an escaped character. -/
def inCode? (s : YamlScanner) (text : List Char) (digits code : Nat) (c : Char) :
    Option YamlScanner := do
  let digit ← Numeral.digit? 16 c
  let code := 16 * code + digit
  if 1 < digits then some (s.enter (.doubleCode text (digits - 1) code))
  else if code.isValidChar then some (s.enter (.double (Char.ofNat code :: text)))
  else none

/-- Blanks at the start of a line behind an escaped line break do not count. -/
def afterBreak? (s : YamlScanner) (text : List Char) (c : Char) : Option YamlScanner :=
  if YamlChar.isSpace c then some s else s.inDouble? text c

/-! ## Properties -/

/-- A character after part of the name of an anchor. -/
def inName? (s : YamlScanner) (mode : List Char → YamlMode) (token : String → YamlToken)
    (name : List Char) (c : Char) : Option YamlScanner :=
  if YamlChar.isName c then some (s.enter (mode (c :: name)))
  else if name.isEmpty || !YamlChar.endsName c then none
  else (s.push (token (textOf name))).start? c

def inTag? (s : YamlScanner) (text : List Char) (c : Char) : Option YamlScanner :=
  if YamlChar.isBlank c || (s.inBraces && c = ',' && !YamlTag.isOpen text.reverse) then
    (YamlTag.ofText? text.reverse).bind fun tag => (s.push (.tag tag)).start? c
  else some (s.enter (.tag (c :: text)))

/-! ## Scalars on a line of their own -/

def inLineHeader? (s : YamlScanner) (style : YamlStyle) (text : List Char) (c : Char) :
    Option YamlScanner :=
  if c = '\n' then
    (LineScalar.ofText? style (s.indent.getD 0) text.reverse).map fun header =>
      s.enter (.lineIndent header)
  else some (s.enter (.lineHeader style (c :: text)))

/-- A character in front of the text. Behind a header that does not give the column of the text
it is the first one that is not blank. -/
def inLineIndent? (s : YamlScanner) (header : LineScalar) (c : Char) : Option YamlScanner :=
  let isColumn := match header.column with
    | some column => s.column = column
    | none => 1 ≤ s.column && s.innerColumn ≤ s.column
  if c = ' ' then if header.column = some s.column then none else some s
  else if isColumn && !YamlChar.isBlank c then some (s.enter (.lineText header s.column [c]))
  else none

def inLineText? (s : YamlScanner) (header : LineScalar) (column : Nat) (text : List Char)
    (c : Char) : Option YamlScanner :=
  if c ≠ '\n' then some (s.enter (.lineText header column (c :: text)))
  else if header.strips then some (s.enter (.lineTail header column text))
  else none

def endLine (s : YamlScanner) (header : LineScalar) (text : List Char) : YamlScanner :=
  s.push (.scalar header.style (textOf text))

/-- A character below the text. In the column of the text it would be another line of it. -/
def inLineTail? (s : YamlScanner) (header : LineScalar) (column : Nat) (text : List Char)
    (c : Char) : Option YamlScanner :=
  if c = '\n' then some s
  else if column ≤ s.column || c = '\t' then none
  else if c = ' ' then some s
  else (s.endLine header text).start? c

/-! ## Texts -/

def read? (s : YamlScanner) (c : Char) : Option YamlScanner :=
  match s.mode with
  | .between => s.start? c
  | .comment => if c = '\n' then s.start? c else some s
  | .marker mark count => s.inMarker? mark count c
  | .directive text => s.inDirective? text c
  | .colon => if YamlChar.isBlank c then (s.pushValue? (s.column - 1)).bind (start? · c) else none
  | .question => if YamlChar.isBlank c then (s.pushKey? (s.column - 1)).bind (start? · c) else none
  | .plain text => s.inPlain? text c
  | .plainColon text => s.inPlainColon? text c
  | .gap text broken => s.inGap? text broken c
  | .gapColon text broken => if YamlChar.isBlank c then s.afterColon? text broken c else none
  | .single text => s.inSingle? text c
  | .singleQuote text => s.afterSingleQuote? text c
  | .double text => s.inDouble? text c
  | .doubleEscape text => s.inEscape? text c
  | .doubleCode text digits code => s.inCode? text digits code c
  | .doubleBreak text => s.afterBreak? text c
  | .anchor name => s.inName? .anchor .anchor name c
  | .alias name => s.inName? .alias .alias name c
  | .tag text => s.inTag? text c
  | .lineHeader style text => s.inLineHeader? style text c
  | .lineIndent header => s.inLineIndent? header c
  | .lineText header column text => s.inLineText? header column text c
  | .lineTail header column text => s.inLineTail? header column text c

/-- The next place in the text. -/
def advance (s : YamlScanner) (c : Char) : YamlScanner :=
  if c = '\n' then { s with line := s.line + 1, column := 0 } else { s with column := s.column + 1 }

def step? (s : YamlScanner) (c : Char) : Option YamlScanner := (s.read? c).map (advance · c)

/-- Ends what the end of the text ends. Where it differs from a line break, it ends the text of a
line and leaves no break behind it. -/
def ended? (s : YamlScanner) : Option YamlScanner :=
  match s.mode with
  | .lineText header _ text => some (s.endLine header text)
  | .lineTail header _ text => some (s.endLine header text)
  | _ =>
    (s.read? '\n').bind fun s =>
      match s.mode with
      | .between => some s
      | .gap text broken => some (s.endPlain text broken)
      | _ => none

def tokens (s : YamlScanner) : List YamlToken := (s.recent ++ s.settled).reverse

end YamlScanner

/-- The tokens of a text. -/
def scanYaml? (text : List Char) : Option (List YamlToken) := do
  if text.all YamlChar.isAllowed then
    let s ← (YamlChar.normalBreaks text).foldlM YamlScanner.step? {}
    let s ← s.ended?
    s.dropKey?.map YamlScanner.tokens
  else none

end ScorePlayback
