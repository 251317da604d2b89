/-! # Tokens of a flat YAML mapping

Only what a mapping of keys to scalars can hold has a token. Lists, mappings inside a mapping and
scalars of several words or lines, which no setting uses, have none. -/

namespace ScorePlayback

inductive YamlStyle where
  | plain
  | quoted
  /-- A line of its own behind a bar. -/
  | literal
  /-- A line of its own behind a greater-than sign. -/
  | folded
deriving DecidableEq, Repr

/-- A tag as it is written. Without a handle the suffix is the whole tag. -/
structure YamlTag where
  handle : String
  suffix : String
deriving DecidableEq, Repr

inductive YamlToken where
  | documentStart
  | documentEnd
  | version (major minor : Nat)
  /-- What a handle stands for in tags. -/
  | handle (name meaning : String)
  | mappingStart
  | mappingEnd
  | comma
  /-- The question mark before a key, or the start of a key without one. -/
  | key
  /-- The colon before a value. -/
  | value
  | scalar (style : YamlStyle) (text : String)
  | anchor (name : String)
  | alias (name : String)
  | tag (tag : YamlTag)
deriving DecidableEq, Repr

/-! ## Characters -/

namespace YamlChar

def breaks : List Char := ['\n', '\r', '\u0085', '\u2028', '\u2029']

/-- Control characters are not allowed, not even in comments. -/
def isAllowed (c : Char) : Bool :=
  c = '\t' || breaks.contains c || (' ' ≤ c && c ≤ '~') || (0xA0 ≤ c.toNat && c.toNat ≤ 0xFFFD)
    || 0x10000 ≤ c.toNat

/-- Writes every line break as a line feed. -/
def normalBreaks : List Char → List Char
  | [] => []
  | '\r' :: '\n' :: rest => '\n' :: normalBreaks rest
  | c :: rest => (if breaks.contains c then '\n' else c) :: normalBreaks rest

def isSpace (c : Char) : Bool := c = ' ' || c = '\t'

def isBlank (c : Char) : Bool := isSpace c || c = '\n'

def byteOrderMark : Char := '\ufeff'

/-- A plain scalar inside braces ends before these. -/
def isFlowMark (c : Char) : Bool := [',', '[', ']', '\x7b', '\x7d'].contains c

/-- What no setting starts with. A dash can start a scalar, but neither a key nor a count nor a
truth value. -/
def isReserved (c : Char) : Bool := ['-', '[', ']', '|', '>', '@', '\x60', '%'].contains c

/-- Names of anchors, handles and directives consist of these. -/
def isName (c : Char) : Bool := c.isAlphanum || c = '_' || c = '-'

/-- What may stand right behind the name of an anchor. -/
def endsName (c : Char) : Bool :=
  isBlank c || ['?', ':', ',', ']', '\x7d', '%', '@', '\x60'].contains c

/-- Whether the rest of a line holds nothing, blanks and a comment aside. -/
def isLineEnd (rest : List Char) : Bool :=
  match rest.dropWhile isSpace with
  | [] => true
  | c :: _ => c = '#'

end YamlChar
end ScorePlayback
