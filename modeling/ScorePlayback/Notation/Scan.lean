import ScorePlayback.Notation.ParseError
import ScorePlayback.Text.Blank

/-! # Reading tokens

A text is read character by character. Atoms end before a blank, a parenthesis or a
quote; two slashes start a comment only where a token could start. -/

namespace ScorePlayback

def quoteMark : Char := '\x22'

def escapeMark : Char := '\x5c'

def isAtomChar (c : Char) : Bool := !isBlank c && c ≠ '(' && c ≠ ')' && c ≠ quoteMark

/-- What the characters read last belong to. Texts hold their last character first. -/
inductive ScanMode where
  | between
  | slash (start : Position)
  | comment
  | atom (start : Position) (text : List Char)
  | quoted (start : Position) (text : List Char)
  | escaped (start : Position) (text : List Char)
deriving DecidableEq, Repr

namespace ScanMode

def atomToken (start : Position) (text : List Char) : Token :=
  ⟨.atom (String.ofList text.reverse), start⟩

def quotedToken (start : Position) (text : List Char) : Token :=
  ⟨.quoted (String.ofList text.reverse), start⟩

/-- A character where a token can start. -/
def startToken (p : Position) (c : Char) : ScanMode × List Token :=
  if c = '(' then (.between, [⟨.leftParen, p⟩])
  else if c = ')' then (.between, [⟨.rightParen, p⟩])
  else if c = quoteMark then (.quoted p [], [])
  else if c = '/' then (.slash p, [])
  else if isBlank c then (.between, [])
  else (.atom p [c], [])

/-- A character after part of an atom. -/
def extendAtom (start : Position) (text : List Char) (p : Position) (c : Char) :
    ScanMode × List Token :=
  if isAtomChar c then (.atom start (c :: text), [])
  else ((startToken p c).1, atomToken start text :: (startToken p c).2)

/-- Reads the character at `p`. Yields the tokens that it completes. -/
def step (p : Position) (c : Char) : ScanMode → ScanMode × List Token
  | .between => startToken p c
  | .slash start => if c = '/' then (.comment, []) else extendAtom start ['/'] p c
  | .comment => if c = '\n' then (.between, []) else (.comment, [])
  | .atom start text => extendAtom start text p c
  | .quoted start text =>
    if c = quoteMark then (.between, [quotedToken start text])
    else if c = escapeMark then (.escaped start text, [])
    else (.quoted start (c :: text), [])
  | .escaped start text => (.quoted start (c :: text), [])

/-- The end of the text completes an atom. It also completes a string whose last character
is an escape mark. -/
def finish : ScanMode → Except ParseError (List Token)
  | .between => .ok []
  | .slash start => .ok [atomToken start ['/']]
  | .comment => .ok []
  | .atom start text => .ok [atomToken start text]
  | .quoted start _ => .error ⟨.unterminatedString, start⟩
  | .escaped start text => .ok [quotedToken start text]

end ScanMode

/-- A text read so far; the last token comes first. -/
structure Scanner where
  mode : ScanMode
  position : Position
  tokens : List Token

namespace Scanner

def initial : Scanner := ⟨.between, .first, []⟩

def step (s : Scanner) (c : Char) : Scanner :=
  let (mode, tokens) := s.mode.step s.position c
  ⟨mode, s.position.after c, tokens.reverse ++ s.tokens⟩

def finish (s : Scanner) : Except ParseError (List Token) :=
  s.mode.finish.map fun tokens => s.tokens.reverse ++ tokens

end Scanner

/-- The tokens of a text. -/
def scan (source : String) : Except ParseError (List Token) :=
  (source.toList.foldl Scanner.step Scanner.initial).finish

end ScorePlayback
