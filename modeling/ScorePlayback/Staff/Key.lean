import ScorePlayback.Staff.Pitch
import ScorePlayback.Text.Blank

/-! # Key signatures -/

namespace ScorePlayback

inductive Mode where
  | major | minor
deriving DecidableEq, Repr

/-- A positive number of fifths counts sharps, a negative one flats. -/
structure KeySignature where
  fifths : Int
  mode : Mode
deriving DecidableEq, Repr

namespace KeySignature

def majorKeys : List (String × Int) :=
  [("C", 0), ("G", 1), ("D", 2), ("A", 3), ("E", 4), ("B", 5), ("F#", 6), ("C#", 7),
   ("F", -1), ("Bb", -2), ("Eb", -3), ("Ab", -4), ("Db", -5), ("Gb", -6), ("Cb", -7)]

def minorKeys : List (String × Int) :=
  [("A", 0), ("E", 1), ("B", 2), ("F#", 3), ("C#", 4), ("G#", 5), ("D#", 6), ("A#", 7),
   ("D", -1), ("G", -2), ("C", -3), ("F", -4), ("Bb", -5), ("Eb", -6), ("Ab", -7)]

def ofTonic? (mode : Mode) (tonic : List Char) : Option KeySignature :=
  let keys := match mode with
    | .major => majorKeys
    | .minor => minorKeys
  (keys.lookup (String.ofList tonic)).map (⟨·, mode⟩)

/-- The sharp and flat signs of this notation in their usual spelling. -/
def spellSign : Char → Char
  | '+' => '#'
  | '-' => 'b'
  | c => c

/-- Reads the name of a key. A minor key has a small letter (`a`, `f+`) or ends in `m`
(`Am`, `F#m`). -/
def read? (text : List Char) : Option KeySignature :=
  match trimBlanks text with
  | [] => none
  | first :: rest =>
    let rest := rest.map spellSign
    if first.isLower then ofTonic? .minor (first.toUpper :: rest)
    else if rest.getLast? = some 'm' then ofTonic? .minor (first :: rest.dropLast)
    else ofTonic? .major (first :: rest)

def sharps : List Step := [.f, .c, .g, .d, .a, .e, .b]

def flats : List Step := sharps.reverse

/-- The alteration that the key gives to a step. -/
def alterFor (key : KeySignature) (step : Step) : Int :=
  if 0 < key.fifths && (sharps.take key.fifths.natAbs).contains step then 1
  else if key.fifths < 0 && (flats.take key.fifths.natAbs).contains step then -1
  else 0

def cMajor : KeySignature := ⟨0, .major⟩

end KeySignature
end ScorePlayback
