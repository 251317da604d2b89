import ScorePlayback.Numeral

/-! # Pitches

A written pitch is an accidental, a letter and an octave, such as `c4`, `+f4`,
`--b3` or `=e5`. -/

namespace ScorePlayback

inductive Step where
  | c | d | e | f | g | a | b
deriving DecidableEq, Repr

namespace Step

def ofLetter? (letter : Char) : Option Step :=
  match letter.toLower with
  | 'c' => some .c
  | 'd' => some .d
  | 'e' => some .e
  | 'f' => some .f
  | 'g' => some .g
  | 'a' => some .a
  | 'b' => some .b
  | _ => none

def letter : Step → Char
  | .c => 'c'
  | .d => 'd'
  | .e => 'e'
  | .f => 'f'
  | .g => 'g'
  | .a => 'a'
  | .b => 'b'

/-- Semitones above C. -/
def semitone : Step → Nat
  | .c => 0
  | .d => 2
  | .e => 4
  | .f => 5
  | .g => 7
  | .a => 9
  | .b => 11

theorem ofLetter?_letter (s : Step) : ofLetter? s.letter = some s := by
  cases s <;> rfl

end Step

/-- `accidental` is the alteration written on the note, if any; `alter` is the one
that sounds, in semitones. -/
structure Pitch where
  step : Step
  octave : Int
  accidental : Option Int
  alter : Int
deriving DecidableEq, Repr

namespace Pitch

/-- The alteration that a sign in front of a step writes; no sign writes none. -/
def readAccidental? (sign : List Char) : Option (Option Int) :=
  if sign = [] then some none
  else if sign = ['+'] || sign = ['#'] then some (some 1)
  else if sign = ['-'] then some (some (-1))
  else if sign = ['+', '+'] || sign = ['x'] || sign = ['#', '#'] then some (some 2)
  else if sign = ['-', '-'] then some (some (-2))
  else if sign = ['='] then some (some 0)
  else none

/-- An `x` is an accidental, so the step is the first other letter. -/
def isSign (c : Char) : Bool := !(c.isAlpha && c ≠ 'x')

/-- Reads a written pitch. Until it meets its key and measure it sounds as written. -/
def read? (text : List Char) : Option Pitch :=
  match text.dropWhile isSign with
  | [] => none
  | letter :: octave => do
    let accidental ← readAccidental? (text.takeWhile isSign)
    let step ← Step.ofLetter? letter
    let octave ← Numeral.within? 0 9 octave
    some ⟨step, octave, accidental, accidental.getD 0⟩

/-- The MIDI key number, with C4 at 60 and both ends of the keyboard as limits. -/
def midi (p : Pitch) : Nat :=
  min 127 ((p.octave + 1) * 12 + p.step.semitone + p.alter).toNat

def sameSound (p q : Pitch) : Bool :=
  p.step = q.step && p.octave = q.octave && p.alter = q.alter

def sign (alter : Int) : String :=
  if alter = 2 then "++"
  else if alter = 1 then "+"
  else if alter = -1 then "-"
  else if alter = -2 then "--"
  else ""

/-- The pitch that sounds, in the spelling of written pitches. -/
def text (p : Pitch) : String := sign p.alter ++ p.step.letter.toString ++ toString p.octave

end Pitch
end ScorePlayback
