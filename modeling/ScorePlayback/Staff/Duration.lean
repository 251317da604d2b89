import ScorePlayback.Time

/-! # Written durations

A duration is a letter for the note value and any number of dots, such as `q` or
`h..`. The dots are counted in 8 bits. -/

namespace ScorePlayback

inductive NoteValue where
  | long | breve | whole | half | quarter | eighth | sixteenth
  | thirtySecond | sixtyFourth | hundredTwentyEighth
deriving DecidableEq, Repr

namespace NoteValue

def ofLetter? : Char → Option NoteValue
  | 'l' => some .long
  | 'b' => some .breve
  | 'w' => some .whole
  | 'h' => some .half
  | 'q' => some .quarter
  | 'e' => some .eighth
  | 's' => some .sixteenth
  | 't' => some .thirtySecond
  | 'i' => some .sixtyFourth
  | 'o' => some .hundredTwentyEighth
  | _ => none

/-- Units of time without dots; a whole note has 256. -/
def units : NoteValue → Nat
  | .long => 1024
  | .breve => 512
  | .whole => 256
  | .half => 128
  | .quarter => 64
  | .eighth => 32
  | .sixteenth => 16
  | .thirtySecond => 8
  | .sixtyFourth => 4
  | .hundredTwentyEighth => 2

/-- How many beams a note of this value carries. -/
def beams : NoteValue → Nat
  | .eighth => 1
  | .sixteenth => 2
  | .thirtySecond => 3
  | .sixtyFourth => 4
  | .hundredTwentyEighth => 5
  | _ => 0

end NoteValue

structure WrittenDuration where
  value : NoteValue
  dots : Nat
deriving DecidableEq, Repr

namespace WrittenDuration

def read? : List Char → Option WrittenDuration
  | [] => none
  | letter :: dots =>
    if dots.all (· = '.') then (NoteValue.ofLetter? letter).map (⟨·, dots.length % 256⟩) else none

variable {τ : Type} [TimeValue τ]

/-- Adds `dots` dots to a total; each is worth half of what was added last. -/
def addDots (total added : τ) : Nat → τ
  | 0 => total
  | dots + 1 =>
    let half := added / TimeValue.ofNat 2
    addDots (total + half) half dots

def units (d : WrittenDuration) : τ :=
  let base := TimeValue.ofNat d.value.units
  addDots base base d.dots

end WrittenDuration
end ScorePlayback
