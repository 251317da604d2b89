/-! # Barlines -/

namespace ScorePlayback

inductive Barline where
  | simple | double | opening | closing | startRepeat | endRepeat | doubleRepeat
deriving DecidableEq, Repr

namespace Barline

def ofName? : String → Option Barline
  | "simple" => some .simple
  | "double" => some .double
  | "start" => some .opening
  | "end" => some .closing
  | "startRepetition" => some .startRepeat
  | "endRepetition" => some .endRepeat
  | "doubleRepetition" => some .doubleRepeat
  | _ => none

def endsRepeat (b : Barline) : Bool := b = .endRepeat || b = .doubleRepeat

def startsRepeat (b : Barline) : Bool := b = .startRepeat || b = .doubleRepeat

end Barline
end ScorePlayback
