/-! # Clefs -/

namespace ScorePlayback

inductive Clef where
  | g | f4 | f3 | c1 | c2 | c3 | c4 | percussion
deriving DecidableEq, Repr

def Clef.ofName? : String → Option Clef
  | "G" | "G2" | "treble" => some .g
  | "F" | "F4" | "bass" => some .f4
  | "F3" => some .f3
  | "C1" => some .c1
  | "C2" => some .c2
  | "C3" | "alto" => some .c3
  | "C4" | "tenor" => some .c4
  | "percussion" => some .percussion
  | _ => none

end ScorePlayback
