/-! # Settings of a compilation -/

namespace ScorePlayback

structure Settings where
  /-- Beams without written segments get them from the note values. -/
  autoBeam : Bool := true
  /-- The note options `l`, `g+` and `g-` are allowed. -/
  legacySyntax : Bool := true
  /-- How often a repeat that does not say so is repeated. -/
  repeatTimes : Nat := 1
  program : Nat := 0
  channel : Nat := 0
deriving DecidableEq, Repr

end ScorePlayback
