import ScorePlayback.Sound.Event

/-! # The first event of each measure -/

namespace ScorePlayback

/-- For each measure up to the one behind the last, the index of the first event that is not
in an earlier measure. A measure without such an event has the last event of all, and
measure 0 has the first. -/
def measureIndex (eventMeasures : List Nat) (measures : Nat) : List Nat :=
  0 :: (List.range' 1 (measures + 1)).map fun measure =>
    (eventMeasures.findIdx? (measure ≤ ·)).getD (eventMeasures.length - 1)

/-- The first event of a measure; behind the last measure it is the end of the score. -/
def firstEvent (index : List Nat) (measure : Nat) : Nat :=
  index.getD (min measure (index.length - 1)) 0

end ScorePlayback
