import ScorePlayback.Score
import ScorePlayback.StableSort

/-! # Timelines in the order of time -/

namespace ScorePlayback

variable {τ : Type} [TimeValue τ]

/-- The objects of a timeline with their indices, ordered by time and then by voice. Objects
that agree in both keep their order. -/
def inTimeOrder (timeline : List (StaffObject τ)) : List (StaffObject τ × Nat) :=
  stableSort (TimeValue.notAfter (fun e => e.1.time) (fun e => e.1.voice)) timeline.zipIdx

/-- The last measure that has a staff object, or 0. -/
def lastMeasure (score : Score τ) : Nat :=
  (score.instruments.flatMap fun i => i.timeline.map StaffObject.measure).foldl max 0

end ScorePlayback
