import ScorePlayback.Score

/-! # Sound events -/

namespace ScorePlayback

inductive EventKind where
  /-- Selects the program of an instrument. -/
  | programChange
  | noteOn
  | noteOff
  /-- Shows a rest or a tied note, without sound. -/
  | visualOn
  | visualOff
  /-- A new time signature. -/
  | rhythmChange
  | endOfScore
deriving DecidableEq, Repr

namespace EventKind

def text : EventKind → String
  | .programChange => "program-change"
  | .noteOn => "note-on"
  | .noteOff => "note-off"
  | .visualOn => "visual-on"
  | .visualOff => "visual-off"
  | .rhythmChange => "rhythm-change"
  | .endOfScore => "end-of-score"

/-- At the same time releases come first and the end of the score last. -/
def rank : EventKind → Nat
  | .noteOff => 0
  | .visualOff => 0
  | .endOfScore => 2
  | _ => 1

end EventKind

/-- The place of a staff object: its instrument, and its index in the timeline. -/
structure ObjectRef where
  instrument : Nat
  index : Nat
deriving DecidableEq, Repr

/-- Beats per measure and the duration of a measure. -/
structure Rhythm (τ : Type) where
  pulses : Nat
  measureDuration : τ
deriving DecidableEq, Repr

/-- `delta` is the time since the event before. Program changes are in measure 0; the end of
the score is in the measure behind the last. -/
structure SoundEvent (τ : Type) where
  kind : EventKind
  time : τ
  delta : τ
  channel : Nat
  program : Nat
  pitch : Nat
  measure : Nat
  object : Option ObjectRef
  rhythm : Option (Rhythm τ)
deriving Repr

end ScorePlayback
