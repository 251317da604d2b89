import ScorePlayback.Repeat.Compile
import ScorePlayback.Sound.Generate

/-! # Sound tables

The events of a score, where its measures start, and its jumps: all that a player needs. -/

namespace ScorePlayback

structure SoundTable (τ : Type) where
  events : List (SoundEvent τ)
  measures : List Nat
  measureCount : Nat
  jumps : JumpTable
deriving Repr

/-! ## Playing -/

/-- The events that are played from one event on, with the jumps that are left. -/
def playFrom (size : Nat) (jumps : JumpTable) (event : Nat) : List Nat :=
  if event < size then
    match h : jumps.follow? event with
    | some (target, rest) => playFrom size rest target
    | none => event :: playFrom size jumps (event + 1)
  else []
termination_by jumps.remaining * (size + 1) + (size - event)
decreasing_by
  · have hr := JumpTable.remaining_of_follow? h
    rw [← hr, Nat.add_mul]
    omega
  · omega

/-- The measures that start at an event. -/
def measuresAt (index : List Nat) (measureCount event : Nat) : List Nat :=
  (List.range' 1 measureCount).filter fun measure => index[measure]? = some event

namespace SoundTable

variable {τ : Type}

def ofScore [TimeValue τ] (score : Score τ) : SoundTable τ :=
  let events := soundEvents score
  let measureCount := lastMeasure score
  let measures := measureIndex (events.map SoundEvent.measure) measureCount
  ⟨events, measures, measureCount, (RepeatPlan.ofMarks (repeatMarks score)).jumpTable measures⟩

/-- The events in the order in which they are played. -/
def playOrder (t : SoundTable τ) : List Nat := playFrom t.events.length t.jumps.reset 0

/-- The measures in the order in which they are played. -/
def measureSequence (t : SoundTable τ) : List Nat :=
  t.playOrder.flatMap (measuresAt t.measures t.measureCount)

end SoundTable
end ScorePlayback
