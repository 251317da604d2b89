import ScorePlayback.Decimal.Shortest
import ScorePlayback.SoundTable
import ScorePlayback.Time.Binary
import ScorePlayback.Yaml.Block

/-! # Sound tables as YAML -/

namespace ScorePlayback

/-- Times are written with the fewest digits that identify them, without an exponent from
0.00001 up to 10¹⁶, and always as a fraction. -/
def Yaml.timeLayout : Layout where
  plainFrom := some (-5)
  plainTo := some 15
  pointZero := true
  infinity := ".inf"
  nan := ".nan"

def Yaml.time (x : Float) : Yaml := .scalar (timeLayout.text x)

def Yaml.count (n : Nat) : Yaml := .scalar (toString n)

def ObjectRef.yaml (r : ObjectRef) : Yaml :=
  .record [("instrument", .count r.instrument), ("index", .count r.index)]

def Rhythm.yaml (r : Rhythm Float) : Yaml :=
  .record [("pulses", .count r.pulses), ("measureDuration", .time r.measureDuration)]

/-- A missing staff object or rhythm is left out. -/
def SoundEvent.yaml (e : SoundEvent Float) : Yaml :=
  .record ([("kind", .scalar e.kind.text), ("time", .time e.time), ("deltaTime", .time e.delta),
    ("channel", .count e.channel), ("instrument", .count e.program), ("pitch", .count e.pitch),
    ("measure", .count e.measure)]
    ++ (e.object.map fun o => ("staffObject", o.yaml)).toList
    ++ (e.rhythm.map fun r => ("rhythm", r.yaml)).toList)

def JumpSlot.yaml (s : JumpSlot) : Yaml :=
  .record [("triggerMeasure", .count s.triggerMeasure), ("triggerEvent", .count s.triggerEvent),
    ("required", .count s.required), ("applied", .count s.applied),
    ("targetMeasure", .count s.targetMeasure), ("targetEvent", .count s.targetEvent)]

def JumpTable.yaml (t : JumpTable) : Yaml :=
  .record [("entries", .list (t.entries.map fun e => .record [("slots", .list (e.slots.map JumpSlot.yaml))])),
    ("notices", .list (t.notices.map fun n => .scalar n.message))]

namespace SoundTable

def eventsYaml (t : SoundTable Float) : Yaml := .list (t.events.map SoundEvent.yaml)

def yaml (t : SoundTable Float) : Yaml :=
  .record [("events", t.eventsYaml), ("measures", .list (t.measures.map .count)),
    ("numMeasures", .count t.measureCount), ("jumps", t.jumps.yaml)]

end SoundTable
end ScorePlayback
