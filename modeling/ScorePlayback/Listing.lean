import ScorePlayback.Decimal.Fixed
import ScorePlayback.Decimal.Shortest
import ScorePlayback.SoundTable
import ScorePlayback.Time.Binary

/-! # Listings for human readers -/

namespace ScorePlayback

/-! ## Jumps -/

/-- One slot of an entry, on the line of the entry. -/
def JumpSlot.listing (s : JumpSlot) (number : Nat) : String :=
  " [slot " ++ toString number ++ "] at measure " ++ toString s.triggerMeasure
    ++ " (event " ++ toString s.triggerEvent ++ ") x" ++ toString s.required
    ++ " -> measure " ++ toString s.targetMeasure ++ " (event " ++ toString s.targetEvent ++ ")"

def JumpEntry.listing (e : JumpEntry) (number : Nat) : String :=
  "  " ++ padLeft 3 (toString number) ++ ":"
    ++ String.join (e.slots.zipIdx.map fun (slot, n) => slot.listing n) ++ "\n"

def JumpTable.listing (t : JumpTable) : String :=
  "Jumps:\n" ++ String.join (t.entries.zipIdx.map fun (entry, n) => entry.listing n)
    ++ String.join (t.notices.map fun n => "  note: " ++ n.message ++ "\n")

/-! ## Events -/

namespace SoundEvent

/-- A measure duration is written with the digits it needs and without an exponent. -/
def durationLayout : Layout where
  plainFrom := none
  plainTo := none
  pointZero := false
  infinity := "inf"
  nan := "NaN"

def row (number time delta measure kind channel program pitch : String) : String :=
  padLeft 5 number ++ " " ++ padLeft 9 time ++ " " ++ padLeft 9 delta ++ " " ++ padLeft 7 measure
    ++ "  " ++ padRight 15 kind ++ " " ++ padLeft 3 channel ++ " " ++ padLeft 5 program ++ " "
    ++ padLeft 5 pitch

def heading : String := row "#" "time" "delta" "measure" "kind" "ch" "instr" "pitch"

/-- Times have two places. -/
def listing (e : SoundEvent Float) (number : Nat) : String :=
  let rhythm := match e.rhythm with
    | some r => "  pulses=" ++ toString r.pulses ++ " duration=" ++ durationLayout.text r.measureDuration
    | none => ""
  row (toString number) (Fixed.text 2 e.time) (Fixed.text 2 e.delta) (toString e.measure) e.kind.text
    (toString e.channel) (toString e.program) (toString e.pitch) ++ rhythm ++ "\n"

end SoundEvent

namespace SoundTable

/-- The events and the first event of each measure. -/
def eventListing (t : SoundTable Float) : String :=
  "Events:\n" ++ SoundEvent.heading ++ "\n"
    ++ String.join (t.events.zipIdx.map fun (event, n) => event.listing n)
    ++ "Measures:\n"
    ++ String.join (t.measures.zipIdx.map fun (event, measure) =>
      "  " ++ padLeft 4 (toString measure) ++ " -> event " ++ toString event ++ "\n")

def listing (t : SoundTable Float) : String := t.eventListing ++ t.jumps.listing

end SoundTable
end ScorePlayback
