import ScorePlayback.Sound.Event
import ScorePlayback.Sound.Timeline

/-! # The sound events of a score

A note sounds from its time until its end. Where two tied notes have the same sound, it is
not released between them: the first note only stops and the second only starts to be
shown. Rests are only shown, and invisible ones are not. -/

namespace ScorePlayback

variable {τ : Type} [TimeValue τ]

/-! ## Ties -/

namespace Score

def sameKey (score : Score τ) (a b : Nat) : Bool :=
  match score.notes[a]?.bind NoteRest.pitch, score.notes[b]?.bind NoteRest.pitch with
  | some p, some q => p.midi = q.midi
  | _, _ => false

/-- The sound of a note goes on in the second note of its tie. -/
def soundGoesOn (score : Score τ) (note : Nat) : Bool :=
  ((score.tieAfter? note).bind fun tie => tie.parts[1]?).any (score.sameKey note)

/-- The sound of a note started in the last but one note of its tie. -/
def soundStarted (score : Score τ) (note : Nat) : Bool :=
  ((score.tieBefore? note).bind fun tie => tie.parts.reverse[1]?).any fun previous =>
    score.sameKey previous note

end Score

/-! ## The events of one object -/

/-- The parts of an event that come from its instrument and its staff object. -/
def objectEvent (midi : MidiInfo) (object : StaffObject τ) (ref : ObjectRef) (kind : EventKind)
    (time : τ) (pitch : Nat) (rhythm : Option (Rhythm τ)) : SoundEvent τ where
  kind := kind
  time := time
  delta := TimeValue.zero
  channel := midi.channel
  program := midi.program
  pitch := pitch
  measure := object.measure
  object := some ref
  rhythm := rhythm

def StaffObject.finish (object : StaffObject τ) : τ := object.time + object.duration

/-- The events of a staff object. -/
def objectEvents (score : Score τ) (midi : MidiInfo) (object : StaffObject τ) (ref : ObjectRef) :
    List (SoundEvent τ) :=
  let event := objectEvent midi object ref
  match object.symbol with
  | .noteRest number =>
    match score.notes[number]? with
    | none => []
    | some note =>
      match note.pitch with
      | some pitch =>
        let on := if score.soundStarted number then .visualOn else .noteOn
        let off := if score.soundGoesOn number then .visualOff else .noteOff
        [event on object.time pitch.midi none, event off object.finish pitch.midi none]
      | none =>
        if note.visible then
          [event .visualOn object.time 0 none, event .visualOff object.finish 0 none]
        else []
  | .meter meter =>
    [event .rhythmChange object.time 0 (some ⟨meter.pulses, meter.measureDuration⟩)]
  | _ => []

/-- The events of an instrument, in the order of time of their objects. -/
def instrumentEvents (score : Score τ) (instrument : Instrument τ) (number : Nat) :
    List (SoundEvent τ) :=
  (inTimeOrder instrument.timeline).flatMap fun (object, index) =>
    objectEvents score instrument.midi object ⟨number, index⟩

/-! ## All events -/

def programChange (midi : MidiInfo) : SoundEvent τ where
  kind := .programChange
  time := TimeValue.zero
  delta := TimeValue.zero
  channel := midi.channel
  program := midi.program
  pitch := 0
  measure := 0
  object := none
  rhythm := none

/-- The time at which the last staff object ends. -/
def endTime (score : Score τ) : τ :=
  (score.instruments.flatMap fun i => i.timeline.map StaffObject.finish).foldl TimeValue.later
    TimeValue.zero

def endOfScore (score : Score τ) : SoundEvent τ where
  kind := .endOfScore
  time := endTime score
  delta := TimeValue.zero
  channel := 0
  program := 0
  pitch := 0
  measure := lastMeasure score + 1
  object := none
  rhythm := none

/-- All events, instrument by instrument. -/
def unorderedEvents (score : Score τ) : List (SoundEvent τ) :=
  score.instruments.map (fun i => programChange i.midi)
    ++ score.instruments.zipIdx.flatMap (fun (i, number) => instrumentEvents score i number)
    ++ [endOfScore score]

/-- Gives each event the time since the one before, the first one the time since `previous`. -/
def withDeltas (previous : τ) : List (SoundEvent τ) → List (SoundEvent τ)
  | [] => []
  | e :: rest => { e with delta := e.time - previous } :: withDeltas e.time rest

/-- The events of a score in the order of time. Events that share a time are ordered by
their rank and otherwise keep their order. -/
def soundEvents (score : Score τ) : List (SoundEvent τ) :=
  withDeltas TimeValue.zero
    (stableSort (TimeValue.notAfter SoundEvent.time fun e => e.kind.rank) (unorderedEvents score))

end ScorePlayback
