import ScorePlayback.Analysis.Control
import ScorePlayback.Analysis.Linking

/-! # Laying out the music of an instrument

A cursor moves through musical time. Notes, rests and other staff objects go onto the
timeline where the cursor stands. -/

namespace ScorePlayback

variable {τ : Type} [TimeValue τ]

/-! ## The cursor -/

structure Cursor (τ : Type) where
  time : τ
  measureStart : τ
  /-- The latest time that any voice has reached in this measure. -/
  reached : τ
  measure : Nat

namespace Cursor

def initial : Cursor τ := ⟨TimeValue.zero, TimeValue.zero, TimeValue.zero, 1⟩

/-- Moves to a later time. -/
def forwardTo (c : Cursor τ) (time : τ) : Cursor τ :=
  { c with time, reached := TimeValue.later c.reached time }

def advance (c : Cursor τ) (duration : τ) : Cursor τ := c.forwardTo (c.time + duration)

/-- Moves to an earlier time, but not out of the measure. -/
def backTo (c : Cursor τ) (time : τ) : Cursor τ :=
  { c with time := TimeValue.later time c.measureStart }

/-- The next measure starts where the longest voice ends. -/
def nextMeasure (c : Cursor τ) : Cursor τ := ⟨c.reached, c.reached, c.reached, c.measure + 1⟩

end Cursor

/-! ## The part of one instrument -/

/-- `accidentals` are those written in the current measure, the last one first. -/
structure Part (τ : Type) where
  timeline : List (StaffObject τ) := []
  cursor : Cursor τ
  key : KeySignature := .cMajor
  accidentals : List ((Step × Int) × Int) := []

namespace Part

def initial : Part τ := { cursor := .initial }

/-- The pitch with the alteration that its accidental, its measure or its key gives it. -/
def resolve (part : Part τ) (p : Pitch) : Pitch :=
  let inherited := (part.accidentals.lookup (p.step, p.octave)).getD (part.key.alterFor p.step)
  { p with alter := p.accidental.getD inherited }

/-- A written accidental holds for the rest of the measure. -/
def remember (part : Part τ) (p : Pitch) : Part τ :=
  match p.accidental with
  | some alter => { part with accidentals := ((p.step, p.octave), alter) :: part.accidentals }
  | none => part

def place (part : Part τ) (object : StaffObject τ) : Part τ :=
  { part with timeline := part.timeline ++ [object] }

end Part

/-! ## Music -/

/-- What a note has if it says nothing else. Every block of music starts afresh. -/
structure Inherited where
  voice : Nat := 1
  staff : Nat := 1
  display : TupletDisplay := {}
deriving DecidableEq, Repr

/-- The state of the analysis inside a block of music. -/
structure Passage (τ : Type) where
  linking : Linking τ
  part : Part τ
  inherited : Inherited := {}

/-- The factor by which tuplets change the duration of a note: those that are open, unless
the note starts one with the same key, and those that it starts. -/
def tupletScale (tuplets : Registry (Option TupletSpec)) (markers : List Marker) : τ :=
  let replaced := Marker.tupletKeys markers
  let remaining := tuplets.openStarts.filter fun start => !replaced.contains start.key
  TimeValue.product ((remaining.filterMap Endpoint.payload).map TupletSpec.scale)
    * TimeValue.product ((Marker.tupletSpecs markers).map TupletSpec.scale)

namespace Passage

def reject (s : Passage τ) (rejections : List Rejection) : Passage τ :=
  { s with linking := s.linking.reject rejections }

def mapCursor (s : Passage τ) (move : Cursor τ → Cursor τ) : Passage τ :=
  { s with part := { s.part with cursor := move s.part.cursor } }

/-! ### Notes and rests -/

/-- The note or rest of a specification, where the cursor stands. -/
def realize (s : Passage τ) (spec : NoteSpec) (position : Position) (inChord : Bool) : NoteRest τ where
  pitch := spec.pitch.map s.part.resolve
  written := spec.duration
  duration := spec.duration.units * tupletScale s.linking.tuplets spec.markers
  visible := spec.visible
  voice := spec.voice.getD s.inherited.voice
  staff := spec.staff.getD s.inherited.staff
  inChord := inChord
  position := position

/-- The staff object of the note with a number. -/
def objectOf (s : Passage τ) (number : Nat) (note : NoteRest τ) : StaffObject τ where
  time := s.part.cursor.time
  duration := note.duration
  symbol := .noteRest number
  measure := s.part.cursor.measure
  voice := note.voice
  staff := note.staff
  position := note.position

/-- Puts a note that has been read where the cursor stands, and links it to others. The
cursor stays. -/
def placeNote (settings : Settings) (s : Passage τ) (reading : NoteReading) (position : Position)
    (inChord : Bool) : Passage τ :=
  let spec := reading.spec
  let note := s.realize spec position inChord
  let number := s.linking.notes.length
  let time := s.part.cursor.time
  let linking := (s.linking.reject reading.rejections).addNote note
  let linking := if note.pitch.isSome then linking.closeLegacyTie number time else linking
  let linking := if note.pitch.isSome && spec.legacyTie
    then linking.startLegacyTie ⟨number, time, note.voice, position⟩ else linking
  let linking := linking.applyLegacyBeam settings number position inChord spec.legacyBeam
  let part := spec.pitch.elim s.part s.part.remember
  { linking := linking.applyMarkers settings number position inChord spec.markers
    part := part.place (s.objectOf number note)
    inherited := ⟨note.voice, note.staff, reading.display⟩ }

/-- Reads and places a note or rest. Also yields its duration, if it was not dropped. -/
def addNote (settings : Settings) (s : Passage τ) (isNote : Bool) (items : List Node)
    (position : Position) (inChord : Bool) : Passage τ × Option τ :=
  match NoteReading.read settings s.inherited.display isNote items with
  | .ok reading =>
    (s.placeNote settings reading position inChord,
      some (s.realize reading.spec position inChord).duration)
  | .error fault => (s.reject [⟨fault, position⟩], none)

/-- Places a note or rest and moves the cursor behind it. -/
def addSingle (settings : Settings) (s : Passage τ) (isNote : Bool) (items : List Node)
    (position : Position) : Passage τ :=
  let (s, duration) := s.addNote settings isNote items position false
  match duration with
  | some duration => s.mapCursor (·.advance duration)
  | none => s

/-- Adds one note to a chord, given the duration of the first note that the chord has. -/
def addChordNote (settings : Settings) (state : Passage τ × Option τ) (child : Node) :
    Passage τ × Option τ :=
  let (s, first) := state
  match child with
  | .element .note items position =>
    let (s, duration) := s.addNote settings true items position first.isSome
    (s, first <|> duration)
  | child => (s.reject [child.misplacedIn .chord], first)

/-- All notes of a chord start together. The cursor moves behind the first one. -/
def addChord (settings : Settings) (s : Passage τ) (children : List Node) (position : Position) :
    Passage τ :=
  let (s, first) := children.foldl (addChordNote settings) (s, none)
  match first with
  | some duration => s.mapCursor (·.advance duration)
  | none => s.reject [⟨.emptyChord, position⟩]

/-! ### Other staff objects -/

/-- A staff object without duration or voice, at a time in the current measure. -/
def mark (s : Passage τ) (time : τ) (symbol : StaffSymbol) (position : Position) : StaffObject τ where
  time := time
  duration := TimeValue.zero
  symbol := symbol
  measure := s.part.cursor.measure
  voice := 0
  staff := s.inherited.staff
  position := position

def addSymbol (s : Passage τ) (symbol : StaffSymbol) (position : Position) : Passage τ :=
  { s with part := s.part.place (s.mark s.part.cursor.time symbol position) }

def addKey (s : Passage τ) (key : KeySignature) (position : Position) : Passage τ :=
  let s := s.addSymbol (.key key) position
  { s with part := { s.part with key } }

/-- A barline stands where the longest voice ends. Behind it the accidentals of the measure
are forgotten. -/
def addBarline (s : Passage τ) (b : Control.BarlineSpec) (position : Position) : Passage τ :=
  let object := s.mark s.part.cursor.reached (.barline b.shape b.times) position
  let part := s.part.place object
  { s with part := { part with cursor := part.cursor.nextMeasure, accidentals := [] } }

def goBack (s : Passage τ) : Control.Move τ → Passage τ
  | .toMark => s.mapCursor fun c => c.backTo c.measureStart
  | .by amount => s.mapCursor fun c => c.backTo (c.time - amount)

def goForward (s : Passage τ) : Control.Move τ → Passage τ
  | .toMark => s.mapCursor fun c => c.forwardTo c.reached
  | .by amount => s.mapCursor fun c => c.forwardTo (c.time + amount)

/-- Goes on with what has been read, or rejects the element. -/
def accept {α : Type} (s : Passage τ) (position : Position) (reading : Except GrammarFault α)
    (use : α → Passage τ) : Passage τ :=
  match reading with
  | .ok value => use value
  | .error fault => s.reject [⟨fault, position⟩]

/-! ### Blocks of music -/

/-- Reads one child of a block of music. -/
def read (settings : Settings) (s : Passage τ) (child : Node) : Passage τ :=
  match child with
  | .element .note items position => s.addSingle settings true items position
  | .element .rest items position => s.addSingle settings false items position
  | .element .chord children position => s.addChord settings children position
  | .element .clef _ position =>
    s.accept position (Control.readClef child) fun clef => s.addSymbol (.clef clef) position
  | .element .key _ position => s.accept position (Control.readKey child) (s.addKey · position)
  | .element .time _ position =>
    s.accept position (Control.readMeter child) fun meter => s.addSymbol (.meter meter) position
  | .element .barline _ position =>
    match Control.readBarline settings child with
    | .ok b => s.addBarline b position
    | .error rejection => s.reject [rejection]
  | .element .volta _ position =>
    s.accept position (Control.readVolta child) fun (ending, span) =>
      s.addSymbol (.volta ending span) position
  | .element .goBack _ position =>
    s.accept position (Control.readMove "start" .goBackShape child) s.goBack
  | .element .goForward _ position =>
    s.accept position (Control.readMove "end" .goForwardShape child) s.goForward
  | child => s.reject [child.misplacedIn .music]

end Passage
end ScorePlayback
