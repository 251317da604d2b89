import ScorePlayback.Analysis.Marker
import ScorePlayback.Settings

/-! # Reading notes and rests

A note is written `(n pitch duration option*)` and a rest `(r duration option*)`. Without
a valid pitch and duration it is dropped; an option with a fault is dropped alone. -/

namespace ScorePlayback

inductive BeamMark where
  | enter | leave
deriving DecidableEq, Repr

inductive NoteOption where
  | hidden
  | legacyTie
  | legacyBeam (mark : BeamMark)
  | voice (number : Nat)
  | staff (number : Nat)
  | marker (marker : Marker)
deriving DecidableEq, Repr

/-- What is written on a note or rest. -/
structure NoteSpec where
  pitch : Option Pitch
  duration : WrittenDuration
  voice : Option Nat := none
  staff : Option Nat := none
  visible : Bool := true
  legacyTie : Bool := false
  legacyBeam : Option BeamMark := none
  markers : List Marker := []
deriving DecidableEq, Repr

def NoteSpec.add (spec : NoteSpec) : NoteOption → NoteSpec
  | .hidden => { spec with visible := false }
  | .legacyTie => { spec with legacyTie := true }
  | .legacyBeam mark => { spec with legacyBeam := some mark }
  | .voice number => { spec with voice := some number }
  | .staff number => { spec with staff := some number }
  | .marker marker => { spec with markers := spec.markers ++ [marker] }

namespace NoteOption

/-- Reads a letter and a number from 1 to 255, such as `v2`. -/
def numbered? (letter : Char) : List Char → Option Nat
  | [] => none
  | first :: number =>
    if first = letter then (Numeral.upTo? 255 number).filter (1 ≤ ·) else none

def isLegacy (text : String) : Bool := text = "l" || text = "g+" || text = "g-"

/-- Reads an option that is a label. -/
def readLabel (settings : Settings) (isNote : Bool) (text : String) :
    Except GrammarFault NoteOption :=
  if text = "noVisible" then .ok .hidden
  else if isLegacy text && !settings.legacySyntax then .error (.legacyDisabled text)
  else if text = "l" then if isNote then .ok .legacyTie else .error .legacyTieOnRest
  else if text = "g+" then .ok (.legacyBeam .enter)
  else if text = "g-" then .ok (.legacyBeam .leave)
  else
    match numbered? 'v' text.toList, numbered? 'p' text.toList with
    | some number, _ => .ok (.voice number)
    | none, some number => .ok (.staff number)
    | none, none => .error (.unknownOption text)

def elementOf (isNote : Bool) : ElementName := if isNote then .note else .rest

/-- Reads one option of a note or rest. -/
def read (settings : Settings) (isNote : Bool) (display : TupletDisplay) :
    Node → Except GrammarFault NoteOption
  | .atom .label text _ => readLabel settings isNote text
  | .atom _ text _ => .error (.notAllowed text (elementOf isNote))
  | .element name children position =>
    let item := Node.element name children position
    match name with
    | .tie =>
      if isNote then (Marker.readTie item).map .marker
      else .error (.notAllowed name.text .rest)
    | .slur => (Marker.readSlur item).map .marker
    | .beam => (Marker.readBeam item).map .marker
    | .tuplet => (Marker.readTuplet display item).map .marker
    | _ => .error (.notAllowed name.text (elementOf isNote))

/-- A tuplet says how the tuplets after it are shown. -/
def displayAfter (display : TupletDisplay) : NoteOption → TupletDisplay
  | .marker (.tupletStart _ spec) => ⟨spec.showBracket, spec.showNumber⟩
  | _ => display

end NoteOption

/-- A note or rest that has been read, and the options that were dropped. -/
structure NoteReading where
  spec : NoteSpec
  display : TupletDisplay
  rejections : List Rejection := []
deriving DecidableEq, Repr

namespace NoteReading

def readOption (settings : Settings) (isNote : Bool) (r : NoteReading) (item : Node) :
    NoteReading :=
  match NoteOption.read settings isNote r.display item with
  | .ok option => { r with spec := r.spec.add option, display := option.displayAfter r.display }
  | .error fault => { r with rejections := r.rejections ++ [⟨fault, item.position⟩] }

/-- Reads what follows the pitch of a note or the name of a rest. -/
def readRest (settings : Settings) (display : TupletDisplay) (pitch : Option Pitch) :
    List Node → Except GrammarFault NoteReading
  | [] => .error (.durationMissing (NoteOption.elementOf pitch.isSome))
  | item :: options =>
    match item.label?.bind fun text => WrittenDuration.read? text.toList with
    | some duration =>
      .ok (options.foldl (readOption settings pitch.isSome) ⟨{ pitch, duration }, display, []⟩)
    | none => .error (.durationMissing (NoteOption.elementOf pitch.isSome))

/-- Reads a note, or a rest, with the options inherited for tuplets. -/
def read (settings : Settings) (display : TupletDisplay) (isNote : Bool) (items : List Node) :
    Except GrammarFault NoteReading :=
  if isNote then
    match items with
    | [] => .error .noteShape
    | item :: rest =>
      match item.label?.bind fun text => Pitch.read? text.toList with
      | some pitch => readRest settings display (some pitch) rest
      | none => .error .noteShape
  else readRest settings display none items

end NoteReading
end ScorePlayback
