import ScorePlayback.Notation.Token
import ScorePlayback.Staff.Barline
import ScorePlayback.Staff.Beam
import ScorePlayback.Staff.Clef
import ScorePlayback.Staff.Key
import ScorePlayback.Staff.Meter

/-! # Analysed scores

Notes and rests are numbered in the order of the text, relations in the order in which
they close. Each instrument has a timeline of staff objects in the order of the text. -/

namespace ScorePlayback

/-! ## Relations between notes -/

inductive RelationKind where
  | tie | slur | beam | tuplet
deriving DecidableEq, Repr

def RelationKind.text : RelationKind → String
  | .tie => "tie"
  | .slur => "slur"
  | .beam => "beam"
  | .tuplet => "tuplet"

/-- `actual` notes take the time of `normal` ones. -/
structure TupletSpec where
  actual : Nat
  normal : Nat
  showBracket : Bool
  showNumber : Bool
deriving DecidableEq, Repr

def TupletSpec.scale {τ : Type} [TimeValue τ] (t : TupletSpec) : τ :=
  TimeValue.ofNat t.normal / TimeValue.ofNat t.actual

inductive RelationData where
  | tie
  | slur
  | beam
  | tuplet (spec : TupletSpec)
deriving DecidableEq, Repr

def RelationData.kind : RelationData → RelationKind
  | .tie => .tie
  | .slur => .slur
  | .beam => .beam
  | .tuplet _ => .tuplet

/-- `parts` are the numbers of the notes and rests that the relation joins. -/
structure Relation where
  kind : RelationKind
  parts : List Nat
  data : RelationData
deriving DecidableEq, Repr

/-! ## Notes, rests and other staff objects -/

/-- A note, or a rest if it has no pitch. -/
structure NoteRest (τ : Type) where
  pitch : Option Pitch
  written : WrittenDuration
  /-- The time it sounds, with dots and tuplets. -/
  duration : τ
  visible : Bool
  voice : Nat
  staff : Nat
  /-- It belongs to a chord and is not the first note of it. -/
  inChord : Bool
  /-- The numbers of the relations that it is part of. -/
  relations : List Nat := []
  beam : List BeamSegment := []
  position : Position
deriving Repr

inductive StaffSymbol where
  | noteRest (note : Nat)
  /-- `times` counts the repetitions if the barline ends a repeat. -/
  | barline (shape : Barline) (times : Nat)
  | clef (clef : Clef)
  | key (key : KeySignature)
  | meter (meter : Meter)
  /-- A bracket over `span` measures for the given ending. -/
  | volta (ending span : Nat)
deriving DecidableEq, Repr

/-- Only notes and rests belong to a voice; all other objects have voice 0. -/
structure StaffObject (τ : Type) where
  time : τ
  duration : τ
  symbol : StaffSymbol
  measure : Nat
  voice : Nat
  staff : Nat
  position : Position
deriving Repr

structure MidiInfo where
  program : Nat
  channel : Nat
deriving DecidableEq, Repr

structure Instrument (τ : Type) where
  name : Option String
  midi : MidiInfo
  staves : Nat
  timeline : List (StaffObject τ)
deriving Repr

/-! ## Scores and documents -/

structure ScoreVersion where
  major : Nat
  minor : Nat
deriving DecidableEq, Repr

namespace ScoreVersion

/-- Reads `major.minor`; the minor part may be missing. -/
def read? (text : List Char) : Option ScoreVersion := do
  let minor := match text.dropWhile (· ≠ '.') with
    | [] => ['0']
    | _ :: minor => minor
  let major ← Numeral.upTo? 65535 (text.takeWhile (· ≠ '.'))
  let minor ← Numeral.upTo? 65535 minor
  some ⟨major, minor⟩

def number (v : ScoreVersion) : Nat := 100 * v.major + v.minor

end ScoreVersion

structure Score (τ : Type) where
  version : ScoreVersion := ⟨0, 0⟩
  title : Option String := none
  /-- In ascending order of their names. -/
  options : List (String × String) := []
  instruments : List (Instrument τ) := []
  notes : List (NoteRest τ) := []
  relations : List Relation := []
deriving Repr

namespace Score

variable {τ : Type}

/-- The relations that a note is part of. -/
def relationsOf (score : Score τ) (note : Nat) : List Relation :=
  match score.notes[note]? with
  | some n => n.relations.filterMap fun r => score.relations[r]?
  | none => []

/-- The first tie that starts at a note. -/
def tieAfter? (score : Score τ) (note : Nat) : Option Relation :=
  (score.relationsOf note).find? fun r => r.kind = .tie && r.parts.head? = some note

/-- The first tie that ends at a note. -/
def tieBefore? (score : Score τ) (note : Nat) : Option Relation :=
  (score.relationsOf note).find? fun r => r.kind = .tie && r.parts.getLast? = some note

end Score

inductive ContentItem (τ : Type) where
  | score (score : Score τ)
  | paragraph (text : String)
deriving Repr

structure Document (τ : Type) where
  version : String
  content : List (ContentItem τ)
deriving Repr

def Document.scores {τ : Type} (d : Document τ) : List (Score τ) :=
  d.content.filterMap fun
    | .score s => some s
    | .paragraph _ => none

end ScorePlayback
