import ScorePlayback.Analysis.NoteSpec
import ScorePlayback.Relation.LegacyBeam
import ScorePlayback.Relation.LegacyTie

/-! # Linking the notes of a score

The notes read so far, the relations between them, the relations still open and the
problems found. Nothing here depends on the instrument or the measure. -/

namespace ScorePlayback

structure Linking (τ : Type) where
  notes : List (NoteRest τ) := []
  relations : List Relation := []
  ties : Registry Unit := {}
  slurs : Registry Unit := {}
  beams : Registry (List BeamSegment) := {}
  tuplets : Registry (Option TupletSpec) := {}
  legacyTie : LegacyTie τ := {}
  legacyBeams : LegacyBeams := {}
  diagnostics : List Diagnostic := []

namespace Linking

variable {τ : Type}

def report (l : Linking τ) (found : List Diagnostic) : Linking τ :=
  { l with diagnostics := l.diagnostics ++ found }

def reject (l : Linking τ) (rejections : List Rejection) : Linking τ :=
  l.report (rejections.map Rejection.diagnostic)

def pitchOf (l : Linking τ) (note : Nat) : Option Pitch := l.notes[note]?.bind NoteRest.pitch

def isNote (l : Linking τ) (note : Nat) : Bool := (l.pitchOf note).isSome

/-- Adds a note; its number is the number of notes before it. -/
def addNote (l : Linking τ) (note : NoteRest τ) : Linking τ := { l with notes := l.notes ++ [note] }

/-- Adds a relation, and its number to each of its notes. -/
def addRelation (l : Linking τ) (r : Relation) : Linking τ :=
  let number := l.relations.length
  { l with
    relations := l.relations ++ [r]
    notes := r.parts.foldl (fun notes part => notes.modify part fun n =>
      { n with relations := n.relations ++ [number] }) l.notes }

/-! ## Beams -/

def setBeam (notes : List (NoteRest τ)) (note : Nat) (segments : List BeamSegment) :
    List (NoteRest τ) :=
  notes.modify note fun n => { n with beam := segments }

/-- Gives each part of a beam its segments. -/
def writeBeam (l : Linking τ) (parts : List (Nat × List BeamSegment)) : Linking τ :=
  { l with notes := parts.foldl (fun notes part => setBeam notes part.1 part.2) l.notes }

/-- The segments that the note values give to the notes of a beam; rests have none. -/
def automaticSegments (l : Linking τ) (parts : List Nat) : List (Nat × List BeamSegment) :=
  let heads := parts.filterMap fun part =>
    (l.notes[part]?.filter fun n => n.pitch.isSome).map fun n => (part, n.written.value)
  (heads.map Prod.fst).zip (BeamSegment.ofGroup (heads.map Prod.snd))

/-- Written segments count if every note of the beam has them. -/
def isWritten (l : Linking τ) (parts : List (Nat × List BeamSegment)) : Bool :=
  parts.all fun (note, segments) => !l.isNote note || !segments.isEmpty

/-- Lets the note values decide the segments of a beam, if the settings allow it. -/
def beamAutomatically (settings : Settings) (members : List Nat) (l : Linking τ) : Linking τ :=
  if settings.autoBeam then l.writeBeam (l.automaticSegments members) else l

/-- Adds a beam from its parts and the segments written on them. -/
def addBeam (settings : Settings) (parts : List (Nat × List BeamSegment)) (l : Linking τ) :
    Linking τ :=
  let members := parts.map Prod.fst
  let shaped := if l.isWritten parts then l.writeBeam parts else l.beamAutomatically settings members
  shaped.addRelation ⟨.beam, members, .beam⟩

/-- Adds a beam without written segments. -/
def addPlainBeam (settings : Settings) (members : List Nat) (l : Linking τ) : Linking τ :=
  (l.beamAutomatically settings members).addRelation ⟨.beam, members, .beam⟩

/-! ## Relation markers -/

def addClosed {π : Type} (l : Linking τ) : Option (ClosedRelation π) → Linking τ
  | some c => l.addRelation c.relation
  | none => l

/-- Applies one marker of a note. -/
def applyMarker (settings : Settings) (note : Nat) (position : Position) (l : Linking τ) :
    Marker → Linking τ
  | .tie key role =>
    let r := l.ties.mark .tie l.pitchOf ⟨key, role, note, position, ()⟩
    ({ l with ties := r.state }.report r.diagnostics).addClosed r.closed
  | .slur key role =>
    let r := l.slurs.mark .slur l.pitchOf ⟨key, role, note, position, ()⟩
    ({ l with slurs := r.state }.report r.diagnostics).addClosed r.closed
  | .beam key role segments =>
    let r := l.beams.mark .beam l.pitchOf ⟨key, role, note, position, segments⟩
    let l := { l with beams := r.state }.report r.diagnostics
    match r.closed with
    | some c => l.addBeam settings (c.endpoints.map fun e => (e.note, e.payload))
    | none => l
  | .tupletStart key spec =>
    let r := l.tuplets.mark .tuplet l.pitchOf ⟨key, .starts, note, position, some spec⟩
    ({ l with tuplets := r.state }.report r.diagnostics).addClosed r.closed
  | .tupletEnd key =>
    let r := l.tuplets.mark .tuplet l.pitchOf ⟨key, .ends, note, position, none⟩
    ({ l with tuplets := r.state }.report r.diagnostics).addClosed r.closed

/-- Applies the markers of a note in order. A note without a tuplet marker is inside every
open tuplet, unless it follows another note of its chord. -/
def applyMarkers (settings : Settings) (note : Nat) (position : Position) (inChord : Bool)
    (markers : List Marker) (l : Linking τ) : Linking τ :=
  let l := markers.foldl (applyMarker settings note position) l
  if markers.any Marker.isTuplet || inChord then l
  else { l with tuplets := l.tuplets.continueAll .tuplet note position }

/-! ## Legacy marks -/

/-- Offers a note to the legacy tie that waits. -/
def closeLegacyTie [TimeValue τ] (note : Nat) (time : τ) (l : Linking τ) : Linking τ :=
  let r := l.legacyTie.offer l.notes note time
  let l := { l with legacyTie := r.state }.report r.diagnostics
  match r.closed with
  | some (first, second) => l.addRelation ⟨.tie, [first, second], .tie⟩
  | none => l

def startLegacyTie (tie : PendingTie τ) (l : Linking τ) : Linking τ :=
  let r := l.legacyTie.start tie
  { l with legacyTie := r.state }.report r.diagnostics

def applyLegacyBeam (settings : Settings) (note : Nat) (position : Position) (inChord : Bool)
    (mark : Option BeamMark) (l : Linking τ) : Linking τ :=
  match mark with
  | some .enter => { l with legacyBeams := l.legacyBeams.enter note position }
  | some .leave =>
    let r := l.legacyBeams.leave note position
    let l := { l with legacyBeams := r.state }.report r.diagnostics
    match r.closed with
    | some members => l.addPlainBeam settings members
    | none => l
  | none => if inChord then l else { l with legacyBeams := l.legacyBeams.add note }

/-! ## The end of a score -/

/-- Reports everything that is still open. Nothing stays open. -/
def finish (l : Linking τ) : Linking τ :=
  let ties := l.ties.close .tie
  let slurs := l.slurs.close .slur
  let beams := l.beams.close .beam
  let tuplets := l.tuplets.close .tuplet
  { l with
    ties := ties.state
    slurs := slurs.state
    beams := beams.state
    tuplets := tuplets.state
    legacyTie := {}
    legacyBeams := {} }.report
      (ties.diagnostics ++ slurs.diagnostics ++ beams.diagnostics ++ tuplets.diagnostics
        ++ l.legacyTie.finish ++ l.legacyBeams.finish)

end Linking
end ScorePlayback
