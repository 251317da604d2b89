import ScorePlayback.Proofs.Analysis.LegacyOptions
import ScorePlayback.Proofs.Analysis.MusicReading
import ScorePlayback.Proofs.Sound.Heard

/-! # Effects of music

Notes that nothing is linked to have effects that do not depend on other notes: something is placed
where the cursor stands, or the cursor moves. Of a list of effects it is heard what each of them
places, in the key that holds there. -/

namespace ScorePlayback

variable {τ : Type} [TimeValue τ]

/-! ## Effects of elements -/

/-- What is done where the cursor stands: a note, a rest or another object is placed there, or the
measure is closed, or the cursor moves. -/
inductive Effect (τ : Type) where
  | note (spec : NoteSpec)
  | sign (symbol : StaffSymbol)
  | barline (b : Control.BarlineSpec)
  | move (move : Cursor τ → Cursor τ)

/-- How long a note is if it is in no tuplet. -/
def NoteSpec.plainDuration (spec : NoteSpec) : τ := spec.duration.units * tupletScale {} []

namespace Effect

/-- Notes that start together. The cursor moves behind the first one. -/
def together (specs : List NoteSpec) : List (Effect τ) :=
  specs.map note ++ specs.head?.toList.map fun spec => move (·.advance spec.plainDuration)

/-- What has been read has an effect. What is rejected has none. -/
def ofReading {ε α : Type} (use : α → Effect τ) : Except ε α → List (Effect τ)
  | .ok value => [use value]
  | .error _ => []

end Effect

namespace Cursor

def goBack (c : Cursor τ) : Control.Move τ → Cursor τ
  | .toMark => c.backTo c.measureStart
  | .by amount => c.backTo (c.time - amount)

def goForward (c : Cursor τ) : Control.Move τ → Cursor τ
  | .toMark => c.forwardTo c.reached
  | .by amount => c.forwardTo (c.time + amount)

end Cursor

/-- What is read of a note or rest. -/
def WrittenNote.spec? (settings : Settings) (w : WrittenNote) : Option NoteSpec :=
  match NoteReading.read settings {} w.isNote w.items with
  | .ok reading => some reading.spec
  | .error _ => none

namespace Node

open Effect (together ofReading)

/-- The notes or rests of an element. -/
def specs (settings : Settings) (n : Node) : List NoteSpec :=
  n.musicNotes.filterMap (WrittenNote.spec? settings)

theorem specs_note (settings : Settings) (items : List Node) (position : Position) :
    (element .note items position).specs settings =
      (WrittenNote.spec? settings ⟨true, items, position⟩).toList := by
  rw [specs, musicNotes, List.filterMap_eq_flatMap_toList, List.flatMap_singleton]

theorem specs_rest (settings : Settings) (items : List Node) (position : Position) :
    (element .rest items position).specs settings =
      (WrittenNote.spec? settings ⟨false, items, position⟩).toList := by
  rw [specs, musicNotes, List.filterMap_eq_flatMap_toList, List.flatMap_singleton]

/-- The effects of an element of music. -/
def effects (settings : Settings) (n : Node) : List (Effect τ) :=
  match n with
  | .element .note _ _ => together (n.specs settings)
  | .element .rest _ _ => together (n.specs settings)
  | .element .chord _ _ => together (n.specs settings)
  | .element .clef _ _ => ofReading (fun clef => .sign (.clef clef)) (Control.readClef n)
  | .element .key _ _ => ofReading (fun key => .sign (.key key)) (Control.readKey n)
  | .element .time _ _ => ofReading (fun meter => .sign (.meter meter)) (Control.readMeter n)
  | .element .barline _ _ => ofReading .barline (Control.readBarline settings n)
  | .element .volta _ _ =>
    ofReading (fun bracket => .sign (.volta bracket.1 bracket.2)) (Control.readVolta n)
  | .element .goBack _ _ =>
    ofReading (fun move => .move (·.goBack move)) (Control.readMove "start" .goBackShape n)
  | .element .goForward _ _ =>
    ofReading (fun move => .move (·.goForward move)) (Control.readMove "end" .goForwardShape n)
  | _ => []

end Node

/-! ## What is heard of effects -/

/-- Where the cursor stands, and the key that holds there. -/
structure Hearing (τ : Type) where
  cursor : Cursor τ
  key : KeySignature := .cMajor

namespace Hearing

def initial : Hearing τ := { cursor := .initial }

/-- A note or rest at the cursor. -/
def note (h : Hearing τ) (spec : NoteSpec) : HeardObject τ where
  time := h.cursor.time
  duration := spec.plainDuration
  measure := h.cursor.measure
  voice := spec.voice.getD 0
  symbol := .note (spec.pitch.map fun p => { p with alter := h.key.alterFor p.step }) spec.visible

def mark (h : Hearing τ) (time : τ) (symbol : StaffSymbol) : HeardObject τ :=
  ⟨time, TimeValue.zero, h.cursor.measure, 0, .sign symbol⟩

def objects (h : Hearing τ) : Effect τ → List (HeardObject τ)
  | .note spec => [h.note spec]
  | .sign symbol => [h.mark h.cursor.time symbol]
  | .barline b => [h.mark h.cursor.reached (.barline b.shape b.times)]
  | .move _ => []

def after (h : Hearing τ) : Effect τ → Hearing τ
  | .note _ => h
  | .sign (.key key) => { h with key }
  | .sign _ => h
  | .barline _ => { h with cursor := h.cursor.nextMeasure }
  | .move move => { h with cursor := move h.cursor }

/-- Where some effects lead. -/
def run (h : Hearing τ) (effects : List (Effect τ)) : Hearing τ := effects.foldl after h

/-- All that is heard of some effects. -/
def hear (h : Hearing τ) : List (Effect τ) → List (HeardObject τ)
  | [] => []
  | effect :: rest => h.objects effect ++ (h.after effect).hear rest

section

omit [TimeValue τ]

@[simp] theorem run_nil (h : Hearing τ) : h.run [] = h := rfl

@[simp] theorem run_cons (h : Hearing τ) (effect : Effect τ) (rest : List (Effect τ)) :
    h.run (effect :: rest) = (h.after effect).run rest := rfl

@[simp] theorem run_append (h : Hearing τ) (first second : List (Effect τ)) :
    h.run (first ++ second) = (h.run first).run second := List.foldl_append

theorem run_notes (h : Hearing τ) (specs : List NoteSpec) : h.run (specs.map .note) = h := by
  induction specs with
  | nil => rfl
  | cons spec specs ih => exact ih

end

@[simp] theorem hear_nil (h : Hearing τ) : h.hear [] = [] := rfl

@[simp] theorem hear_cons (h : Hearing τ) (effect : Effect τ) (rest : List (Effect τ)) :
    h.hear (effect :: rest) = h.objects effect ++ (h.after effect).hear rest := rfl

theorem hear_append (h : Hearing τ) (first second : List (Effect τ)) :
    h.hear (first ++ second) = h.hear first ++ (h.run first).hear second := by
  induction first generalizing h with
  | nil => rfl
  | cons effect rest ih => simp [ih]

theorem hear_notes (h : Hearing τ) (specs : List NoteSpec) :
    h.hear (specs.map .note) = specs.map h.note := by
  induction specs with
  | nil => rfl
  | cons spec specs ih => exact congrArg (h.note spec :: ·) ih

end Hearing

/-! ## What is heard of instruments and scores -/

/-- The program and channel behind a child of an instrument. -/
def MidiInfo.after (midi : MidiInfo) (child : Node) : MidiInfo :=
  match child with
  | .element .midi _ _ => (InstrumentState.readMidi midi child).getD midi
  | _ => midi

/-- What is heard of the children of an instrument. -/
def hearInstrument (settings : Settings) (children : List Node) : HeardInstrument τ where
  midi := children.foldl MidiInfo.after ⟨settings.program, settings.channel⟩
  objects := Hearing.initial.hear ((musicOf children).flatMap (Node.effects settings))

/-- What is heard of the children of a score. -/
def hearScore (settings : Settings) (children : List Node) : List (HeardInstrument τ) :=
  (children.filter Node.isInstrument).map fun child => hearInstrument settings child.children

end ScorePlayback
