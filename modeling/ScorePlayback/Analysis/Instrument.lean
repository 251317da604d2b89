import ScorePlayback.Analysis.Passage

/-! # Analysing an instrument

Every instrument starts at time 0 in measure 1, without key and accidentals. Relations
that are still open carry over from one instrument to the next. -/

namespace ScorePlayback

variable {τ : Type} [TimeValue τ]

/-- The state of the analysis inside an instrument. -/
structure InstrumentState (τ : Type) where
  linking : Linking τ
  part : Part τ
  name : Option String := none
  midi : MidiInfo
  staves : Nat := 1

namespace InstrumentState

def start (settings : Settings) (linking : Linking τ) : InstrumentState τ where
  linking := linking
  part := .initial
  midi := ⟨settings.program, settings.channel⟩

def reject (s : InstrumentState τ) (fault : GrammarFault) (child : Node) : InstrumentState τ :=
  { s with linking := s.linking.reject [⟨fault, child.position⟩] }

/-- Reads a program and perhaps a channel; without one the channel stays. -/
def readMidi (midi : MidiInfo) (node : Node) : Option MidiInfo :=
  match node.atoms with
  | [program] => (program.count? 0 127).map fun program => { midi with program }
  | [program, channel] => do
    let program ← program.count? 0 127
    let channel ← channel.count? 0 15
    some ⟨program, channel⟩
  | _ => none

/-- Reads a block of music. -/
def addMusic (settings : Settings) (s : InstrumentState τ) (children : List Node) :
    InstrumentState τ :=
  let start : Passage τ := { linking := s.linking, part := s.part }
  let passage := children.foldl (Passage.read settings) start
  { s with linking := passage.linking, part := passage.part }

/-- Reads one child of an instrument. -/
def read (settings : Settings) (s : InstrumentState τ) (child : Node) : InstrumentState τ :=
  match child with
  | .element .instrumentName _ _ =>
    match child.string? with
    | some name => { s with name := some name }
    | none => s.reject .nameText child
  | .element .midi _ _ =>
    match readMidi s.midi child with
    | some midi => { s with midi }
    | none => s.reject .midiShape child
  | .element .staves _ _ =>
    match child.atoms.head?.bind (Node.count? 1 16) with
    | some staves => { s with staves }
    | none => s.reject .stavesCount child
  | .element .music children _ => s.addMusic settings children
  | child => { s with linking := s.linking.reject [child.misplacedIn .instrument] }

def finish (s : InstrumentState τ) : Instrument τ := ⟨s.name, s.midi, s.staves, s.part.timeline⟩

end InstrumentState
end ScorePlayback
