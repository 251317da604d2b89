import ScorePlayback.Analysis.GrammarFault
import ScorePlayback.Score
import ScorePlayback.Settings

/-! # Reading clefs, signatures, barlines, brackets and moves of the cursor -/

namespace ScorePlayback.Control

/-- What is made of the text of the first atom of an element. -/
def readFirst (fault : GrammarFault) (read? : String → Option α) (node : Node) :
    Except GrammarFault α :=
  match node.atoms.head?.bind fun atom => read? atom.text with
  | some value => .ok value
  | none => .error fault

def readClef (node : Node) : Except GrammarFault Clef := readFirst .unknownClef Clef.ofName? node

def readKey (node : Node) : Except GrammarFault KeySignature :=
  readFirst .unknownKey (fun text => KeySignature.read? text.toList) node

/-- A beat of a meter is a power of two. -/
def beatTypes : List Nat := [1, 2, 4, 8, 16, 32, 64]

def readMeter (node : Node) : Except GrammarFault Meter :=
  match node.atoms with
  | [top, bottom] =>
    match top.count? 1 64, bottom.count? 1 64 with
    | some top, some bottom =>
      if beatTypes.contains bottom then .ok ⟨top, bottom⟩ else .error .meterShape
    | _, _ => .error .meterShape
  | _ => .error .meterShape

/-- Reads a bracket's ending and the number of measures it covers, one if nothing is said. -/
def readVolta (node : Node) : Except GrammarFault (Nat × Nat) :=
  match node.atoms with
  | [ending] =>
    match ending.count? 1 255 with
    | some ending => .ok (ending, 1)
    | none => .error .voltaShape
  | [ending, span] =>
    match ending.count? 1 255, span.count? 1 Numeral.largest32 with
    | some ending, some span => .ok (ending, span)
    | _, _ => .error .voltaShape
  | _ => .error .voltaShape

/-! ## Barlines -/

/-- The shape of a barline and its number of repetitions. -/
structure BarlineSpec where
  shape : Barline
  times : Nat
deriving DecidableEq, Repr

/-- Reads one part of a barline; a later part overrides an earlier one. -/
def readBarlinePart (spec : BarlineSpec) (part : Node) : Except Rejection BarlineSpec :=
  match part.kind with
  | .atom .label =>
    match Barline.ofName? part.text with
    | some shape => .ok { spec with shape }
    | none => .error ⟨.unknownBarline part.text, part.position⟩
  | .element .times =>
    match part.atoms.head?.bind (Node.count? 1 Numeral.largest32) with
    | some times => .ok { spec with times }
    | none => .error ⟨.repeatCount, part.position⟩
  | _ => .error (part.misplacedIn .barline)

/-- Reads a barline, a simple one with the configured repetitions unless it says otherwise. -/
def readBarline (settings : Settings) (node : Node) : Except Rejection BarlineSpec :=
  node.children.foldlM readBarlinePart ⟨.simple, settings.repeatTimes⟩

/-! ## Moves of the cursor -/

variable {τ : Type} [TimeValue τ]

/-- Where a move of the cursor leads: to a place with a name of its own, or by an amount
of time. -/
inductive Move (τ : Type) where
  | toMark
  | by (amount : τ)

/-- An amount of time is a written duration or a number of units. -/
def readAmount? : Node → Option τ
  | .atom .number text _ =>
    (Numeral.scientific? text.toList).bind fun n =>
      let amount : τ := TimeValue.ofDecimal n.mantissa n.exponent
      if TimeValue.le TimeValue.zero amount then some amount else none
  | .atom .label text _ => (WrittenDuration.read? text.toList).map WrittenDuration.units
  | _ => none

/-- Reads a move whose named place is called `mark`. -/
def readMove (mark : String) (fault : GrammarFault) (node : Node) : Except GrammarFault (Move τ) :=
  match node.atoms with
  | [] => .error fault
  | target :: _ =>
    if target.text = mark then .ok .toMark
    else
      match readAmount? target with
      | some amount => .ok (.by amount)
      | none => .error fault

end ScorePlayback.Control
