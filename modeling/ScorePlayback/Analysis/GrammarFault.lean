import ScorePlayback.Diagnostic
import ScorePlayback.Notation.Node

/-! # What can be wrong with an element

An element or option with a fault is dropped and reported; the analysis goes on behind it. -/

namespace ScorePlayback

inductive GrammarFault where
  | notAllowed (what : String) (parent : ElementName)
  | versionMissing
  | optionShape
  | titleText
  | titleWithoutScore
  | nameText
  | midiShape
  | stavesCount
  | emptyChord
  | noteShape
  | durationMissing (name : ElementName)
  | legacyDisabled (option : String)
  | legacyTieOnRest
  | unknownOption (option : String)
  | tieRole
  | tieShape
  | slurRole
  | slurShape
  | beamShape
  | unknownBeamRole (role : String)
  | unknownBeamSegment (segment : String)
  | tupletShape
  | unknownTupletOption (option : String)
  | unknownClef
  | unknownKey
  | meterShape
  | unknownBarline (shape : String)
  | repeatCount
  | voltaShape
  | goBackShape
  | goForwardShape
deriving DecidableEq, Repr

namespace GrammarFault

def quote (text : String) : String := "'" ++ text ++ "'"

def message : GrammarFault → String
  | .notAllowed what parent => quote what ++ " is not allowed in " ++ quote parent.text
  | .versionMissing => "'vers' requires a version number"
  | .optionShape => "expected (opt <name> <value>)"
  | .titleText => "'title' requires a string"
  | .titleWithoutScore => "'title' has no preceding score"
  | .nameText => "'name' requires a string"
  | .midiShape => "expected (infoMIDI <program 0..127> [<channel 0..15>])"
  | .stavesCount => "'staves' requires a number of staves"
  | .emptyChord => "'chord' has no valid notes"
  | .noteShape => "expected (n <pitch> <duration> ...)"
  | .durationMissing name => quote name.text ++ " requires a valid duration"
  | .legacyDisabled option => "legacy option " ++ quote option ++ " is disabled"
  | .legacyTieOnRest => "legacy tie 'l' is only allowed on notes"
  | .unknownOption option => "unknown option " ++ quote option
  | .tieRole => "tie role must be 'start' or 'stop'"
  | .tieShape => "expected (tie <key> start|stop)"
  | .slurRole => "slur role must be 'start', 'continue' or 'stop'"
  | .slurShape => "expected (slur <key> start|continue|stop)"
  | .beamShape => "expected (beam <key> begin|continue|end [levels])"
  | .unknownBeamRole role => "unknown beam role " ++ quote role
  | .unknownBeamSegment segment => "unknown beam type " ++ quote segment
  | .tupletShape => "expected (t [<key>] + <actual> <normal> [options]) or (t [<key>] -)"
  | .unknownTupletOption option => "unknown tuplet option " ++ quote option
  | .unknownClef => "unknown clef"
  | .unknownKey => "unknown key signature"
  | .meterShape => "expected (time <beats> <beat type>)"
  | .unknownBarline shape => "unknown barline type " ++ quote shape
  | .repeatCount => "'times' requires a positive repeat count"
  | .voltaShape => "expected (volta <ending> [<measures>])"
  | .goBackShape => "expected (goBack start|<duration>|<units>)"
  | .goForwardShape => "expected (goFwd end|<duration>|<units>)"

def diagnostic (fault : GrammarFault) (position : Position) : Diagnostic :=
  ⟨.grammarError, some position, fault.message⟩

end GrammarFault

/-- A fault and the element or atom that has it. -/
structure Rejection where
  fault : GrammarFault
  position : Position
deriving DecidableEq, Repr

def Rejection.diagnostic (r : Rejection) : Diagnostic := r.fault.diagnostic r.position

/-- The rejection of a child that its parent cannot have. -/
def Node.misplacedIn (child : Node) (parent : ElementName) : Rejection :=
  ⟨.notAllowed child.kind.text parent, child.position⟩

end ScorePlayback
