import ScorePlayback.Analysis.GrammarFault
import ScorePlayback.Relation.Registry

/-! # Reading relation markers -/

namespace ScorePlayback

inductive Marker where
  | tie (key : Nat) (role : Role)
  | slur (key : Nat) (role : Role)
  | beam (key : Nat) (role : Role) (segments : List BeamSegment)
  | tupletStart (key : Nat) (spec : TupletSpec)
  | tupletEnd (key : Nat)
deriving DecidableEq, Repr

/-- How the tuplets that follow are shown, unless they say otherwise. -/
structure TupletDisplay where
  bracket : Bool := true
  number : Bool := true
deriving DecidableEq, Repr

namespace Marker

def isTuplet : Marker → Bool
  | .tupletStart .. => true
  | .tupletEnd .. => true
  | _ => false

/-- The keys of the tuplets that a list of markers starts. -/
def tupletKeys (markers : List Marker) : List Nat :=
  markers.filterMap fun
    | .tupletStart key _ => some key
    | _ => none

/-- The tuplets that a list of markers starts. -/
def tupletSpecs (markers : List Marker) : List TupletSpec :=
  markers.filterMap fun
    | .tupletStart _ spec => some spec
    | _ => none

/-- The key in front of the atoms of a marker, and the atoms behind it. Keys are kept in
32 bits; without a key the relation has key 0. -/
def splitKey (marker : Node) : Nat × List Node :=
  match marker.atoms with
  | [] => (0, [])
  | first :: rest =>
    match first.integer? with
    | some (.ofNat key) => (key % (Numeral.largest32 + 1), rest)
    | _ => (0, first :: rest)

def readTie (marker : Node) : Except GrammarFault Marker :=
  match splitKey marker with
  | (key, [role]) =>
    match role.text with
    | "start" => .ok (.tie key .starts)
    | "stop" | "end" => .ok (.tie key .ends)
    | _ => .error .tieRole
  | _ => .error .tieShape

def readSlur (marker : Node) : Except GrammarFault Marker :=
  match splitKey marker with
  | (key, [role]) =>
    match role.text with
    | "start" => .ok (.slur key .starts)
    | "continue" => .ok (.slur key .continues)
    | "stop" | "end" => .ok (.slur key .ends)
    | _ => .error .slurRole
  | _ => .error .slurShape

def readBeamRole (role : String) : Except GrammarFault Role :=
  match role with
  | "begin" | "start" => .ok .starts
  | "continue" => .ok .continues
  | "end" | "stop" => .ok .ends
  | _ => .error (.unknownBeamRole role)

def readSegment (atom : Node) : Except GrammarFault BeamSegment :=
  match BeamSegment.ofName? atom.text with
  | some segment => .ok segment
  | none => .error (.unknownBeamSegment atom.text)

def readBeam (marker : Node) : Except GrammarFault Marker :=
  match splitKey marker with
  | (_, []) => .error .beamShape
  | (key, role :: segments) => do
    let role ← readBeamRole role.text
    let segments ← segments.mapM readSegment
    .ok (.beam key role segments)

def readTupletOption (display : TupletDisplay) (atom : Node) : Except GrammarFault TupletDisplay :=
  match atom.text with
  | "bracket" => .ok { display with bracket := true }
  | "noBracket" => .ok { display with bracket := false }
  | "number" => .ok { display with number := true }
  | "noNumber" => .ok { display with number := false }
  | text => .error (.unknownTupletOption text)

/-- Reads a tuplet marker; `display` says how it is shown without options of its own. -/
def readTuplet (display : TupletDisplay) (marker : Node) : Except GrammarFault Marker :=
  match splitKey marker with
  | (_, []) => .error .tupletShape
  | (key, sign :: rest) =>
    match sign.text, rest with
    | "-", [] => .ok (.tupletEnd key)
    | "+", actual :: normal :: options =>
      match actual.count? 1 255, normal.count? 1 255 with
      | some actual, some normal => do
        let display ← options.foldlM readTupletOption display
        .ok (.tupletStart key ⟨actual, normal, display.bracket, display.number⟩)
      | _, _ => .error .tupletShape
    | _, _ => .error .tupletShape

end Marker
end ScorePlayback
