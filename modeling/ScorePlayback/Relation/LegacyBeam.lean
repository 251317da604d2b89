import ScorePlayback.Relation.LegacyFault
import ScorePlayback.Relation.Registry

/-! # Legacy beams

The option `g+` opens a beam and `g-` closes the one opened last. Every note in between
belongs to all beams that are open. -/

namespace ScorePlayback

structure OpenBeam where
  members : List Nat
  position : Position
deriving DecidableEq, Repr

def OpenBeam.add (b : OpenBeam) (note : Nat) : OpenBeam := { b with members := b.members ++ [note] }

/-- The open beams, the innermost first. -/
structure LegacyBeams where
  stack : List OpenBeam := []
deriving DecidableEq, Repr

namespace LegacyBeams

/-- A note joins every open beam. -/
def add (b : LegacyBeams) (note : Nat) : LegacyBeams := ⟨b.stack.map (·.add note)⟩

/-- The first note of a beam also joins the beams around it. -/
def enter (b : LegacyBeams) (note : Nat) (position : Position) : LegacyBeams :=
  ⟨⟨[note], position⟩ :: (b.add note).stack⟩

/-- The last note of a beam also joins the beams around it. A single note makes no beam. -/
def leave (b : LegacyBeams) (note : Nat) (position : Position) :
    Resolution LegacyBeams (List Nat) :=
  match b.stack with
  | [] => { state := b, diagnostics := [LegacyFault.beamNotOpen.diagnostic position] }
  | innermost :: outer =>
    let members := (innermost.add note).members
    { state := (LegacyBeams.mk outer).add note
      closed := if members.length < 2 then none else some members }

/-- The beams that are never closed, the outermost first. -/
def finish (b : LegacyBeams) : List Diagnostic :=
  b.stack.reverse.map fun beam =>
    (LegacyFault.beamNeverClosed beam.members.length).diagnostic beam.position

end LegacyBeams
end ScorePlayback
