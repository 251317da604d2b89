import ScorePlayback.Diagnostic
import ScorePlayback.Staff.Pitch

/-! # What can be wrong with legacy ties and beams -/

namespace ScorePlayback

inductive LegacyFault where
  | tieReplaced
  | tieMisses (start next : Pitch)
  | tieAlone
  | beamNotOpen
  | beamNeverClosed (notes : Nat)
deriving DecidableEq, Repr

namespace LegacyFault

def kind : LegacyFault → DiagnosticKind
  | .tieReplaced => .invalidLegacyTie
  | .tieMisses .. => .invalidLegacyTie
  | .tieAlone => .invalidLegacyTie
  | .beamNotOpen => .unmatchedEnd
  | .beamNeverClosed .. => .unterminatedLegacyBeam

def message : LegacyFault → String
  | .tieReplaced => "legacy tie replaced by a later one before reaching its next note"
  | .tieMisses start next =>
    "legacy tie from " ++ start.text ++ " does not reach a note of the same pitch (" ++ next.text
      ++ " follows)"
  | .tieAlone => "legacy tie has no following note"
  | .beamNotOpen => "legacy beam end 'g-' without an open beam"
  | .beamNeverClosed notes => "legacy beam with " ++ toString notes ++ " notes is never closed"

def diagnostic (fault : LegacyFault) (position : Position) : Diagnostic :=
  ⟨fault.kind, some position, fault.message⟩

end LegacyFault
end ScorePlayback
