import ScorePlayback.Relation.LegacyBeam

/-! # Legacy beams and what they have been told -/

namespace ScorePlayback

/-- What legacy beams can be told: that a beam opens at a note, that a note is inside all open ones,
or that a note is the last one of a beam. -/
inductive LegacyBeamCall where
  | enter (note : Nat) (position : Position)
  | add (note : Nat)
  | leave (note : Nat) (position : Position)

namespace LegacyBeams

def tell (b : LegacyBeams) : LegacyBeamCall → Resolution LegacyBeams (List Nat)
  | .enter note position => { state := b.enter note position }
  | .add note => { state := b.add note }
  | .leave note position => b.leave note position

/-- The open beams behind some calls. -/
def after (b : LegacyBeams) (calls : List LegacyBeamCall) : LegacyBeams :=
  calls.foldl (fun b call => (b.tell call).state) b

/-- The notes of the beams that close with some calls, in order. -/
def closedBy (b : LegacyBeams) : List LegacyBeamCall → List (List Nat)
  | [] => []
  | call :: calls => (b.tell call).closed.toList ++ (b.tell call).state.closedBy calls

theorem after_append (b : LegacyBeams) (calls more : List LegacyBeamCall) :
    b.after (calls ++ more) = (b.after calls).after more := List.foldl_append

theorem closedBy_append (b : LegacyBeams) (calls more : List LegacyBeamCall) :
    b.closedBy (calls ++ more) = b.closedBy calls ++ (b.after calls).closedBy more := by
  induction calls generalizing b with
  | nil => rfl
  | cons call calls ih =>
      rw [List.cons_append, closedBy, closedBy, ih, List.append_assoc]
      rfl

end LegacyBeams

end ScorePlayback
