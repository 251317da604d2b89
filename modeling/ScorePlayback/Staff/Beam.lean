import ScorePlayback.Staff.Duration

/-! # Beams of a group of notes

A note has a beam at as many levels as its value has flags. At each level the beam
reaches towards every neighbour that has this level too; where there is none the note
gets a hook, forward on the first note of the group and backward on all others. -/

namespace ScorePlayback

/-- One note's part of a beam at one level. -/
inductive BeamSegment where
  | blank | begins | continues | ends | forwardHook | backwardHook
deriving DecidableEq, Repr

namespace BeamSegment

def ofName? : String → Option BeamSegment
  | "begin" | "+" => some .begins
  | "continue" | "=" => some .continues
  | "end" | "-" => some .ends
  | "forward" | "f" => some .forwardHook
  | "backward" | "b" => some .backwardHook
  | "none" => some .blank
  | _ => none

/-- The segment of a note at a level that the note reaches. A missing neighbour has no
beams; only the first note of a group has none before it. -/
def between (before : Option Nat) (after level : Nat) : BeamSegment :=
  match decide (level ≤ before.getD 0), decide (level ≤ after) with
  | true, true => .continues
  | true, false => .ends
  | false, true => .begins
  | false, false => if before.isNone then .forwardHook else .backwardHook

/-- The segments of the notes that follow a note with `before` beams, given the beams of
each. -/
def ofCounts (before : Option Nat) : List Nat → List (List BeamSegment)
  | [] => []
  | own :: rest =>
    (List.range' 1 own).map (between before (rest.head?.getD 0)) :: ofCounts (some own) rest

/-- The segments of each note of a group, one per level. -/
def ofGroup (group : List NoteValue) : List (List BeamSegment) :=
  ofCounts none (group.map NoteValue.beams)

end BeamSegment
end ScorePlayback
