import ScorePlayback.Relation.LegacyFault
import ScorePlayback.Relation.Registry

/-! # Legacy ties

The option `l` ties a note to the next later note of its voice, which has to sound the
same pitch. Only one such tie waits for its second note at a time. -/

namespace ScorePlayback

structure PendingTie (τ : Type) where
  note : Nat
  time : τ
  voice : Nat
  position : Position
deriving Repr

structure LegacyTie (τ : Type) where
  pending : Option (PendingTie τ) := none
deriving Repr

namespace LegacyTie

variable {τ : Type}

/-- A new tie replaces one that still waits. -/
def start (t : LegacyTie τ) (tie : PendingTie τ) : Resolution (LegacyTie τ) (Nat × Nat) where
  state := ⟨some tie⟩
  diagnostics := match t.pending with
    | some previous => [LegacyFault.tieReplaced.diagnostic previous.position]
    | none => []

/-- Whether a note at a time can be the second note of a tie: it is later and of the same
voice. -/
def reaches [TimeValue τ] (tie : PendingTie τ) (candidate : NoteRest τ) (time : τ) : Bool :=
  !TimeValue.le time tie.time && candidate.voice = tie.voice

/-- The two notes of a tie, if they sound the same pitch. -/
def join (notes : List (NoteRest τ)) (tie : PendingTie τ) (note : Nat) (candidate : NoteRest τ) :
    Resolution (LegacyTie τ) (Nat × Nat) :=
  match notes[tie.note]?.bind NoteRest.pitch, candidate.pitch with
  | some start, some next =>
    if start.sameSound next then { state := {}, closed := some (tie.note, note) }
    else
      { state := {}
        diagnostics := [(LegacyFault.tieMisses start next).diagnostic tie.position] }
  | _, _ => { state := {} }

/-- Offers a note to the tie that waits. -/
def offer [TimeValue τ] (t : LegacyTie τ) (notes : List (NoteRest τ)) (note : Nat) (time : τ) :
    Resolution (LegacyTie τ) (Nat × Nat) :=
  match t.pending, notes[note]? with
  | some tie, some candidate =>
    if reaches tie candidate time then join notes tie note candidate else { state := t }
  | _, _ => { state := t }

def finish (t : LegacyTie τ) : List Diagnostic :=
  t.pending.toList.map fun tie => LegacyFault.tieAlone.diagnostic tie.position

end LegacyTie
end ScorePlayback
