import ScorePlayback.Diagnostic
import ScorePlayback.Keyed
import ScorePlayback.Score

/-! # Open relations

A relation is written as markers on its notes: a start, any number of continuations and
an end, all with the same key. The registry of a kind of relation holds those that have
started and not ended, in ascending order of their keys. -/

namespace ScorePlayback

inductive Role where
  | starts | continues | ends
deriving DecidableEq, Repr

/-- A marker on a note, with what it says beyond its role. -/
structure Endpoint (π : Type) where
  key : Nat
  role : Role
  note : Nat
  position : Position
  payload : π
deriving DecidableEq, Repr

structure OpenRelation (π : Type) where
  start : Endpoint π
  later : List (Endpoint π)
deriving DecidableEq, Repr

def OpenRelation.endpoints {π : Type} (o : OpenRelation π) : List (Endpoint π) := o.start :: o.later

structure ClosedRelation (π : Type) where
  relation : Relation
  endpoints : List (Endpoint π)
deriving DecidableEq, Repr

/-! ## What can be wrong with a relation -/

inductive RelationFault where
  | startedAgain (kind : RelationKind) (key previousLine : Nat)
  | continuedUnstarted (kind : RelationKind) (key : Nat)
  | closedUnstarted (kind : RelationKind) (key : Nat)
  | neverClosed (kind : RelationKind) (key : Nat)
  | unequalPitches (first last : Pitch)
deriving DecidableEq, Repr

namespace RelationFault

def kind : RelationFault → DiagnosticKind
  | .startedAgain .. => .duplicatedRelation
  | .continuedUnstarted .. => .unmatchedEnd
  | .closedUnstarted .. => .unmatchedEnd
  | .neverClosed .. => .unterminatedRelation
  | .unequalPitches .. => .invalidTie

def message : RelationFault → String
  | .startedAgain kind key line =>
    kind.text ++ " " ++ toString key ++ " started again before it was closed (previous start at line "
      ++ toString line ++ ")"
  | .continuedUnstarted kind key => kind.text ++ " " ++ toString key ++ " continued but never started"
  | .closedUnstarted kind key => kind.text ++ " " ++ toString key ++ " closed but never started"
  | .neverClosed kind key => kind.text ++ " " ++ toString key ++ " is never closed"
  | .unequalPitches first last => "notes " ++ first.text ++ " and " ++ last.text ++ " cannot be tied"

def diagnostic (fault : RelationFault) (position : Position) : Diagnostic :=
  ⟨fault.kind, some position, fault.message⟩

end RelationFault

/-! ## Kinds of relations -/

/-- What sets one kind of relation apart. -/
structure RelationRules (π : Type) where
  kind : RelationKind
  /-- What a note says that continues the relation without a marker. -/
  implied : π
  /-- A problem with the pitches of the first and the last note. It does not prevent the
  relation. -/
  objection : Option Pitch → Option Pitch → Option RelationFault
  data : Endpoint π → RelationData

namespace RelationRules

def noObjection (_ _ : Option Pitch) : Option RelationFault := none

/-- Tied notes sound the same pitch. -/
def tie : RelationRules Unit where
  kind := .tie
  implied := ()
  objection
    | some first, some last => if first.sameSound last then none else some (.unequalPitches first last)
    | _, _ => none
  data _ := .tie

def slur : RelationRules Unit where
  kind := .slur
  implied := ()
  objection := noObjection
  data _ := .slur

/-- A beam marker may write the segments of its note, one per level. -/
def beam : RelationRules (List BeamSegment) where
  kind := .beam
  implied := []
  objection := noObjection
  data _ := .beam

def triplet : TupletSpec := ⟨3, 2, true, true⟩

/-- The start of a tuplet says what kind of tuplet it is. -/
def tuplet : RelationRules (Option TupletSpec) where
  kind := .tuplet
  implied := none
  objection := noObjection
  data start := .tuplet (start.payload.getD triplet)

end RelationRules

/-! ## The registry -/

structure Registry (π : Type) where
  pending : List (Nat × OpenRelation π) := []
deriving DecidableEq, Repr

/-- What a step of a registry or resolver leaves, yields and reports. -/
structure Resolution (σ α : Type) where
  state : σ
  closed : Option α := none
  diagnostics : List Diagnostic := []

namespace Registry

variable {π : Type}

/-- The start markers of the open relations. -/
def openStarts (r : Registry π) : List (Endpoint π) := r.pending.map fun e => e.2.start

/-- A start takes the place of an open relation with its key. -/
def markStart (rules : RelationRules π) (r : Registry π) (e : Endpoint π) :
    Resolution (Registry π) (ClosedRelation π) where
  state := ⟨Keyed.insert e.key ⟨e, []⟩ r.pending⟩
  diagnostics := match Keyed.find? e.key r.pending with
    | some previous =>
      [(RelationFault.startedAgain rules.kind e.key previous.start.position.line).diagnostic e.position]
    | none => []

def markContinue (rules : RelationRules π) (r : Registry π) (e : Endpoint π) :
    Resolution (Registry π) (ClosedRelation π) :=
  match Keyed.find? e.key r.pending with
  | some o => { state := ⟨Keyed.insert e.key ⟨o.start, o.later ++ [e]⟩ r.pending⟩ }
  | none =>
    { state := r
      diagnostics := [(RelationFault.continuedUnstarted rules.kind e.key).diagnostic e.position] }

/-- The relation that ends with a marker. -/
def closing (rules : RelationRules π) (o : OpenRelation π) (e : Endpoint π) : ClosedRelation π :=
  let endpoints := o.endpoints ++ [e]
  ⟨⟨rules.kind, endpoints.map Endpoint.note, rules.data o.start⟩, endpoints⟩

def markEnd (rules : RelationRules π) (pitchOf : Nat → Option Pitch) (r : Registry π)
    (e : Endpoint π) : Resolution (Registry π) (ClosedRelation π) :=
  match Keyed.find? e.key r.pending with
  | some o =>
    { state := ⟨Keyed.erase e.key r.pending⟩
      closed := some (closing rules o e)
      diagnostics := (rules.objection (pitchOf o.start.note) (pitchOf e.note)).toList.map
        fun fault => fault.diagnostic e.position }
  | none =>
    { state := r
      diagnostics := [(RelationFault.closedUnstarted rules.kind e.key).diagnostic e.position] }

/-- Reads one marker. `pitchOf` gives the pitches of the notes so far. -/
def mark (rules : RelationRules π) (pitchOf : Nat → Option Pitch) (r : Registry π)
    (e : Endpoint π) : Resolution (Registry π) (ClosedRelation π) :=
  match e.role with
  | .starts => r.markStart rules e
  | .continues => r.markContinue rules e
  | .ends => r.markEnd rules pitchOf e

/-- A note without markers continues every open relation. -/
def continueAll (rules : RelationRules π) (r : Registry π) (note : Nat) (position : Position) :
    Registry π :=
  ⟨r.pending.map fun (key, o) =>
    (key, ⟨o.start, o.later ++ [⟨key, .continues, note, position, rules.implied⟩]⟩)⟩

/-- What to report when no marker can follow any more. -/
def finish (rules : RelationRules π) (r : Registry π) : List Diagnostic :=
  r.pending.map fun (key, o) =>
    (RelationFault.neverClosed rules.kind key).diagnostic o.start.position

/-- The end of all markers; nothing stays open. -/
def close (rules : RelationRules π) (r : Registry π) :
    Resolution (Registry π) (ClosedRelation π) where
  state := {}
  diagnostics := r.finish rules

end Registry
end ScorePlayback
