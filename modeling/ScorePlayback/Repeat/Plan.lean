import ScorePlayback.Numeral
import ScorePlayback.Repeat.Jump
import ScorePlayback.Sound.Timeline

/-! # The repeats of a score

The barlines and volta brackets of the first instrument say what is repeated. A repeat end
goes back to the start of its section: behind the last start of a repeat, or behind the last
repeat end, or at measure 1. A repeat end inside a bracket belongs to this ending. Once it is
used up its bracket is skipped, as often as there are later endings and at least once. -/

namespace ScorePlayback

/-! ## What matters for repeats -/

inductive RepeatMark where
  | volta (ending measure span : Nat)
  | music (measure : Nat)
  | barline (shape : Barline) (measure times : Nat)
deriving DecidableEq, Repr

def RepeatMark.ofObject? {τ : Type} (object : StaffObject τ) : Option RepeatMark :=
  match object.symbol with
  | .volta ending span => some (.volta ending object.measure span)
  | .noteRest _ => some (.music object.measure)
  | .barline shape times => some (.barline shape object.measure times)
  | _ => none

/-- The marks of the first instrument, in the order of time. -/
def repeatMarks {τ : Type} [TimeValue τ] (score : Score τ) : List RepeatMark :=
  match score.instruments with
  | [] => []
  | first :: _ => (inTimeOrder first.timeline).filterMap fun e => RepeatMark.ofObject? e.1

/-! ## Sections and their brackets -/

/-- At a measure, playback continues `times` times at another measure. -/
structure Leap where
  measure : Nat
  times : Nat
  target : Nat
deriving DecidableEq, Repr

/-- A leap back from the end of a measure. For an ending, also a skip from the start of its
bracket. -/
structure SectionRepeat where
  back : Leap
  skip : Option Leap := none
deriving DecidableEq, Repr

structure RepeatEnd where
  measure : Nat
  times : Nat
deriving DecidableEq, Repr

structure Bracket where
  ending : Nat
  start : Nat
  span : Nat
  repeatEnd : Option RepeatEnd := none
deriving DecidableEq, Repr

namespace Bracket

/-- The first measure behind the bracket. Measures are counted in 32 bits. -/
def stop (b : Bracket) : Nat := min (b.start + b.span) Numeral.largest32

def covers (b : Bracket) (measure : Nat) : Bool := b.start ≤ measure && measure < b.stop

/-- Gives a repeat end to the last bracket that covers its measure and has none yet. -/
def claim? (e : RepeatEnd) : List Bracket → Option (List Bracket)
  | [] => none
  | b :: rest =>
    match claim? e rest with
    | some rest => some (b :: rest)
    | none =>
      if b.repeatEnd.isNone && b.covers e.measure then some ({ b with repeatEnd := some e } :: rest)
      else none

/-- The last ending of a list of brackets. -/
def lastEnding (brackets : List Bracket) : Nat := (brackets.map ending).foldl max 0

/-- The repeat of a bracket in a section that starts at `start`, if it has a repeat end. -/
def repeat? (start last : Nat) (b : Bracket) : Option SectionRepeat :=
  b.repeatEnd.map fun e =>
    { back := ⟨e.measure, e.times, start⟩
      skip := some ⟨b.start, max 1 (last - b.ending), b.stop⟩ }

def notice (b : Bracket) : VoltaNotice := ⟨b.ending, b.start⟩

end Bracket

/-- The section being read, its brackets, and the repeats of the sections before it. -/
structure RepeatPlan where
  sectionStart : Nat := 1
  brackets : List Bracket := []
  repeats : List SectionRepeat := []
  notices : List VoltaNotice := []
deriving DecidableEq, Repr

namespace RepeatPlan

/-- Starts a new section. The brackets of the old one become repeats; if none of them has a
repeat end they are only noted. -/
def closeSection (p : RepeatPlan) (nextStart : Nat) : RepeatPlan :=
  if p.brackets.all fun b => b.repeatEnd.isNone then
    { p with
      sectionStart := nextStart
      brackets := []
      notices := p.notices ++ p.brackets.map Bracket.notice }
  else
    { p with
      sectionStart := nextStart
      brackets := []
      repeats := p.repeats ++
        p.brackets.filterMap (Bracket.repeat? p.sectionStart (Bracket.lastEnding p.brackets)) }

/-- There are brackets, and a measure is behind all of them. -/
def isBehindBrackets (p : RepeatPlan) (measure : Nat) : Bool :=
  !p.brackets.isEmpty && p.brackets.all fun b => b.stop ≤ measure

/-- Music behind the brackets belongs to the next section. -/
def reach (p : RepeatPlan) (measure : Nat) : RepeatPlan :=
  if p.isBehindBrackets measure then p.closeSection measure else p

/-- A repeat end outside all brackets ends its section. -/
def endRepeat (p : RepeatPlan) (e : RepeatEnd) : RepeatPlan :=
  match Bracket.claim? e p.brackets with
  | some brackets => { p with brackets }
  | none =>
    let closed := p.closeSection (e.measure + 1)
    { closed with repeats := closed.repeats ++ [{ back := ⟨e.measure, e.times, p.sectionStart⟩ }] }

def read (p : RepeatPlan) : RepeatMark → RepeatPlan
  | .volta ending measure span => { p with brackets := p.brackets ++ [⟨ending, measure, span, none⟩] }
  | .music measure => p.reach measure
  | .barline shape measure times =>
    let p := p.reach measure
    let p := if shape.endsRepeat then p.endRepeat ⟨measure, times⟩ else p
    if shape.startsRepeat then p.closeSection (measure + 1) else p

/-- The repeats that a list of marks describes. -/
def ofMarks (marks : List RepeatMark) : RepeatPlan :=
  let p := marks.foldl read {}
  p.closeSection p.sectionStart

end RepeatPlan
end ScorePlayback
