import Mathlib.Data.List.Perm.Subperm
import ScorePlayback.Proofs.Analysis.DroppedElements
import ScorePlayback.Proofs.Notation.Positions

/-! # What the links of a score are told

The links of a score are told of notes that are placed and of what is rejected, in the order of the
text. Each note or rest in its music is one or the other, and all of this stands within the elements
that are read. -/

namespace ScorePlayback

/-! ## Notes and rests as they are written -/

structure WrittenNote where
  isNote : Bool
  items : List Node
  position : Position

namespace WrittenNote

def ofNode? : Node → Option WrittenNote
  | .element .note items position => some ⟨true, items, position⟩
  | .element .rest items position => some ⟨false, items, position⟩
  | _ => none

theorem position_of_ofNode? {node : Node} {w : WrittenNote} (h : ofNode? node = some w) :
    w.position = node.position := by
  unfold ofNode? at h
  split at h
  · exact Option.some.inj h ▸ rfl
  · exact Option.some.inj h ▸ rfl
  · cases h

/-- The notes and rests of a child of a block of music, a chord or one of them. -/
def ofMusic : Node → List WrittenNote
  | .element .chord children _ => children.filterMap ofNode?
  | child => (ofNode? child).toList

/-- Those of a child of an instrument. -/
def ofInstrument : Node → List WrittenNote
  | .element .music children _ => children.flatMap ofMusic
  | _ => []

/-- Those of a child of a score. -/
def ofScore : Node → List WrittenNote
  | .element .instrument children _ => children.flatMap ofInstrument
  | _ => []

theorem positions_flatMap {written : Node → List WrittenNote}
    (h : ∀ node, ((written node).map position).Sublist node.positions) (nodes : List Node) :
    ((nodes.flatMap written).map position).Sublist (Node.positionsOf nodes) := by
  induction nodes with
  | nil => exact .slnil
  | cons node nodes ih =>
      rw [List.flatMap_cons, List.map_append]
      exact (h node).append ih

theorem positions_ofNode? (node : Node) :
    ((ofNode? node).toList.map position).Sublist node.positions := by
  cases h : ofNode? node with
  | none => exact List.nil_sublist _
  | some w =>
      refine List.singleton_sublist.mpr ?_
      rw [position_of_ofNode? h]
      exact node.position_mem_positions

theorem positions_ofMusic (node : Node) :
    ((ofMusic node).map position).Sublist node.positions := by
  unfold ofMusic
  split
  · rw [List.filterMap_eq_flatMap_toList]
    exact (positions_flatMap positions_ofNode? _).cons _
  · exact positions_ofNode? node

theorem positions_ofInstrument (node : Node) :
    ((ofInstrument node).map position).Sublist node.positions := by
  unfold ofInstrument
  split
  · exact (positions_flatMap positions_ofMusic _).cons _
  · exact List.nil_sublist _

theorem positions_ofScore (node : Node) :
    ((ofScore node).map position).Sublist node.positions := by
  unfold ofScore
  split
  · exact (positions_flatMap positions_ofInstrument _).cons _
  · exact List.nil_sublist _

end WrittenNote

/-- The notes and rests of a score, in the order of the text. -/
def Node.writtenNotes (score : Node) : List WrittenNote :=
  score.children.flatMap WrittenNote.ofScore

/-! ## Logs -/

inductive LogEntry where
  | rejected (r : Rejection)
  | placed (w : WrittenNote) (inChord : Bool)

namespace LogEntry

def placed? : LogEntry → Option WrittenNote
  | .placed w _ => some w
  | .rejected _ => none

def rejected? : LogEntry → Option Position
  | .rejected r => some r.position
  | .placed .. => none

/-- Where the rejected node stands, or the note and its items. -/
def positions : LogEntry → List Position
  | .rejected r => [r.position]
  | .placed w _ => w.position :: w.items.map Node.position

end LogEntry

/-- A log of what has been written, and stands at some positions. -/
structure Covers (log : List LogEntry) (written : List WrittenNote) (positions : List Position) :
    Prop where
  placed : (log.filterMap LogEntry.placed?).Sublist written
  rejected : ∀ w ∈ written,
    w ∈ log.filterMap LogEntry.placed? ∨ w.position ∈ log.filterMap LogEntry.rejected?
  positions : (log.flatMap LogEntry.positions).Subperm positions

namespace Covers

variable {log log' : List LogEntry} {written written' : List WrittenNote}
  {ps ps' : List Position}

theorem nil (ps : List Position) : Covers [] [] ps :=
  ⟨.refl _, nofun, List.nil_subperm⟩

theorem append (h : Covers log written ps) (h' : Covers log' written' ps') :
    Covers (log ++ log') (written ++ written') (ps ++ ps') where
  placed := by
    rw [List.filterMap_append]
    exact h.placed.append h'.placed
  rejected := by
    simp only [List.filterMap_append, List.mem_append]
    rintro w (hw | hw)
    · exact (h.rejected w hw).imp .inl .inl
    · exact (h'.rejected w hw).imp .inr .inr
  positions := by
    rw [List.flatMap_append]
    exact h.positions.append h'.positions

theorem within (h : Covers log written ps) (hsub : ps.Subperm ps') : Covers log written ps' :=
  ⟨h.placed, h.rejected, h.positions.trans hsub⟩

theorem rejects {r : Rejection} (hr : r.position ∈ ps)
    (hwritten : ∀ w ∈ written, w.position = r.position) : Covers [.rejected r] written ps where
  placed := List.nil_sublist _
  rejected w hw := .inr (by simp [LogEntry.rejected?, hwritten w hw])
  positions := List.singleton_subperm_iff.mpr hr

theorem places (w : WrittenNote) (inChord : Bool) :
    Covers [.placed w inChord] [w] (w.position :: Node.positionsOf w.items) where
  placed := .refl _
  rejected w' hw' := .inl hw'
  positions := by
    simpa [LogEntry.positions] using
      ((Node.map_position_sublist w.items).cons_cons w.position).subperm

end Covers

namespace Linking

variable {τ : Type} [TimeValue τ]

/-- The links behind a log. -/
inductive Logs (settings : Settings) (start : Linking τ) : List LogEntry → Linking τ → Prop where
  | nil : Logs settings start [] start
  | rejected {log : List LogEntry} {l : Linking τ} (h : Logs settings start log l)
      (r : Rejection) : Logs settings start (log ++ [.rejected r]) (l.reject [r])
  | placed {log : List LogEntry} {s : Passage τ} (h : Logs settings start log s.linking)
      {w : WrittenNote} {reading : NoteReading}
      (hread : NoteReading.read settings s.inherited.display w.isNote w.items = .ok reading)
      (inChord : Bool) : Logs settings start (log ++ [.placed w inChord])
        (s.placeNote settings reading w.position inChord).linking

theorem Logs.trans {settings : Settings} {start between l : Linking τ} {log log' : List LogEntry}
    (h : Logs settings start log between) (h' : Logs settings between log' l) :
    Logs settings start (log ++ log') l := by
  induction h' with
  | nil => rwa [List.append_nil]
  | rejected _ r ih =>
      rw [← List.append_assoc]
      exact ih.rejected r
  | placed _ hread inChord ih =>
      rw [← List.append_assoc]
      exact ih.placed hread inChord

/-- The links behind nodes with some notes and rests, which stand at some positions. -/
def Reads (settings : Settings) (written : List WrittenNote) (ps : List Position)
    (l l' : Linking τ) : Prop := ∃ log, l.Logs settings log l' ∧ Covers log written ps

namespace Reads

variable {settings : Settings} {written written' : List WrittenNote} {ps ps' : List Position}
  {l l' l'' : Linking τ}

theorem nothing (l : Linking τ) (ps : List Position) : Reads settings [] ps l l :=
  ⟨[], .nil, .nil ps⟩

theorem trans (h : Reads settings written ps l l') (h' : Reads settings written' ps' l' l'') :
    Reads settings (written ++ written') (ps ++ ps') l l'' := by
  obtain ⟨log, hlog, hcovers⟩ := h
  obtain ⟨log', hlog', hcovers'⟩ := h'
  exact ⟨log ++ log', hlog.trans hlog', hcovers.append hcovers'⟩

theorem within (h : Reads settings written ps l l') (hsub : ps.Subperm ps') :
    Reads settings written ps' l l' := by
  obtain ⟨log, hlog, hcovers⟩ := h
  exact ⟨log, hlog, hcovers.within hsub⟩

theorem rejects (l : Linking τ) {r : Rejection} (hr : r.position ∈ ps)
    (hwritten : ∀ w ∈ written, w.position = r.position) :
    Reads settings written ps l (l.reject [r]) :=
  ⟨[.rejected r], .rejected .nil r, .rejects hr hwritten⟩

/-- One node after the other. -/
theorem foldl {σ : Type} (linking : σ → Linking τ) {step : σ → Node → σ}
    {written : Node → List WrittenNote}
    (hstep : ∀ s node, Reads settings (written node) node.positions (linking s)
      (linking (step s node))) (nodes : List Node) (s : σ) :
    Reads settings (nodes.flatMap written) (Node.positionsOf nodes) (linking s)
      (linking (nodes.foldl step s)) := by
  induction nodes generalizing s with
  | nil => exact nothing _ _
  | cons node nodes ih => exact (hstep s node).trans (ih (step s node))

end Reads

end Linking

/-! ## Music -/

variable {τ : Type} [TimeValue τ] (settings : Settings)

namespace Passage

/-- The links do not see the cursor move. -/
theorem linking_addSingle (s : Passage τ) (isNote : Bool) (items : List Node)
    (position : Position) : (s.addSingle settings isNote items position).linking =
      (s.addNote settings isNote items position false).1.linking := by
  unfold addSingle
  generalize s.addNote settings isNote items position false = result
  obtain ⟨s', duration⟩ := result
  cases duration with
  | none => rfl
  | some d => rfl

theorem linking_addChord (s : Passage τ) (children : List Node) (position : Position) :
    (s.addChord settings children position).linking =
      if (children.foldl (addChordNote settings) (s, none)).2.isSome then
        (children.foldl (addChordNote settings) (s, none)).1.linking
      else (children.foldl (addChordNote settings) (s, none)).1.linking.reject
        [⟨.emptyChord, position⟩] := by
  unfold addChord
  generalize children.foldl (addChordNote settings) (s, none) = result
  obtain ⟨s', first⟩ := result
  cases first with
  | none => rfl
  | some d => rfl

theorem reads_addNote (s : Passage τ) (w : WrittenNote) (inChord : Bool) :
    Linking.Reads settings [w] (w.position :: Node.positionsOf w.items) s.linking
      (s.addNote settings w.isNote w.items w.position inChord).1.linking := by
  unfold addNote
  split
  · next reading hread => exact ⟨_, .placed .nil hread inChord, .places w inChord⟩
  · exact .rejects _ List.mem_cons_self (by simp)

theorem reads_addSingle (s : Passage τ) (w : WrittenNote) :
    Linking.Reads settings [w] (w.position :: Node.positionsOf w.items) s.linking
      (s.addSingle settings w.isNote w.items w.position).linking := by
  rw [linking_addSingle]
  exact s.reads_addNote settings w false

theorem reads_addChordNote (state : Passage τ × Option τ) (child : Node) :
    Linking.Reads settings (WrittenNote.ofNode? child).toList child.positions state.1.linking
      (addChordNote settings state child).1.linking := by
  obtain ⟨s, first⟩ := state
  unfold addChordNote
  dsimp only
  split
  · next items position => exact s.reads_addNote settings ⟨true, items, position⟩ first.isSome
  · refine .rejects _ child.position_mem_positions fun w hw => ?_
    exact WrittenNote.position_of_ofNode? (Option.mem_toList.mp hw)

theorem reads_addChord (s : Passage τ) (children : List Node) (position : Position) :
    Linking.Reads settings (children.filterMap WrittenNote.ofNode?)
      (position :: Node.positionsOf children) s.linking
      (s.addChord settings children position).linking := by
  have hfold := Linking.Reads.foldl (fun state : Passage τ × Option τ => state.1.linking)
    (reads_addChordNote settings) children (s, none)
  rw [← List.filterMap_eq_flatMap_toList] at hfold
  rw [linking_addChord]
  split
  · exact hfold.within (List.sublist_cons_self _ _).subperm
  · have hempty (l : Linking τ) : Linking.Reads settings [] [position] l
        (l.reject [⟨.emptyChord, position⟩]) := .rejects l List.mem_cons_self nofun
    have hall := hfold.trans (hempty _)
    rw [List.append_nil] at hall
    exact hall.within List.perm_append_comm.subperm

theorem reads_accept {α : Type} (s : Passage τ) {node : Node} (reading : Except GrammarFault α)
    (use : α → Passage τ) (huse : ∀ value, (use value).linking = s.linking) :
    Linking.Reads settings [] node.positions s.linking
      (s.accept node.position reading use).linking := by
  cases reading with
  | ok value =>
      show Linking.Reads settings [] node.positions s.linking (use value).linking
      rw [huse]
      exact .nothing _ _
  | error fault => exact .rejects _ node.position_mem_positions nofun

/-- One child of a block of music. -/
theorem reads_read (s : Passage τ) (child : Node) :
    Linking.Reads settings (WrittenNote.ofMusic child) child.positions s.linking
      (read settings s child).linking := by
  cases child with
  | atom kind text position => exact .rejects _ (Node.position_mem_positions _) nofun
  | element name children position =>
      cases name with
      | note => exact s.reads_addSingle settings ⟨true, children, position⟩
      | rest => exact s.reads_addSingle settings ⟨false, children, position⟩
      | chord => exact s.reads_addChord settings children position
      | clef | key | time | volta => exact s.reads_accept settings _ _ fun _ => rfl
      | goBack | goForward =>
          refine s.reads_accept settings _ _ fun move => ?_
          cases move <;> rfl
      | barline =>
          unfold read
          dsimp only
          split
          · exact .nothing _ _
          · next rejection hrejection =>
            obtain ⟨part, hpart, hposition⟩ := Control.isWithin_of_readBarline hrejection
            exact .rejects _ (hposition ▸ hpart.position_mem) nofun
      | _ => exact .rejects _ (Node.position_mem_positions _) nofun

end Passage

/-! ## From instruments to scores -/

namespace InstrumentState

theorem reads_read (s : InstrumentState τ) (child : Node) :
    Linking.Reads settings (WrittenNote.ofInstrument child) child.positions s.linking
      (read settings s child).linking := by
  cases child with
  | atom kind text position => exact .rejects _ (Node.position_mem_positions _) nofun
  | element name children position =>
      cases name with
      | instrumentName | midi | staves =>
          unfold read
          dsimp only
          split
          · exact .nothing _ _
          · exact .rejects _ (Node.position_mem_positions _) nofun
      | music =>
          have hfold := Linking.Reads.foldl Passage.linking (Passage.reads_read settings) children
            { linking := s.linking, part := s.part }
          exact hfold.within (List.sublist_cons_self _ _).subperm
      | _ => exact .rejects _ (Node.position_mem_positions _) nofun

end InstrumentState

namespace ScoreState

theorem reads_read (s : ScoreState τ) (child : Node) :
    Linking.Reads settings (WrittenNote.ofScore child) child.positions s.linking
      (read settings s child).linking := by
  cases child with
  | atom kind text position => exact .rejects _ (Node.position_mem_positions _) nofun
  | element name children position =>
      cases name with
      | version | option | title =>
          unfold read
          dsimp only
          split
          · exact .nothing _ _
          · exact .rejects _ (Node.position_mem_positions _) nofun
      | instrument =>
          have hfold := Linking.Reads.foldl InstrumentState.linking
            (InstrumentState.reads_read settings) children (.start settings s.linking)
          exact hfold.within (List.sublist_cons_self _ _).subperm
      | _ => exact .rejects _ (Node.position_mem_positions _) nofun

/-- The links behind all children of a score. -/
theorem reads_children (children : List Node) :
    Linking.Reads settings (children.flatMap WrittenNote.ofScore) (Node.positionsOf children) {}
      (children.foldl (read settings) ({} : ScoreState τ)).linking :=
  Linking.Reads.foldl ScoreState.linking (reads_read settings) children {}

end ScoreState

end ScorePlayback
