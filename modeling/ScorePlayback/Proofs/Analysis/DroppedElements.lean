import Mathlib.Data.List.Forall2
import ScorePlayback.Proofs.Analysis.FaultyNotes
import ScorePlayback.Proofs.Analysis.Subtrees
import ScorePlayback.Time.Exact

/-! # Elements that are dropped

An element or option that is not valid is dropped as a whole: what is analysed is what would be
without it, and only its own faults are reported. -/

namespace ScorePlayback

open Reporting (behind)

/-! ## What is dropped -/

/-- Children of a chord that are not valid notes, and why. -/
inductive DroppedFromChord (settings : Settings) : Node → List Rejection → Prop where
  | note {display : TupletDisplay} {items : List Node} {position : Position} {fault : GrammarFault}
      (h : NoteReading.read settings display true items = .error fault) :
      DroppedFromChord settings (.element .note items position) [⟨fault, position⟩]
  | foreign {child : Node} (h : child.kind ≠ .element .note) :
      DroppedFromChord settings child [child.misplacedIn .chord]

/-- The elements that a block of music can have. -/
def musicNames : List ElementName :=
  [.note, .rest, .chord, .clef, .key, .time, .barline, .volta, .goBack, .goForward]

/-- Children of a block of music that are not valid, and why. -/
inductive DroppedFromMusic (τ : Type) [TimeValue τ] (settings : Settings) :
    Node → List Rejection → Prop where
  | note {display : TupletDisplay} {items : List Node} {position : Position} {fault : GrammarFault}
      (h : NoteReading.read settings display true items = .error fault) :
      DroppedFromMusic τ settings (.element .note items position) [⟨fault, position⟩]
  | rest {display : TupletDisplay} {items : List Node} {position : Position} {fault : GrammarFault}
      (h : NoteReading.read settings display false items = .error fault) :
      DroppedFromMusic τ settings (.element .rest items position) [⟨fault, position⟩]
  | chord {children : List Node} {position : Position} {rejections : List (List Rejection)}
      (h : List.Forall₂ (DroppedFromChord settings) children rejections) :
      DroppedFromMusic τ settings (.element .chord children position)
        (rejections.flatten ++ [⟨.emptyChord, position⟩])
  | clef {children : List Node} {position : Position} {fault : GrammarFault}
      (h : Control.readClef (.element .clef children position) = .error fault) :
      DroppedFromMusic τ settings (.element .clef children position) [⟨fault, position⟩]
  | key {children : List Node} {position : Position} {fault : GrammarFault}
      (h : Control.readKey (.element .key children position) = .error fault) :
      DroppedFromMusic τ settings (.element .key children position) [⟨fault, position⟩]
  | time {children : List Node} {position : Position} {fault : GrammarFault}
      (h : Control.readMeter (.element .time children position) = .error fault) :
      DroppedFromMusic τ settings (.element .time children position) [⟨fault, position⟩]
  | barline {children : List Node} {position : Position} {rejection : Rejection}
      (h : Control.readBarline settings (.element .barline children position) = .error rejection) :
      DroppedFromMusic τ settings (.element .barline children position) [rejection]
  | volta {children : List Node} {position : Position} {fault : GrammarFault}
      (h : Control.readVolta (.element .volta children position) = .error fault) :
      DroppedFromMusic τ settings (.element .volta children position) [⟨fault, position⟩]
  | goBack {children : List Node} {position : Position} {fault : GrammarFault}
      (h : (Control.readMove "start" .goBackShape (.element .goBack children position) :
        Except GrammarFault (Control.Move τ)) = .error fault) :
      DroppedFromMusic τ settings (.element .goBack children position) [⟨fault, position⟩]
  | goForward {children : List Node} {position : Position} {fault : GrammarFault}
      (h : (Control.readMove "end" .goForwardShape (.element .goForward children position) :
        Except GrammarFault (Control.Move τ)) = .error fault) :
      DroppedFromMusic τ settings (.element .goForward children position) [⟨fault, position⟩]
  | foreign {child : Node} (h : ∀ name ∈ musicNames, child.kind ≠ .element name) :
      DroppedFromMusic τ settings child [child.misplacedIn .music]

/-! ## Trees without something that is dropped -/

/-- The elements through which blocks of music, chords and notes are reached. -/
inductive ElementName.IsReadIn : ElementName → ElementName → Prop where
  | content : IsReadIn .content .document
  | score : IsReadIn .score .content
  | instrument : IsReadIn .instrument .score
  | music : IsReadIn .music .instrument
  | chord : IsReadIn .chord .music
  | note : IsReadIn .note .music
  | rest : IsReadIn .rest .music
  | chordNote : IsReadIn .note .chord

/-- `Drops τ settings dropped rejections tree tree'` says that `dropped` is a child of a block of
music or a chord, or an option of a valid note or rest, and is not valid itself, and that `tree'` is
`tree` without it. -/
inductive Drops (τ : Type) [TimeValue τ] (settings : Settings) :
    Node → List Rejection → Node → Node → Prop where
  | ofMusic (before after : List Node) {position : Position} {dropped : Node}
      {rejections : List Rejection} (h : DroppedFromMusic τ settings dropped rejections) :
      Drops τ settings dropped rejections (.element .music (before ++ dropped :: after) position)
        (.element .music (before ++ after) position)
  | ofChord (before after : List Node) {position : Position} {dropped : Node}
      {rejections : List Rejection} (h : DroppedFromChord settings dropped rejections) :
      Drops τ settings dropped rejections (.element .chord (before ++ dropped :: after) position)
        (.element .chord (before ++ after) position)
  | ofNote (before after : List Node) {pitch duration dropped : Node} {position : Position}
      {display display' : TupletDisplay} {reading : NoteReading} {fault : GrammarFault}
      (hvalid : NoteReading.read settings display true
        (pitch :: duration :: (before ++ dropped :: after)) = .ok reading)
      (h : NoteOption.read settings true display' dropped = .error fault) :
      Drops τ settings dropped [⟨fault, dropped.position⟩]
        (.element .note (pitch :: duration :: (before ++ dropped :: after)) position)
        (.element .note (pitch :: duration :: (before ++ after)) position)
  | ofRest (before after : List Node) {duration dropped : Node} {position : Position}
      {display display' : TupletDisplay} {reading : NoteReading} {fault : GrammarFault}
      (hvalid : NoteReading.read settings display false
        (duration :: (before ++ dropped :: after)) = .ok reading)
      (h : NoteOption.read settings false display' dropped = .error fault) :
      Drops τ settings dropped [⟨fault, dropped.position⟩]
        (.element .rest (duration :: (before ++ dropped :: after)) position)
        (.element .rest (duration :: (before ++ after)) position)
  | inside (before after : List Node) {name parent : ElementName} {children children' : List Node}
      {place position : Position} {dropped : Node} {rejections : List Rejection}
      (hname : name.IsReadIn parent)
      (h : Drops τ settings dropped rejections (.element name children place)
        (.element name children' place)) :
      Drops τ settings dropped rejections
        (.element parent (before ++ .element name children place :: after) position)
        (.element parent (before ++ .element name children' place :: after) position)

/-! ## Dropped children -/

namespace Passage

variable {τ : Type} [TimeValue τ] {settings : Settings} {dropped : Node}
  {rejections : List Rejection}

theorem addChordNote_dropped (h : DroppedFromChord settings dropped rejections)
    (state : Passage τ × Option τ) :
    addChordNote settings state dropped = (state.1.reject rejections, state.2) := by
  obtain ⟨s, first⟩ := state
  cases h with
  | note h =>
      simp only [addChordNote, addNote_error h]
      cases first <;> rfl
  | foreign h =>
      unfold addChordNote
      dsimp only
      split
      · exact absurd rfl h
      · rfl

theorem foldl_addChordNote_dropped {children : List Node} {rejections : List (List Rejection)}
    (h : List.Forall₂ (DroppedFromChord settings) children rejections)
    (state : Passage τ × Option τ) :
    children.foldl (addChordNote settings) state =
      (state.1.reject rejections.flatten, state.2) := by
  induction h generalizing state with
  | nil => simp [reject_nil]
  | cons hchild _ ih =>
      rw [List.foldl_cons, addChordNote_dropped hchild, ih, List.flatten_cons, reject_append]

theorem read_dropped (h : DroppedFromMusic τ settings dropped rejections) (s : Passage τ) :
    read settings s dropped = s.reject rejections := by
  cases h with
  | note h => simp [read, addSingle, addNote_error h]
  | rest h => simp [read, addSingle, addNote_error h]
  | chord h => simp [read, addChord, foldl_addChordNote_dropped h, reject_append]
  | clef h => simp [read, accept, h]
  | key h => simp [read, accept, h]
  | time h => simp [read, accept, h]
  | barline h => simp [read, h]
  | volta h => simp [read, accept, h]
  | goBack h => simp [read, accept, h]
  | goForward h => simp [read, accept, h]
  | foreign h =>
      unfold read
      split
      case h_11 => rfl
      all_goals exact absurd rfl (h _ (by decide))

/-! ## Chords and blocks of music -/

theorem omits_addNote_of_drops (isNote : Bool) {items items' : List Node} {position : Position}
    (h : Drops τ settings dropped rejections
      (.element (NoteOption.elementOf isNote) items position)
      (.element (NoteOption.elementOf isNote) items' position)) (s : Passage τ) (inChord : Bool) :
    Omits (rejections.map Rejection.diagnostic) (s.addNote settings isNote items position inChord)
      (s.addNote settings isNote items' position inChord) := by
  cases isNote with
  | true =>
      cases h with
      | ofNote before after hvalid h =>
          obtain ⟨pitch, duration, hread⟩ := NoteReading.read_note_ok hvalid
          exact omits_addNote s ⟨_, _, NoteReading.omits_options h _ _ _, hread _ _, hread _ _⟩ _ _
      | inside before after hname h => cases hname
  | false =>
      cases h with
      | ofRest before after hvalid h =>
          obtain ⟨duration, hread⟩ := NoteReading.read_rest_ok hvalid
          exact omits_addNote s ⟨_, _, NoteReading.omits_options h _ _ _, hread _ _, hread _ _⟩ _ _
      | inside before after hname h => cases hname

theorem omits_addSingle_of_drops (isNote : Bool) {items items' : List Node} {position : Position}
    (h : Drops τ settings dropped rejections
      (.element (NoteOption.elementOf isNote) items position)
      (.element (NoteOption.elementOf isNote) items' position)) (s : Passage τ) :
    Omits (rejections.map Rejection.diagnostic) (s.addSingle settings isNote items position)
      (s.addSingle settings isNote items' position) := by
  obtain ⟨front, ⟨t, duration⟩, hitems, hitems'⟩ := omits_addNote_of_drops isNote h s false
  unfold addSingle
  rw [hitems, hitems']
  cases duration with
  | none => exact ⟨front, t, rfl, rfl⟩
  | some duration => exact ⟨front, t.mapCursor (·.advance duration), rfl, rfl⟩

theorem omits_addChordNote_of_drops {items items' : List Node} {position : Position}
    (h : Drops τ settings dropped rejections (.element .note items position)
      (.element .note items' position)) (state : Passage τ × Option τ) :
    Omits (rejections.map Rejection.diagnostic)
      (addChordNote settings state (.element .note items position))
      (addChordNote settings state (.element .note items' position)) := by
  have hfirst : Unaware fun result : Passage τ × Option τ =>
      (result.1, state.2 <|> result.2) := fun _ _ => rfl
  exact (omits_addNote_of_drops true h state.1 state.2.isSome).map
    (f := fun result => (result.1, state.2 <|> result.2)) hfirst

/-- What is done with the notes of a chord only depends on the duration of the first one. -/
theorem omits_addChord {children children' : List Node} {own : List Diagnostic} {s : Passage τ}
    (h : Omits own (children.foldl (addChordNote settings) (s, none))
      (children'.foldl (addChordNote settings) (s, none))) (position : Position) :
    Omits own (s.addChord settings children position) (s.addChord settings children' position) := by
  obtain ⟨front, ⟨t, first⟩, hchildren, hchildren'⟩ := h
  unfold addChord
  rw [hchildren, hchildren']
  cases first with
  | none =>
      exact ⟨front, t.reject [⟨.emptyChord, position⟩], reject_behind _ t _, reject_behind _ t _⟩
  | some duration => exact ⟨front, t.mapCursor (·.advance duration), rfl, rfl⟩

theorem omits_addChord_of_drops {children children' : List Node} {position : Position}
    (h : Drops τ settings dropped rejections (.element .chord children position)
      (.element .chord children' position)) (s : Passage τ) :
    Omits (rejections.map Rejection.diagnostic) (s.addChord settings children position)
      (s.addChord settings children' position) := by
  have hstep (child : Node) : Unaware fun state : Passage τ × Option τ =>
      addChordNote settings state child :=
    fun front state => addChordNote_behind settings front state child
  cases h with
  | ofChord _ _ h =>
      refine omits_addChord (Omits.foldl_erase hstep (fun state => ?_) _ _ _) position
      rw [addChordNote_dropped h]
      exact (omits_reject rejections state.1).map (f := (·, state.2)) fun _ _ => rfl
  | inside before after hname h =>
      cases hname
      exact omits_addChord
        (Omits.foldl_replace hstep (omits_addChordNote_of_drops h) _ _ _) position

theorem omits_read_of_drops {name : ElementName} {children children' : List Node}
    {position : Position} (hname : name.IsReadIn .music)
    (h : Drops τ settings dropped rejections (.element name children position)
      (.element name children' position)) (s : Passage τ) :
    Omits (rejections.map Rejection.diagnostic)
      (read settings s (.element name children position))
      (read settings s (.element name children' position)) := by
  cases hname with
  | chord => exact omits_addChord_of_drops h s
  | note => exact omits_addSingle_of_drops true h s
  | rest => exact omits_addSingle_of_drops false h s

end Passage

/-! ## Instruments, scores and documents -/

section

variable {τ : Type} [TimeValue τ] {settings : Settings} {dropped : Node}
  {rejections : List Rejection} {children children' : List Node} {position : Position}

theorem InstrumentState.omits_read_of_drops
    (h : Drops τ settings dropped rejections (.element .music children position)
      (.element .music children' position)) (s : InstrumentState τ) :
    Omits (rejections.map Rejection.diagnostic)
      (read settings s (.element .music children position))
      (read settings s (.element .music children' position)) := by
  let start : Passage τ := { linking := s.linking, part := s.part }
  have hstep (child : Node) : Unaware fun s : Passage τ => Passage.read settings s child :=
    fun front s => Passage.read_behind settings front s child
  have hpassage : Omits (rejections.map Rejection.diagnostic)
      (children.foldl (Passage.read settings) start)
      (children'.foldl (Passage.read settings) start) := by
    cases h with
    | ofMusic _ _ h =>
        refine Omits.foldl_erase hstep (fun s => ?_) _ _ _
        rw [Passage.read_dropped h]
        exact s.omits_reject rejections
    | inside before after hname h =>
        exact Omits.foldl_replace hstep (Passage.omits_read_of_drops hname h) _ _ _
  have hback : Unaware fun passage : Passage τ =>
      { s with linking := passage.linking, part := passage.part } := fun _ _ => rfl
  exact (hpassage.map hback :)

theorem ScoreState.omits_read_of_drops
    (h : Drops τ settings dropped rejections (.element .instrument children position)
      (.element .instrument children' position)) (s : ScoreState τ) :
    Omits (rejections.map Rejection.diagnostic)
      (read settings s (.element .instrument children position))
      (read settings s (.element .instrument children' position)) := by
  cases h with
  | inside before after hname h =>
      cases hname
      have hstep (child : Node) :
          Unaware fun s : InstrumentState τ => InstrumentState.read settings s child :=
        fun front s => InstrumentState.read_behind settings front s child
      refine Omits.map (f := fun state : InstrumentState τ => (⟨{ s.header with
        instruments := s.header.instruments ++ [state.finish] }, state.linking⟩ : ScoreState τ))
        (fun _ _ => rfl) ?_
      exact Omits.foldl_replace hstep (InstrumentState.omits_read_of_drops h) _ _ _

theorem omits_analyseScore_of_drops
    (h : Drops τ settings dropped rejections (.element .score children position)
      (.element .score children' position)) :
    Omits (rejections.map Rejection.diagnostic) (analyseScore settings children : ScoreAnalysis τ)
      (analyseScore settings children') := by
  cases h with
  | inside before after hname h =>
      cases hname
      have hstep (child : Node) :
          Unaware fun s : ScoreState τ => ScoreState.read settings s child :=
        fun front s => ScoreState.read_behind settings front s child
      refine Omits.map (f := fun state : ScoreState τ =>
        (⟨{ state.header with
              notes := state.linking.finish.notes
              relations := state.linking.finish.relations },
          state.linking.finish.diagnostics⟩ : ScoreAnalysis τ)) (fun front state => ?_) ?_
      · -- what is still open at the end is reported behind everything else
        exact congrArg (fun l : Linking τ =>
          (⟨{ state.header with notes := l.notes, relations := l.relations },
            l.diagnostics⟩ : ScoreAnalysis τ)) (Linking.report_behind front state.linking _)
      · exact Omits.foldl_replace hstep (ScoreState.omits_read_of_drops h) _ _ _

omit [TimeValue τ] in
theorem Analysis.omits_addScore {own : List Diagnostic} {s s' : ScoreAnalysis τ}
    (h : Omits own s s') (a : Analysis τ) : Omits own (a.addScore s) (a.addScore s') := by
  obtain ⟨front, t, rfl, rfl⟩ := h
  have haddScore (found : List Diagnostic) : a.addScore (behind found t) =
      behind (a.diagnostics ++ found) ({ a with diagnostics := [] }.addScore t) := by
    simp [behind, addScore, add, report]
  exact ⟨a.diagnostics ++ front, _, by rw [haddScore, List.append_assoc], haddScore front⟩

theorem Analysis.omits_readItem_of_drops
    (h : Drops τ settings dropped rejections (.element .score children position)
      (.element .score children' position)) (a : Analysis τ) :
    Omits (rejections.map Rejection.diagnostic)
      (readItem settings a (.element .score children position))
      (readItem settings a (.element .score children' position)) :=
  omits_addScore (omits_analyseScore_of_drops h) a

theorem Analysis.omits_read_of_drops
    (h : Drops τ settings dropped rejections (.element .content children position)
      (.element .content children' position)) (a : Analysis τ) :
    Omits (rejections.map Rejection.diagnostic)
      (read settings a (.element .content children position))
      (read settings a (.element .content children' position)) := by
  cases h with
  | inside before after hname h =>
      cases hname
      exact Omits.foldl_replace (fun item front a => readItem_behind settings front a item)
        (omits_readItem_of_drops h) _ _ _

theorem omits_analyse?_of_drops {tree tree' : Node} {analysis : Analysis τ}
    (h : Drops τ settings dropped rejections tree tree')
    (ha : analyse? settings tree = some analysis) :
    ∃ analysis' : Analysis τ, analyse? settings tree' = some analysis' ∧
      Omits (rejections.map Rejection.diagnostic) analysis analysis' := by
  cases h with
  | ofMusic _ _ _ => cases ha
  | ofChord _ _ _ => cases ha
  | ofNote _ _ _ _ => cases ha
  | ofRest _ _ _ _ => cases ha
  | @inside before after name parent children children' place position _ _ hname h =>
      cases hname with
      | content =>
          cases ha
          exact ⟨_, rfl, Omits.foldl_replace
            (fun child front a => Analysis.read_behind settings front a child)
            (Analysis.omits_read_of_drops h) before after _⟩
      | instrument =>
          cases ha
          have hscore : Drops τ settings dropped rejections
              (.element .score (before ++ .element .instrument children place :: after) position)
              (.element .score (before ++ .element .instrument children' place :: after) position) :=
            .inside before after .instrument h
          exact ⟨_, rfl, Analysis.omits_addScore (omits_analyseScore_of_drops hscore) _⟩
      | _ => cases ha

end

/-! ## Where the problems of what is dropped are -/

def Rejection.IsWithin (r : Rejection) (tree : Node) : Prop :=
  ∃ node : Node, node.IsWithin tree ∧ r.position = node.position

theorem exists_error_of_foldlM {ε α σ : Type} {f : σ → α → Except ε σ} {xs : List α} {s : σ} {e : ε}
    (h : xs.foldlM f s = .error e) : ∃ x ∈ xs, ∃ s, f s x = .error e := by
  induction xs generalizing s with
  | nil => cases h
  | cons x xs ih =>
      rw [List.foldlM_cons] at h
      cases hx : f s x with
      | ok s' =>
          rw [hx] at h
          obtain ⟨x', hmem, s', hx'⟩ := ih h
          exact ⟨x', List.mem_cons_of_mem _ hmem, s', hx'⟩
      | error e' =>
          rw [hx] at h
          exact ⟨x, List.mem_cons_self, s, hx.trans h⟩

namespace Control

theorem position_of_readBarlinePart {spec : BarlineSpec} {part : Node} {rejection : Rejection}
    (h : readBarlinePart spec part = .error rejection) : rejection.position = part.position := by
  unfold readBarlinePart at h
  repeat' split at h
  all_goals simp only [reduceCtorEq, Except.error.injEq] at h
  all_goals exact h ▸ rfl

/-- A barline is rejected at the first of its parts that is not valid. -/
theorem isWithin_of_readBarline {settings : Settings} {children : List Node} {position : Position}
    {rejection : Rejection}
    (h : readBarline settings (.element .barline children position) = .error rejection) :
    rejection.IsWithin (.element .barline children position) := by
  obtain ⟨part, hmem, spec, hpart⟩ := exists_error_of_foldlM h
  exact ⟨part, .child hmem .here, position_of_readBarlinePart hpart⟩

end Control

section

variable {τ : Type} [TimeValue τ] {settings : Settings} {dropped : Node}
  {rejections : List Rejection}

/-- A node is rejected for one or more problems, all of them within it. -/
structure Node.IsRejectedFor (node : Node) (rejections : List Rejection) : Prop where
  ne_nil : rejections ≠ []
  isWithin : ∀ r ∈ rejections, r.IsWithin node

theorem Node.isRejectedFor_singleton {node : Node} {r : Rejection}
    (h : r.position = node.position) : node.IsRejectedFor [r] :=
  ⟨by simp, List.forall_mem_singleton.mpr ⟨node, .here, h⟩⟩

theorem DroppedFromChord.isRejectedFor (h : DroppedFromChord settings dropped rejections) :
    dropped.IsRejectedFor rejections := by
  cases h with
  | note _ => exact Node.isRejectedFor_singleton rfl
  | foreign _ => exact Node.isRejectedFor_singleton rfl

theorem DroppedFromChord.exists_isWithin {children : List Node} {rejections : List (List Rejection)}
    (h : List.Forall₂ (DroppedFromChord settings) children rejections) :
    ∀ r ∈ rejections.flatten, ∃ child ∈ children, r.IsWithin child := by
  induction h with
  | nil => simp
  | cons hchild _ ih =>
      rw [List.flatten_cons, List.forall_mem_append]
      refine ⟨fun r hr => ⟨_, List.mem_cons_self, hchild.isRejectedFor.isWithin r hr⟩, ?_⟩
      intro r hr
      obtain ⟨child, hmem, hwithin⟩ := ih r hr
      exact ⟨child, List.mem_cons_of_mem _ hmem, hwithin⟩

theorem DroppedFromMusic.isRejectedFor (h : DroppedFromMusic τ settings dropped rejections) :
    dropped.IsRejectedFor rejections := by
  cases h with
  | @chord children position rejections h =>
      refine ⟨by simp, List.forall_mem_append.mpr ⟨fun r hr => ?_, ?_⟩⟩
      · obtain ⟨child, hmem, node, hnode, hposition⟩ := DroppedFromChord.exists_isWithin h r hr
        exact ⟨node, .child hmem hnode, hposition⟩
      · exact List.forall_mem_singleton.mpr ⟨.element .chord children position, .here, rfl⟩
  | barline h =>
      exact ⟨by simp, List.forall_mem_singleton.mpr (Control.isWithin_of_readBarline h)⟩
  | _ => exact Node.isRejectedFor_singleton rfl

theorem Drops.isRejectedFor {tree tree' : Node}
    (h : Drops τ settings dropped rejections tree tree') : dropped.IsRejectedFor rejections := by
  induction h with
  | ofMusic _ _ h => exact h.isRejectedFor
  | ofChord _ _ h => exact h.isRejectedFor
  | ofNote _ _ _ _ => exact Node.isRejectedFor_singleton rfl
  | ofRest _ _ _ _ => exact Node.isRejectedFor_singleton rfl
  | inside _ _ _ _ ih => exact ih

/-- Without something that is dropped the same document is analysed. The problems are the same,
too, except for those of what was dropped. -/
theorem analyse_of_drops {tree tree' : Node} {analysis : Analysis τ}
    (h : Drops τ settings dropped rejections tree tree')
    (ha : analyse settings tree = .ok analysis) :
    dropped.IsRejectedFor rejections ∧
    ∃ front back, analysis.diagnostics = front ++ rejections.map Rejection.diagnostic ++ back ∧
      analyse settings tree' = .ok ⟨analysis.document, front ++ back⟩ := by
  refine ⟨h.isRejectedFor, ?_⟩
  unfold analyse at ha ⊢
  split at ha
  · next analysed hanalysed =>
    obtain rfl := Except.ok.inj ha
    obtain ⟨_, htree', front, t, rfl, rfl⟩ := omits_analyse?_of_drops h hanalysed
    exact ⟨front, t.diagnostics, rfl, by rw [htree']; rfl⟩
  · cases ha

end

/-- A rest in a chord, whose only note has no duration. -/
def faultyChord : Node :=
  .element .chord [.element .note [.atom .label "c4" ⟨1, 11⟩] ⟨1, 8⟩,
    .element .rest [.atom .label "q" ⟨1, 18⟩] ⟨1, 15⟩] ⟨1, 1⟩

/-- Two notes, and music between them. -/
def musicBetween (music : List Node) : Node :=
  let note (place : Position) : Node :=
    .element .note [.atom .label "c4" place, .atom .label "q" place] place
  .element .score [.element .instrument [.element .music
    (note ⟨2, 1⟩ :: (music ++ [note ⟨3, 1⟩])) ⟨1, 1⟩] ⟨1, 1⟩] ⟨1, 1⟩

theorem analyse_without_faultyChord :
    ∃ analysis : Analysis Rat, analyse {} (musicBetween [faultyChord]) = .ok analysis ∧
      ∃ front back, analysis.diagnostics = front ++ List.map Rejection.diagnostic
          [⟨.durationMissing .note, ⟨1, 8⟩⟩, ⟨.notAllowed "r" .chord, ⟨1, 15⟩⟩,
            ⟨.emptyChord, ⟨1, 1⟩⟩] ++ back ∧
        analyse {} (musicBetween []) = .ok ⟨analysis.document, front ++ back⟩ := by
  have hchord : DroppedFromMusic Rat {} faultyChord
      [⟨.durationMissing .note, ⟨1, 8⟩⟩, ⟨.notAllowed "r" .chord, ⟨1, 15⟩⟩,
        ⟨.emptyChord, ⟨1, 1⟩⟩] :=
    .chord (.cons (.note (show NoteReading.read {} {} true _ = _ from rfl))
      (.cons (.foreign (by decide)) .nil))
  have hdrops : Drops Rat {} faultyChord _ (musicBetween [faultyChord]) (musicBetween []) :=
    .inside [] [] .instrument (.inside [] [] .music (.ofMusic [_] [_] hchord))
  have h : (analyse {} (musicBetween [faultyChord]) : Except CompileError (Analysis Rat)) = .ok _ :=
    rfl
  exact ⟨_, h, (analyse_of_drops hdrops h).2⟩

end ScorePlayback
