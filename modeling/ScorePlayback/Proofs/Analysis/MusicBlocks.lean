import Mathlib.Data.List.Induction
import ScorePlayback.Proofs.Analysis.Effects
import ScorePlayback.Proofs.Analysis.FaultyNotes
import ScorePlayback.Proofs.Analysis.OpenTuplets
import ScorePlayback.Proofs.Analysis.ReadingLog

/-! # The notes of each block of music

A block of music places its notes and rests that can be read, in the order of the text. Between two
of them the links learn of nothing but problems, and what notes inherit stays as it is. -/

namespace ScorePlayback

/-! ## Blocks as they are written -/

namespace WrittenNote

/-- A note or rest that is not dropped. -/
def isAccepted (settings : Settings) (w : WrittenNote) : Bool := (w.spec? settings).isSome

/-- Notes that start together. All but the first one follow another note of their chord. -/
def together : List WrittenNote → List (WrittenNote × Bool)
  | [] => []
  | w :: rest => (w, false) :: rest.map (·, true)

theorem together_concat (ws : List WrittenNote) (w : WrittenNote) :
    together (ws ++ [w]) = together ws ++ [(w, !ws.isEmpty)] := by
  cases ws with
  | nil => rfl
  | cons first rest => simp [together]

variable {settings : Settings} {display : TupletDisplay} {w : WrittenNote}

theorem isAccepted_of_read {reading : NoteReading}
    (h : NoteReading.read settings display w.isNote w.items = .ok reading) :
    w.isAccepted settings = true := by
  unfold isAccepted spec?
  split
  · rfl
  · next hfault =>
    rw [NoteReading.read_error display hfault] at h
    cases h

theorem isAccepted_of_error {fault : GrammarFault}
    (h : NoteReading.read settings display w.isNote w.items = .error fault) :
    w.isAccepted settings = false := by
  rw [isAccepted, spec?, NoteReading.read_error {} h]
  rfl

end WrittenNote

namespace Node

/-- The notes and rests that an element of music places, and which of them follow another note of
their chord. -/
def placed (settings : Settings) (n : Node) : List (WrittenNote × Bool) :=
  WrittenNote.together (n.musicNotes.filter (WrittenNote.isAccepted settings))

/-- Those of the block that a child of an instrument is, if it is one. -/
def instrumentBlocks (settings : Settings) : Node → List (List (WrittenNote × Bool))
  | .element .music children _ => [children.flatMap (placed settings)]
  | _ => []

/-- Those of all blocks in a child of a score, block by block. -/
def scoreBlocks (settings : Settings) : Node → List (List (WrittenNote × Bool))
  | .element .instrument children _ => children.flatMap (instrumentBlocks settings)
  | _ => []

/-- The notes and rests that a score places, block by block. -/
def blocks (settings : Settings) (score : Node) : List (List (WrittenNote × Bool)) :=
  score.children.flatMap (scoreBlocks settings)

end Node

/-! ## Passages -/

variable {τ : Type} [TimeValue τ] (settings : Settings)

/-- From one passage to another some notes are placed. -/
inductive Passage.Leads (start : Passage τ) : List (WrittenNote × Bool) → Passage τ → Prop where
  | nil : Leads start [] start
  | silent {placed : List (WrittenNote × Bool)} {s s' : Passage τ} (h : Leads start placed s)
      (found : List Diagnostic) (hlinking : s'.linking = s.linking.report found)
      (hinherited : s'.inherited = s.inherited) : Leads start placed s'
  | note {placed : List (WrittenNote × Bool)} {s : Passage τ} (h : Leads start placed s)
      {w : WrittenNote} {reading : NoteReading}
      (hread : NoteReading.read settings s.inherited.display w.isNote w.items = .ok reading)
      (inChord : Bool) : Leads start (placed ++ [(w, inChord)])
        (s.placeNote settings reading w.position inChord)

namespace Passage

variable {settings} {start s s' : Passage τ} {placed placed' : List (WrittenNote × Bool)}

namespace Leads

theorem trans (h : Leads settings start placed s) (h' : Leads settings s placed' s') :
    Leads settings start (placed ++ placed') s' := by
  induction h' with
  | nil => rwa [List.append_nil]
  | silent _ found hlinking hinherited ih => exact ih.silent found hlinking hinherited
  | note _ hread inChord ih =>
      rw [← List.append_assoc]
      exact ih.note hread inChord

theorem reject (h : Leads settings start placed s) (rejections : List Rejection) :
    Leads settings start placed (s.reject rejections) := h.silent _ rfl rfl

/-- What does not go to the links is not noticed. -/
theorem part (h : Leads settings start placed s) (part : Part τ) :
    Leads settings start placed { s with part } :=
  h.silent [] (by rw [Linking.report, List.append_nil]) rfl

theorem accept {α : Type} (position : Position) (reading : Except GrammarFault α)
    {use : α → Passage τ} (huse : ∀ value, Leads settings s [] (use value)) :
    Leads settings s [] (s.accept position reading use) := by
  cases reading with
  | ok value => exact huse value
  | error fault => exact nil.reject _

end Leads

variable (settings)

/-! ### Notes and chords -/

/-- A note is placed if it can be read. -/
theorem leads_addNote (s : Passage τ) (w : WrittenNote) (inChord : Bool) :
    Leads settings s (([w].filter (WrittenNote.isAccepted settings)).map (·, inChord))
        (s.addNote settings w.isNote w.items w.position inChord).1 ∧
      (s.addNote settings w.isNote w.items w.position inChord).2.isSome =
        w.isAccepted settings := by
  unfold addNote
  split
  · next reading hread =>
    have haccepted := WrittenNote.isAccepted_of_read hread
    refine ⟨?_, haccepted.symm⟩
    rw [List.filter_cons_of_pos haccepted]
    exact Leads.nil.note hread inChord
  · next fault hfault =>
    have hdropped := WrittenNote.isAccepted_of_error hfault
    refine ⟨?_, hdropped.symm⟩
    rw [List.filter_cons_of_neg (by simp [hdropped])]
    exact Leads.nil.reject _

theorem leads_addSingle (s : Passage τ) (w : WrittenNote) :
    Leads settings s (WrittenNote.together ([w].filter (WrittenNote.isAccepted settings)))
      (s.addSingle settings w.isNote w.items w.position) := by
  have htogether : WrittenNote.together ([w].filter (WrittenNote.isAccepted settings)) =
      ([w].filter (WrittenNote.isAccepted settings)).map (·, false) := by
    cases h : w.isAccepted settings <;> simp [WrittenNote.together, h]
  have hnote := (leads_addNote settings s w false).1
  unfold addSingle
  rw [htogether]
  generalize s.addNote settings w.isNote w.items w.position false = result at hnote
  obtain ⟨s', duration⟩ := result
  cases duration with
  | none => exact hnote
  | some d => exact hnote.part _

/-- Some notes of a chord have been placed. The duration of the first one is known, if there is
one. -/
def LeadsInChord (start : Passage τ) (ws : List WrittenNote) (state : Passage τ × Option τ) :
    Prop :=
  Leads settings start (WrittenNote.together ws) state.1 ∧ state.2.isSome = !ws.isEmpty

variable {settings} in
theorem LeadsInChord.addChordNote {ws : List WrittenNote} {state : Passage τ × Option τ}
    (h : LeadsInChord settings start ws state) (child : Node) :
    LeadsInChord settings start
      (ws ++ child.chordNotes.filter (WrittenNote.isAccepted settings))
      (addChordNote settings state child) := by
  obtain ⟨s, first⟩ := state
  obtain ⟨hleads, hfirst⟩ := h
  unfold Passage.addChordNote
  dsimp only at hleads hfirst ⊢
  split
  · next items position =>
    let w : WrittenNote := ⟨true, items, position⟩
    obtain ⟨hnote, hsome⟩ := leads_addNote settings s w first.isSome
    change LeadsInChord settings start _
      ((s.addNote settings w.isNote w.items w.position first.isSome).1,
        first <|> (s.addNote settings w.isNote w.items w.position first.isSome).2)
    generalize s.addNote settings w.isNote w.items w.position first.isSome = result at hnote hsome ⊢
    obtain ⟨s', duration⟩ := result
    have hboth := hleads.trans hnote
    have hknown : (first <|> duration).isSome = (!ws.isEmpty || w.isAccepted settings) := by
      rw [← hfirst, ← hsome]
      cases first <;> rfl
    rw [Node.chordNotes]
    cases haccepted : w.isAccepted settings with
    | true =>
        rw [List.filter_cons_of_pos haccepted, List.filter_nil, hfirst] at hboth
        rw [List.filter_cons_of_pos haccepted, List.filter_nil]
        refine ⟨?_, hknown.trans (by cases ws <;> simp [haccepted])⟩
        rw [WrittenNote.together_concat]
        exact hboth
    | false =>
        rw [List.filter_cons_of_neg (by simp [haccepted]), List.filter_nil, List.map_nil,
          List.append_nil] at hboth
        rw [List.filter_cons_of_neg (by simp [w, haccepted]), List.filter_nil, List.append_nil]
        exact ⟨hboth, by rw [hknown, haccepted, Bool.or_false]⟩
  · next hother =>
    have hnone : child.chordNotes = [] := by
      unfold Node.chordNotes
      split
      · exact absurd rfl (hother _ _)
      · rfl
    rw [hnone, List.filter_nil, List.append_nil]
    exact ⟨hleads.reject _, hfirst⟩

theorem leadsInChord_foldl (s : Passage τ) (children : List Node) :
    LeadsInChord settings s
      ((children.flatMap Node.chordNotes).filter (WrittenNote.isAccepted settings))
      (children.foldl (addChordNote settings) (s, none)) := by
  induction children using List.reverseRecOn with
  | nil => exact ⟨.nil, rfl⟩
  | append_singleton children child ih =>
      rw [List.foldl_concat, List.flatMap_append, List.filter_append, List.flatMap_singleton]
      exact ih.addChordNote child

theorem leads_addChord (s : Passage τ) (children : List Node) (position : Position) :
    Leads settings s
      (WrittenNote.together
        ((children.flatMap Node.chordNotes).filter (WrittenNote.isAccepted settings)))
      (s.addChord settings children position) := by
  obtain ⟨hleads, -⟩ := leadsInChord_foldl settings s children
  unfold addChord
  generalize children.foldl (addChordNote settings) (s, none) = state at hleads
  obtain ⟨s', first⟩ := state
  cases first with
  | none => exact hleads.reject _
  | some d => exact hleads.part _

/-! ### All elements -/

theorem leads_read (s : Passage τ) (child : Node) :
    Leads settings s (child.placed settings) (read settings s child) := by
  cases child with
  | atom kind text position => exact Leads.nil.reject _
  | element name children position =>
      cases name with
      | note => exact leads_addSingle settings s ⟨true, children, position⟩
      | rest => exact leads_addSingle settings s ⟨false, children, position⟩
      | chord => exact leads_addChord settings s children position
      | clef | key | time | volta => exact .accept _ _ fun _ => Leads.nil.part _
      | goBack | goForward =>
          refine .accept _ _ fun move => ?_
          cases move <;> exact Leads.nil.part _
      | barline =>
          unfold read
          dsimp only
          split
          · exact Leads.nil.part _
          · exact Leads.nil.reject _
      | _ => exact Leads.nil.reject _

theorem leads_foldl_read (s : Passage τ) (elements : List Node) :
    Leads settings s (elements.flatMap (Node.placed settings))
      (elements.foldl (read settings) s) := by
  induction elements generalizing s with
  | nil => exact .nil
  | cons child rest ih => exact (leads_read settings s child).trans (ih (read settings s child))

/-! ### Objects of notes -/

variable {settings}

/-- A note that is placed has an object where the cursor stands. -/
theorem bears_addNote (s : Passage τ) {w : WrittenNote} (h : w.isAccepted settings = true)
    (inChord : Bool) : (s.addNote settings w.isNote w.items w.position inChord).1.part.Bears
      s.part.cursor.measure := by
  unfold addNote
  split
  · next reading hread =>
    exact ⟨_, List.mem_append_right _ (List.mem_singleton_self _), rfl⟩
  · next fault hfault => exact absurd h (by simp [WrittenNote.isAccepted_of_error hfault])

theorem bears_addSingle (s : Passage τ) {w : WrittenNote} (h : w.isAccepted settings = true) :
    (s.addSingle settings w.isNote w.items w.position).part.Bears s.part.cursor.measure := by
  have hnote := s.bears_addNote h false
  unfold addSingle
  generalize s.addNote settings w.isNote w.items w.position false = result at hnote
  obtain ⟨s', duration⟩ := result
  cases duration with
  | none => exact hnote
  | some d => exact hnote

theorem bears_addChord (s : Passage τ) {children : List Node} (position : Position)
    (h : ∃ w ∈ children.flatMap Node.chordNotes, w.isAccepted settings = true) :
    (s.addChord settings children position).part.Bears s.part.cursor.measure := by
  obtain ⟨w, hw, haccepted⟩ := h
  obtain ⟨child, hchild, hw⟩ := List.mem_flatMap.mp hw
  unfold Node.chordNotes at hw
  split at hw
  · next items place =>
    obtain rfl := List.mem_singleton.mp hw
    obtain ⟨before, after, rfl⟩ := List.append_of_mem hchild
    have hall : AllowsNotes fun _ : StaffObject τ => True := fun _ _ _ => trivial
    obtain ⟨hbefore, hlength⟩ := foldl_addChordNote_steps hall settings before (s, none) nofun
    have hfold : ((before ++ .element .note items place :: after).foldl (addChordNote settings)
        (s, none)).1.part.Bears s.part.cursor.measure := by
      rw [List.foldl_append, List.foldl_cons]
      generalize before.foldl (addChordNote settings) (s, none) = state at hbefore hlength ⊢
      obtain ⟨s', first⟩ := state
      obtain ⟨-, hlength'⟩ :=
        addChordNote_steps hall settings s' hlength (.element .note items place)
      refine (foldl_addChordNote_steps hall settings after _ hlength').1.bears ?_
      exact hbefore.sameMeasure ▸ s'.bears_addNote haccepted first.isSome
    unfold addChord
    generalize (before ++ .element .note items place :: after).foldl (addChordNote settings)
      (s, none) = state at hfold
    obtain ⟨s', first⟩ := state
    cases first with
    | none => exact hfold
    | some d => exact hfold
  · cases hw

/-- An element that places a note has an object in the measure. -/
theorem bears_read (s : Passage τ) {child : Node} (h : child.placed settings ≠ []) :
    (read settings s child).part.Bears s.part.cursor.measure := by
  have hnotes : ∃ w ∈ child.musicNotes, w.isAccepted settings = true := by
    by_contra hnone
    refine h ?_
    rw [Node.placed, List.filter_eq_nil_iff.mpr fun w hw haccepted => hnone ⟨w, hw, haccepted⟩]
    rfl
  cases child with
  | atom kind text position => simp [Node.musicNotes] at hnotes
  | element name children position =>
      cases name with
      | note => exact s.bears_addSingle (by simpa [Node.musicNotes] using hnotes)
      | rest => exact s.bears_addSingle (by simpa [Node.musicNotes] using hnotes)
      | chord => exact s.bears_addChord position hnotes
      | _ => simp [Node.musicNotes] at hnotes

end Passage

/-! ## Links -/

/-- From one state of the links to another some blocks are read. Each begins without anything that
could be inherited. -/
inductive Linking.Leads (start : Linking τ) : List (List (WrittenNote × Bool)) → Linking τ → Prop
    where
  | nil : Leads start [] start
  | silent {blocks : List (List (WrittenNote × Bool))} {l : Linking τ} (h : Leads start blocks l)
      (found : List Diagnostic) : Leads start blocks (l.report found)
  | block {blocks : List (List (WrittenNote × Bool))} {s s' : Passage τ}
      (h : Leads start blocks s.linking) (hinherited : s.inherited = {})
      {placed : List (WrittenNote × Bool)} (hplaced : s.Leads settings placed s') :
      Leads start (blocks ++ [placed]) s'.linking

namespace Linking.Leads

variable {settings} {start l l' : Linking τ} {blocks blocks' : List (List (WrittenNote × Bool))}

theorem trans (h : Leads settings start blocks l) (h' : Leads settings l blocks' l') :
    Leads settings start (blocks ++ blocks') l' := by
  induction h' with
  | nil => rwa [List.append_nil]
  | silent _ found ih => exact ih.silent found
  | block _ hinherited hplaced ih =>
      rw [← List.append_assoc]
      exact ih.block hinherited hplaced

theorem reject (l : Linking τ) (rejections : List Rejection) :
    Leads settings l [] (l.reject rejections) := nil.silent _

theorem foldl {σ : Type} (linking : σ → Linking τ) {step : σ → Node → σ}
    {written : Node → List (List (WrittenNote × Bool))}
    (hstep : ∀ s node, Leads settings (linking s) (written node) (linking (step s node)))
    (nodes : List Node) (s : σ) :
    Leads settings (linking s) (nodes.flatMap written) (linking (nodes.foldl step s)) := by
  induction nodes generalizing s with
  | nil => exact .nil
  | cons node rest ih => exact (hstep s node).trans (ih (step s node))

end Linking.Leads

theorem InstrumentState.leads_read (s : InstrumentState τ) (child : Node) :
    s.linking.Leads settings (child.instrumentBlocks settings)
      (read settings s child).linking := by
  cases child with
  | atom kind text position => exact .reject _ _
  | element name children position =>
      cases name with
      | music =>
          have hplaced := Passage.leads_foldl_read settings
            { linking := s.linking, part := s.part } children
          exact Linking.Leads.nil.block rfl hplaced
      | instrumentName | midi | staves =>
          unfold read
          dsimp only
          split
          · exact .nil
          · exact .reject _ _
      | _ => exact .reject _ _

theorem ScoreState.leads_read (s : ScoreState τ) (child : Node) :
    s.linking.Leads settings (child.scoreBlocks settings) (read settings s child).linking := by
  cases child with
  | atom kind text position => exact .reject _ _
  | element name children position =>
      cases name with
      | instrument =>
          exact Linking.Leads.foldl InstrumentState.linking (InstrumentState.leads_read settings)
            children (.start settings s.linking)
      | version | option | title =>
          unfold read
          dsimp only
          split
          · exact .nil
          · exact .reject _ _
      | _ => exact .reject _ _

/-- The links of a score come from its blocks, and from nothing else. -/
theorem ScoreState.leads_children (score : Node) :
    Linking.Leads settings {} (score.blocks settings)
      (score.children.foldl (read settings) ({} : ScoreState τ)).linking :=
  Linking.Leads.foldl ScoreState.linking (leads_read settings) score.children {}

end ScorePlayback
