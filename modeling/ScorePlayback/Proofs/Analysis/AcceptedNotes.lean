import Mathlib.Data.List.Nodup
import ScorePlayback.Proofs.Analysis.DocumentScores
import ScorePlayback.Proofs.Analysis.NoteNumbers
import ScorePlayback.Proofs.Analysis.WrittenNotes
import ScorePlayback.Time.Exact

/-! # Notes are what can be read

The notes of a score are the notes and rests of its music that have no error of their own, in the
order of the text. All others have one error each. The timelines have the notes in this order, too,
each with its duration, voice, staff and position. -/

namespace ScorePlayback

section

variable {τ : Type} [TimeValue τ]

/-! ## Documents -/

/-- Where a part of a document and all nodes inside it stand. -/
def DocumentPart.positions : DocumentPart → List Position
  | .version children position => position :: Node.positionsOf children
  | .item node | .misplaced node => node.positions

theorem DocumentPart.positions_ofChild (child : Node) :
    ((ofChild child).flatMap positions).Sublist child.positions := by
  unfold ofChild
  split
  · rw [List.flatMap_map, Node.positions, Node.positionsOf_eq]
    exact List.sublist_cons_self _ _
  · simp [positions, Node.positions]
  · simp [positions]

theorem Node.positions_parts (tree : Node) :
    (tree.parts.flatMap DocumentPart.positions).Sublist tree.positions := by
  unfold parts
  split
  · next children position =>
    refine List.Sublist.cons _ ?_
    rw [documentParts, List.flatMap_assoc]
    induction children with
    | nil => exact .slnil
    | cons child children ih =>
        rw [List.flatMap_cons, positionsOf]
        exact (DocumentPart.positions_ofChild child).append ih
  · simp [DocumentPart.positions]

theorem errorsAt_fault_le {fault : GrammarFault} {q : Position} {ps : List Position} (hq : q ∈ ps)
    (p : Position) : errorsAt p [fault.diagnostic q] ≤ ps.count p := by
  refine (errorsAt_rejections p [⟨fault, q⟩]).trans_le ?_
  exact (List.singleton_sublist.mpr hq).count_le p

/-- The problems of a score are those of its element. -/
theorem DocumentPart.diagnostics_of_score? (settings : Settings) (scored : Bool)
    {part : DocumentPart} {node : Node} (h : part.score? = some node) :
    part.diagnostics τ settings scored =
      (analyseScore settings node.children : ScoreAnalysis τ).diagnostics := by
  obtain ⟨rfl, children, position, rfl⟩ := eq_item_of_score? h
  rfl

/-- The notes of the score that a part is. -/
def DocumentPart.notes (τ : Type) [TimeValue τ] (settings : Settings) (part : DocumentPart) :
    List (NoteRest τ) :=
  match part.score? with
  | some node => (analyseScore settings node.children).score.notes
  | none => []

theorem DocumentPart.errorsAt_other_le (settings : Settings) (scored : Bool) {part : DocumentPart}
    (h : part.score? = none) (p : Position) :
    errorsAt p (part.diagnostics τ settings scored) ≤ part.positions.count p := by
  have hnone : errorsAt p [] ≤ part.positions.count p := Nat.zero_le _
  cases part with
  | version children position =>
      simp only [diagnostics]
      split
      · exact hnone
      · exact errorsAt_fault_le List.mem_cons_self p
  | misplaced node => exact errorsAt_fault_le node.position_mem_positions p
  | item node =>
      simp only [diagnostics]
      split
      · next hkind => simp [score?, hkind] at h
      · exact hnone
      · repeat' split
        · exact errorsAt_fault_le node.position_mem_positions p
        · exact hnone
        · exact errorsAt_fault_le node.position_mem_positions p
      · exact errorsAt_fault_le node.position_mem_positions p

/-- The errors of a part are within it, and not at its notes. -/
theorem DocumentPart.errorsAt_le (settings : Settings) (scored : Bool) (part : DocumentPart)
    (p : Position) : errorsAt p (part.diagnostics τ settings scored) +
      (part.notes τ settings).countP (·.position = p) ≤ part.positions.count p := by
  unfold notes
  split
  · next node hscore =>
    obtain ⟨accepted, haccepts⟩ := exists_accepts_analyseScore (τ := τ) settings node
    rw [diagnostics_of_score? settings scored hscore]
    refine (haccepts.errors p).trans (List.Sublist.count_le p ?_)
    obtain ⟨rfl, children, position, rfl⟩ := eq_item_of_score? hscore
    exact List.sublist_cons_self _ _
  · next hscore => exact errorsAt_other_le settings scored hscore p

/-- The errors of a document are within its parts, and not at their notes. -/
theorem errorsAt_documentDiagnostics_le (settings : Settings) (scored : Bool)
    (parts : List DocumentPart) (p : Position) :
    errorsAt p (documentDiagnostics τ settings scored parts) +
      (parts.flatMap (DocumentPart.notes τ settings)).countP (·.position = p) ≤
        (parts.flatMap DocumentPart.positions).count p := by
  induction parts generalizing scored with
  | nil => exact Nat.le_refl _
  | cons part parts ih =>
      have hpart := part.errorsAt_le (τ := τ) settings scored p
      have hrest := ih (scored || part.score?.isSome)
      simp only [documentDiagnostics, List.flatMap_cons, errorsAt_append, List.countP_append,
        List.count_append]
      omega

/-- The errors of a score are among those of its document. -/
theorem errorsAt_score_le (settings : Settings) (scored : Bool) {parts : List DocumentPart}
    {node : Node} (h : node ∈ parts.filterMap DocumentPart.score?) (p : Position) :
    errorsAt p (analyseScore settings node.children : ScoreAnalysis τ).diagnostics ≤
      errorsAt p (documentDiagnostics τ settings scored parts) := by
  obtain ⟨part, hpart, hscore⟩ := List.mem_filterMap.mp h
  induction parts generalizing scored with
  | nil => cases hpart
  | cons part' parts ih =>
      rw [documentDiagnostics, errorsAt_append]
      rcases List.mem_cons.mp hpart with rfl | hpart
      · rw [DocumentPart.diagnostics_of_score? settings scored hscore]
        exact Nat.le_add_right _ _
      · exact (ih _ (List.mem_filterMap.mpr ⟨part, hpart, hscore⟩) hpart).trans
          (Nat.le_add_left _ _)

/-- At a position there is one error or one note at most. -/
theorem errorsAt_parts_le_one (settings : Settings) {tree : Node} (h : tree.positions.Nodup)
    (p : Position) : errorsAt p (documentDiagnostics τ settings false tree.parts) +
      (tree.parts.flatMap (DocumentPart.notes τ settings)).countP (·.position = p) ≤ 1 :=
  ((errorsAt_documentDiagnostics_le settings false tree.parts p).trans
    (tree.positions_parts.count_le p)).trans (List.nodup_iff_count_le_one.mp h p)

theorem errorsAt_eq_zero_of_mem {settings : Settings} {tree : Node} (h : tree.positions.Nodup)
    {node : Node} (hnode : node ∈ tree.scoreElements) {n : NoteRest τ}
    (hn : n ∈ (analyseScore settings node.children : ScoreAnalysis τ).score.notes) :
    errorsAt n.position (documentDiagnostics τ settings false tree.parts) = 0 := by
  obtain ⟨part, hpart, hscore⟩ := List.mem_filterMap.mp hnode
  have hmem : n ∈ tree.parts.flatMap (DocumentPart.notes τ settings) := by
    refine List.mem_flatMap.mpr ⟨part, hpart, ?_⟩
    rwa [DocumentPart.notes, hscore]
  have hpos : 0 < (tree.parts.flatMap (DocumentPart.notes τ settings)).countP
      (·.position = n.position) := List.countP_pos_iff.mpr ⟨n, hmem, by simp⟩
  have hle := errorsAt_parts_le_one (τ := τ) settings h n.position
  omega

end

/-! ## Timelines -/

section

variable {τ : Type} [TimeValue τ]

/-- Where and when a note is. -/
def NoteRest.placing (n : NoteRest τ) : τ × Nat × Nat × Position :=
  (n.duration, n.voice, n.staff, n.position)

def StaffObject.placing (object : StaffObject τ) : τ × Nat × Nat × Position :=
  (object.duration, object.voice, object.staff, object.position)

omit [TimeValue τ] in
theorem NoteRest.keeps_placing : Keeps (placing : NoteRest τ → _) := ⟨fun _ => rfl, fun _ _ => rfl⟩

/-- A note on a timeline is where the note with its number is. -/
theorem isScoreLaw_placing (settings : Settings) :
    IsScoreLaw settings fun timelines (l : Linking τ) timeline =>
      ∀ object ∈ timelines.flatten ++ timeline, ∀ number, object.symbol = .noteRest number →
        (l.notes.map NoteRest.placing)[number]? = some object.placing where
  initial := nofun
  report _ h := h
  object := fun {_ _ _ object} hsymbol h => by
    rw [← List.append_assoc]
    refine List.forall_mem_append.mpr ⟨h, List.forall_mem_singleton.mpr ?_⟩
    exact fun number hnumber => absurd hnumber (hsymbol number)
  note := fun {_ s reading} position inChord hreading h => by
    rw [s.map_placeNote NoteRest.keeps_placing settings hreading, ← List.append_assoc]
    refine List.forall_mem_append.mpr ⟨fun object hobject number hnumber => ?_,
      List.forall_mem_singleton.mpr ?_⟩
    · have hplace := h object hobject number hnumber
      exact (List.getElem?_append_left (List.getElem?_eq_some_iff.mp hplace).1).trans hplace
    · rintro number ⟨⟩
      rw [List.getElem?_append_right (by simp)]
      simp [NoteRest.placing, StaffObject.placing, Passage.objectOf]
  complete h := by
    rwa [List.flatten_append, List.flatten_singleton, List.append_nil]

/-! ## Notes and timelines -/

/-- A score has the notes and rests that are written without an error of their own, in the order of
the text, and the others have one error each. Its timelines have all notes, each with its number. -/
structure Score.IsRead (settings : Settings) (found : List Diagnostic) (score : Score τ)
    (written : List WrittenNote) : Prop where
  numbers : score.noteNumbers = List.range score.notes.length
  objects : ∀ i ∈ score.instruments, ∀ object ∈ i.timeline, ∀ number,
    object.symbol = .noteRest number → ∃ n, score.notes[number]? = some n ∧
      object.duration = n.duration ∧ object.voice = n.voice ∧ object.staff = n.staff ∧
        object.position = n.position
  notes : List.Forall₂ (NoteRest.IsOf settings) score.notes
    (written.filter fun w => errorsAt w.position found = 0)
  rejected : ∀ w ∈ written, errorsAt w.position found ≠ 0 → errorsAt w.position found = 1

theorem exists_note_of_analyse {settings : Settings} {tree : Node} {analysis : Analysis τ}
    (h : analyse settings tree = .ok analysis) {score : Score τ}
    (hs : score ∈ analysis.document.scores) {i : Instrument τ} (hi : i ∈ score.instruments)
    {object : StaffObject τ} (hobject : object ∈ i.timeline) {number : Nat}
    (hnumber : object.symbol = .noteRest number) : ∃ n, score.notes[number]? = some n ∧
      object.duration = n.duration ∧ object.voice = n.voice ∧ object.staff = n.staff ∧
        object.position = n.position := by
  obtain ⟨l, hl, hnotes, -⟩ := (isScoreLaw_placing settings).exists_linking_of_analyse h hs
  have hmem : object ∈ (score.instruments.map Instrument.timeline).flatten ++ [] := by
    rw [List.append_nil]
    exact List.mem_flatten.mpr ⟨_, List.mem_map_of_mem hi, hobject⟩
  have hplace := hl object hmem number hnumber
  rw [← hnotes, List.getElem?_map] at hplace
  obtain ⟨n, hn, hplacing⟩ := Option.map_eq_some_iff.mp hplace
  simp only [NoteRest.placing, StaffObject.placing, Prod.mk.injEq] at hplacing
  obtain ⟨hduration, hvoice, hstaff, hposition⟩ := hplacing
  exact ⟨n, hn, hduration.symm, hvoice.symm, hstaff.symm, hposition.symm⟩

omit [TimeValue τ] in
/-- A part of a list without repetitions is what a test keeps that holds of it alone. -/
theorem eq_filter_of_sublist {α : Type} {xs ys : List α} (h : xs.Sublist ys) (hys : ys.Nodup)
    {test : α → Bool} (htest : ∀ a ∈ ys, a ∈ xs ↔ test a = true) : xs = ys.filter test := by
  induction h with
  | slnil => rfl
  | @cons xs ys a hsub ih =>
      obtain ⟨hnot, hnodup⟩ := List.nodup_cons.mp hys
      have hfalse : ¬test a = true :=
        fun htrue => hnot (hsub.subset ((htest a List.mem_cons_self).mpr htrue))
      rw [List.filter_cons_of_neg hfalse]
      exact ih hnodup fun b hb => htest b (List.mem_cons_of_mem _ hb)
  | @cons_cons xs ys a hsub ih =>
      obtain ⟨hnot, hnodup⟩ := List.nodup_cons.mp hys
      rw [List.filter_cons_of_pos ((htest a List.mem_cons_self).mp List.mem_cons_self)]
      refine congrArg (a :: ·) (ih hnodup fun b hb => ?_)
      have hne : b ≠ a := fun heq => hnot (heq ▸ hb)
      rw [← htest b (List.mem_cons_of_mem _ hb), List.mem_cons, or_iff_right hne]

omit [TimeValue τ] in
theorem nodup_positions_of_mem_scoreElements {tree node : Node} (h : tree.positions.Nodup)
    (hnode : node ∈ tree.scoreElements) : node.positions.Nodup := by
  obtain ⟨part, hpart, hscore⟩ := List.mem_filterMap.mp hnode
  have hnodup := (List.nodup_flatMap.mp (h.sublist tree.positions_parts)).1 part hpart
  obtain ⟨rfl, -⟩ := DocumentPart.eq_item_of_score? hscore
  exact hnodup

omit [TimeValue τ] in
theorem nodup_positions_writtenNotes {node : Node} (h : node.positions.Nodup) :
    (node.writtenNotes.map WrittenNote.position).Nodup := by
  cases node with
  | atom kind text position => exact List.nodup_nil
  | element name children position =>
      exact h.of_cons.sublist (WrittenNote.positions_flatMap WrittenNote.positions_ofScore children)

/-- The notes of a score are those that are written where the document has no errors. -/
theorem forall₂_notes_of_mem_scoreElements (settings : Settings) {tree node : Node}
    (h : tree.positions.Nodup) (hnode : node ∈ tree.scoreElements) :
    List.Forall₂ (NoteRest.IsOf settings)
      (analyseScore settings node.children : ScoreAnalysis τ).score.notes
      (node.writtenNotes.filter fun w =>
        errorsAt w.position (documentDiagnostics τ settings false tree.parts) = 0) := by
  obtain ⟨accepted, haccepts⟩ := exists_accepts_analyseScore (τ := τ) settings node
  have hnodup := (nodup_positions_writtenNotes
    (nodup_positions_of_mem_scoreElements h hnode)).of_map
  rw [← eq_filter_of_sublist haccepts.sublist hnodup fun w hw => ?_]
  · exact haccepts.notes
  · rw [decide_eq_true_eq]
    constructor
    · intro haccepted
      have hpos : 0 < accepted.countP (·.position = w.position) :=
        List.countP_pos_iff.mpr ⟨w, haccepted, by simp⟩
      rw [← countP_position haccepts.notes] at hpos
      obtain ⟨n, hn, hposition⟩ := List.countP_pos_iff.mp hpos
      exact of_decide_eq_true hposition ▸ errorsAt_eq_zero_of_mem h hnode hn
    · intro hzero
      refine (haccepts.rejected w hw).resolve_right fun herror => herror ?_
      exact Nat.le_zero.mp (hzero ▸ errorsAt_score_le settings false hnode w.position)

theorem isRead_of_analyse {settings : Settings} {tree : Node} (hpositions : tree.positions.Nodup)
    {analysis : Analysis τ} (h : analyse settings tree = .ok analysis) :
    List.Forall₂ (Score.IsRead settings analysis.diagnostics) analysis.document.scores
      (tree.scoreElements.map Node.writtenNotes) := by
  obtain ⟨hscores, hdiagnostics⟩ := analyse_parts h
  refine List.forall₂_map_right_iff.mpr (forall₂_scores_of_analyse h fun titled htitled => ?_)
  have hnode : titled.1 ∈ tree.scoreElements := by
    rw [Node.scoreElements, ← map_fst_titledScores]
    exact List.mem_map_of_mem htitled
  have hs : ((analyseScore settings titled.1.children).score.retitle titled.2 : Score τ) ∈
      analysis.document.scores := hscores ▸ List.mem_map_of_mem htitled
  rw [hdiagnostics]
  refine ⟨noteNumbers_of_analyse h hs, fun i hi object hobject number hnumber => ?_, ?_, ?_⟩
  · exact exists_note_of_analyse h hs hi hobject hnumber
  · exact forall₂_notes_of_mem_scoreElements settings hpositions hnode
  · intro w _ herror
    have hle := errorsAt_parts_le_one (τ := τ) settings hpositions w.position
    omega

/-- Timelines, notes and the written notes of a text agree. Each node of its tree has its own
position, so an error is at a written note only if it is about the note. -/
theorem isRead_of_compile {settings : Settings} {source : String} {analysis : Analysis τ}
    (h : compile settings source = .ok analysis) :
    ∃ tree, parse source = .ok tree ∧ tree.positions.Nodup ∧
      List.Forall₂ (Score.IsRead settings analysis.diagnostics) analysis.document.scores
        (tree.scoreElements.map Node.writtenNotes) := by
  obtain ⟨tree, htree, hanalyse⟩ := analyse_of_compile h
  have hpositions := nodup_positions_of_parse htree
  exact ⟨tree, htree, hpositions, isRead_of_analyse hpositions hanalyse⟩

end

/-- What is wrong in a chord has an error each; the other notes are placed. -/
theorem isRead_faultyChord :
    let source := "(score (instrument (musicData (n c4 q) (chord (n e4 q) (n x q) (r q)) (r h))))"
    ∃ analysis : Analysis Rat, compile {} source = .ok analysis ∧
      (analysis.document.scores.map fun score => score.notes.map NoteRest.position) =
        [[⟨1, 31⟩, ⟨1, 47⟩, ⟨1, 71⟩]] ∧
      errorsAt ⟨1, 56⟩ analysis.diagnostics = 1 ∧ errorsAt ⟨1, 64⟩ analysis.diagnostics = 1 ∧
      ∃ tree, parse source = .ok tree ∧ tree.positions.Nodup ∧
        List.Forall₂ (Score.IsRead {} analysis.diagnostics) analysis.document.scores
          (tree.scoreElements.map Node.writtenNotes) := by
  intro source
  have hall : ((compile {} source : Except CompileError (Analysis Rat)).toOption.map fun analysis =>
      (analysis.document.scores.map fun score => score.notes.map NoteRest.position,
        errorsAt ⟨1, 56⟩ analysis.diagnostics, errorsAt ⟨1, 64⟩ analysis.diagnostics)) =
      some ([[⟨1, 31⟩, ⟨1, 47⟩, ⟨1, 71⟩]], 1, 1) := by decide +kernel
  cases h : (compile {} source : Except CompileError (Analysis Rat)) with
  | error e => simp [h, Except.toOption] at hall
  | ok analysis =>
      simp only [h, Except.toOption, Option.map_some, Option.some.injEq, Prod.mk.injEq] at hall
      obtain ⟨hnotes, hfirst, hsecond⟩ := hall
      exact ⟨analysis, rfl, hnotes, hfirst, hsecond, isRead_of_compile h⟩

end ScorePlayback
