import ScorePlayback.Proofs.Analysis.AcceptedNotes
import ScorePlayback.Proofs.Analysis.BeamWriters
import ScorePlayback.Proofs.Analysis.Unbeamed

/-! # Automatic beams

Whether note values decide beams makes a difference to the beams of notes and to nothing else, and
only where no written segments decide them. -/

namespace ScorePlayback

open HasBeams (unbeamed)

/-! ## One score -/

section

variable {τ : Type}

/-- The beams of a score are those of the notes that are placed. -/
structure Score.HasBeamsOf (settings : Settings) (score : Score τ)
    (placed : List (WrittenNote × Bool)) : Prop where
  notes : List.Forall₂ (NoteRest.IsOf settings) score.notes (placed.map Prod.fst)
  inChord : score.notes.map NoteRest.inChord = placed.map Prod.snd
  related : ∀ members, (BeamCalls.ofPlaced settings placed).Leaves (isPitched placed) members →
    ⟨.beam, members, .beam⟩ ∈ score.relations
  beam : ∀ note, ∀ n ∈ score.notes[note]?,
    n.beam = beamAfter ((BeamCalls.ofPlaced settings placed).writes (isPitched placed)) note [] ∨
    settings.autoBeam = true ∧ n.pitch.isSome = true ∧ ∃ members,
      (BeamCalls.ofPlaced settings placed).Leaves (isPitched placed) members ∧ note ∈ members

theorem exists_hasBeamsOf_analyseScore [TimeValue τ] (settings : Settings) (node : Node) :
    ∃ placed : List (WrittenNote × Bool), (placed.map Prod.fst).Sublist node.writtenNotes ∧
      (analyseScore settings node.children : ScoreAnalysis τ).score.HasBeamsOf settings placed := by
  obtain ⟨log, hlog, hcovers⟩ := ScoreState.reads_children (τ := τ) settings node.children
  have hbeams := hlog.hasBeamsOf (List.prefix_refl _)
  have hplaced := LogEntry.map_fst_placing log
  refine ⟨log.filterMap LogEntry.placing?, hplaced ▸ hcovers.placed, ?_⟩
  exact {
    notes := hplaced ▸ hlog.forall₂_notes
    inChord := hlog.map_inChord
    related := hbeams.segments.related
    beam := fun note n hn => by
      rw [hbeams.segments.isSome_pitch note n hn]
      exact hbeams.segments.beam note n hn }

/-- A part of a list is known by what tells its elements apart. -/
theorem eq_of_sublist_of_map_eq {α β : Type} {f : α → β} {xs ys zs : List α} (hxs : xs.Sublist zs)
    (hys : ys.Sublist zs) (hzs : (zs.map f).Nodup) (h : xs.map f = ys.map f) : xs = ys := by
  classical
  have hfilter {xs : List α} (hxs : xs.Sublist zs) : xs = zs.filter (f · ∈ xs.map f) := by
    refine eq_filter_of_sublist hxs hzs.of_map fun a ha => ?_
    rw [decide_eq_true_eq]
    refine ⟨List.mem_map_of_mem, fun hmem => ?_⟩
    obtain ⟨b, hb, hsame⟩ := List.mem_map.mp hmem
    exact List.inj_on_of_nodup_map hzs (hxs.subset hb) ha hsame ▸ hb
  rw [hfilter hxs, hfilter hys, h]

theorem positions_of_forall₂ {settings : Settings} {notes : List (NoteRest τ)}
    {ws : List WrittenNote} (h : List.Forall₂ (NoteRest.IsOf settings) notes ws) :
    notes.map NoteRest.position = ws.map WrittenNote.position := by
  induction h with
  | nil => rfl
  | cons hnote _ ih => rw [List.map_cons, List.map_cons, ih, hnote.position_eq]

/-- Two runs that agree up to beams place the same notes. -/
theorem placed_of_sameButBeams {settings settings' : Settings} {score score' : Score τ}
    (h : SameButBeams score score') {written : List WrittenNote}
    (hwritten : (written.map WrittenNote.position).Nodup)
    {placed placed' : List (WrittenNote × Bool)} (hsub : (placed.map Prod.fst).Sublist written)
    (hsub' : (placed'.map Prod.fst).Sublist written) (hbeams : score.HasBeamsOf settings placed)
    (hbeams' : score'.HasBeamsOf settings' placed') : placed = placed' := by
  have hnotes : score.notes.map NoteRest.unbeamed = score'.notes.map NoteRest.unbeamed :=
    congrArg Score.notes h
  have hpositions : score.notes.map NoteRest.position = score'.notes.map NoteRest.position := by
    simpa [Function.comp_def, NoteRest.unbeamed] using congrArg (List.map NoteRest.position) hnotes
  have hinChord : score.notes.map NoteRest.inChord = score'.notes.map NoteRest.inChord := by
    simpa [Function.comp_def, NoteRest.unbeamed] using congrArg (List.map NoteRest.inChord) hnotes
  rw [positions_of_forall₂ hbeams.notes, positions_of_forall₂ hbeams'.notes] at hpositions
  rw [hbeams.inChord, hbeams'.inChord] at hinChord
  have hfst := eq_of_sublist_of_map_eq hsub hsub' hwritten hpositions
  exact (List.zip_of_prod hfst hinChord).trans (List.zip_of_prod rfl rfl).symm

/-- The scores of two runs have the same sounds. Only notes with a pitch have other beams, if they
are part of a beam that leaves its segments to the note values. -/
structure Score.DifferInBeams [TimeValue τ] (settings : Settings) (scores : Score τ × Score τ)
    (element : Node) : Prop where
  table : SoundTable.ofScore scores.1 = SoundTable.ofScore scores.2
  beams : ∃ placed : List (WrittenNote × Bool),
    (placed.map Prod.fst).Sublist element.writtenNotes ∧
    List.Forall₂ (NoteRest.IsOf settings) scores.1.notes (placed.map Prod.fst) ∧
    scores.1.notes.map NoteRest.inChord = placed.map Prod.snd ∧
    ∀ note, ∀ n ∈ scores.1.notes[note]?, ∀ n' ∈ scores.2.notes[note]?, n.beam ≠ n'.beam →
      n.pitch.isSome = true ∧ ∃ members, note ∈ members ∧
        ⟨.beam, members, .beam⟩ ∈ scores.1.relations ∧
        (BeamCalls.ofPlaced settings placed).Leaves (isPitched placed) members

variable [TimeValue τ]

theorem differInBeams_of_sameButBeams {settings : Settings} {autoBeam : Bool}
    {score score' : Score τ} (h : SameButBeams score score') {element : Node}
    (helement : (element.writtenNotes.map WrittenNote.position).Nodup)
    {placed placed' : List (WrittenNote × Bool)}
    (hsub : (placed.map Prod.fst).Sublist element.writtenNotes)
    (hsub' : (placed'.map Prod.fst).Sublist element.writtenNotes)
    (hbeams : score.HasBeamsOf settings placed)
    (hbeams' : score'.HasBeamsOf { settings with autoBeam } placed') :
    Score.DifferInBeams settings (score, score') element := by
  obtain rfl := placed_of_sameButBeams h helement hsub hsub' hbeams hbeams'
  refine ⟨ofScore_of_sameButBeams h, placed, hsub, hbeams.notes, hbeams.inChord,
    fun note n hn n' hn' hne => ?_⟩
  have hpitch : n.pitch = n'.pitch := by
    have hnotes : score.notes.map NoteRest.unbeamed = score'.notes.map NoteRest.unbeamed :=
      congrArg Score.notes h
    have hsame := congrArg (·[note]?) hnotes
    simp only [List.getElem?_map, Option.mem_def.mp hn, Option.mem_def.mp hn', Option.map_some,
      Option.some.injEq] at hsame
    exact (NoteRest.mk.inj hsame).1
  have hcalls : BeamCalls.ofPlaced { settings with autoBeam } placed =
      BeamCalls.ofPlaced settings placed := rfl
  have hbeam' := hbeams'.beam note n' hn'
  rw [hcalls, ← hpitch] at hbeam'
  rcases hbeams.beam note n hn, hbeam' with ⟨heq | ⟨-, hpitched, members, hleaves, hmem⟩,
    heq' | ⟨-, hpitched', members', hleaves', hmem'⟩⟩
  · exact absurd (heq.trans heq'.symm) hne
  · exact ⟨hpitched', members', hmem', hbeams.related members' hleaves', hleaves'⟩
  · exact ⟨hpitched, members, hmem, hbeams.related members hleaves, hleaves⟩
  · exact ⟨hpitched, members, hmem, hbeams.related members hleaves, hleaves⟩

/-- The scores of two runs. -/
theorem differInBeams_scores {settings : Settings} {autoBeam : Bool} {tree : Node}
    (hpositions : tree.positions.Nodup) {analysis analysis' : Analysis τ}
    (h : analyse settings tree = .ok analysis)
    (h' : analyse { settings with autoBeam } tree = .ok analysis') :
    List.Forall₂ (Score.DifferInBeams settings)
      (analysis.document.scores.zip analysis'.document.scores) tree.scoreElements := by
  rw [(analyse_parts h).1, (analyse_parts h').1, List.zip_map', Node.scoreElements,
    ← map_fst_titledScores, List.forall₂_map_left_iff, List.forall₂_map_right_iff,
    List.forall₂_same]
  intro titled htitled
  have hnode : titled.1 ∈ tree.scoreElements := by
    rw [Node.scoreElements, ← map_fst_titledScores]
    exact List.mem_map_of_mem htitled
  obtain ⟨placed, hsub, hbeams⟩ := exists_hasBeamsOf_analyseScore (τ := τ) settings titled.1
  obtain ⟨placed', hsub', hbeams'⟩ :=
    exists_hasBeamsOf_analyseScore (τ := τ) { settings with autoBeam } titled.1
  have hscore : SameButBeams (analyseScore settings titled.1.children : ScoreAnalysis τ).score
      (analyseScore { settings with autoBeam } titled.1.children : ScoreAnalysis τ).score :=
    (ScoreAnalysis.mk.inj (sameButBeams_analyseScore settings autoBeam titled.1.children)).1
  have hwritten : (titled.1.writtenNotes.map WrittenNote.position).Nodup :=
    nodup_positions_writtenNotes (nodup_positions_of_mem_scoreElements hpositions hnode)
  have hretitled : SameButBeams
      ((analyseScore settings titled.1.children : ScoreAnalysis τ).score.retitle titled.2)
      ((analyseScore { settings with autoBeam } titled.1.children).score.retitle titled.2) :=
    congrArg (Score.retitle titled.2) hscore
  exact differInBeams_of_sameButBeams hretitled hwritten hsub hsub' { hbeams with } { hbeams' with }

end

/-! ## Whole texts -/

section

variable {τ : Type} [TimeValue τ]

/-- Two outcomes for a text are the same error, or they are the same up to the beams of some
notes. -/
inductive AgreeButBeams (settings : Settings) (source : String) :
    Except CompileError (Analysis τ) → Except CompileError (Analysis τ) → Prop where
  | error (e : CompileError) : AgreeButBeams settings source (.error e) (.error e)
  | ok {analysis analysis' : Analysis τ} {tree : Node} (htree : parse source = .ok tree)
      (hdiagnostics : analysis.diagnostics = analysis'.diagnostics)
      (hdocument : unbeamed analysis.document = unbeamed analysis'.document)
      (hscores : List.Forall₂ (Score.DifferInBeams settings)
        (analysis.document.scores.zip analysis'.document.scores) tree.scoreElements) :
      AgreeButBeams settings source (.ok analysis) (.ok analysis')

/-- Whether note values decide beams is seen in the beams of notes only. -/
theorem agreeButBeams_compile (settings : Settings) (autoBeam : Bool) (source : String) :
    AgreeButBeams settings source (compile settings source : Except CompileError (Analysis τ))
      (compile { settings with autoBeam } source) := by
  unfold compile
  cases htree : parse source with
  | error e => exact .error _
  | ok tree =>
      have hsame := sameButBeams_analyse (τ := τ) settings autoBeam tree
      dsimp only
      cases hanalyse : (analyse settings tree : Except CompileError (Analysis τ)) with
      | error e =>
          cases hanalyse' : (analyse { settings with autoBeam } tree : Except _ (Analysis τ)) with
          | error e' =>
              rw [hanalyse, hanalyse'] at hsame
              obtain rfl : e = e' := Except.error.inj hsame
              exact .error e
          | ok analysis' => simp [hanalyse, hanalyse', Except.map] at hsame
      | ok analysis =>
          cases hanalyse' : (analyse { settings with autoBeam } tree : Except _ (Analysis τ)) with
          | error e' => simp [hanalyse, hanalyse', Except.map] at hsame
          | ok analysis' =>
              rw [hanalyse, hanalyse'] at hsame
              obtain ⟨hdocument, hdiagnostics⟩ := Analysis.mk.inj (Except.ok.inj hsame)
              exact .ok htree hdiagnostics hdocument (differInBeams_scores
                (nodup_positions_of_parse htree) hanalyse hanalyse')

end

/-- A legacy beam, which note values decide or nothing does. -/
example :
    let beams (settings : Settings) :=
      (compile settings "(score (instrument (musicData (n c4 e g+) (n d4 e g-))))" :
        Except CompileError (Analysis Rat)).toOption.map fun analysis =>
          analysis.document.scores.flatMap fun score => score.notes.map NoteRest.beam
    beams { autoBeam := true } = some [[.begins], [.ends]] ∧
      beams { autoBeam := false } = some [[], []] := by
  decide +kernel

end ScorePlayback
