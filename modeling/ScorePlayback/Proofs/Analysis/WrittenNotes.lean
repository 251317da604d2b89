import ScorePlayback.Proofs.Analysis.GrammarErrors
import ScorePlayback.Proofs.Analysis.ReadingLog
import ScorePlayback.Proofs.Analysis.ScoreLaws

/-! # Notes and how they are written

The notes of a score are written notes and rests that can be read. Errors of grammar are at what has
been rejected, not at what has been placed. -/

namespace ScorePlayback

/-! ## What is read of a note -/

namespace NoteReading

variable {settings : Settings} {display : TupletDisplay} {isNote : Bool} {items : List Node}
  {reading : NoteReading}

theorem exists_label_of_bind {α : Type} {f : String → Option α} {node : Node} {value : α}
    (h : node.label?.bind f = some value) : ∃ text, node.label? = some text := by
  obtain ⟨text, htext, -⟩ := Option.bind_eq_some_iff.mp h
  exact ⟨text, htext⟩

theorem exists_options_of_readRest {pitch : Option Pitch}
    (h : readRest settings display pitch items = .ok reading) :
    ∃ first options duration, items = first :: options ∧ (∃ text, first.label? = some text) ∧
      reading = options.foldl (readOption settings pitch.isSome)
        ⟨{ pitch, duration }, display, []⟩ := by
  unfold readRest at h
  split at h
  · cases h
  · next first options =>
    split at h
    · next duration hduration =>
      exact ⟨first, options, duration, rfl, exists_label_of_bind hduration,
        (Except.ok.inj h).symm⟩
    · cases h

/-- Behind its pitch and its duration a note has options, which are read one after the other. -/
theorem exists_options_of_read (h : read settings display isNote items = .ok reading) :
    ∃ front options pitch duration, items = front ++ options ∧
      (∀ node ∈ front, ∃ text, node.label? = some text) ∧ pitch.isSome = isNote ∧
      reading = options.foldl (readOption settings isNote) ⟨{ pitch, duration }, display, []⟩ := by
  unfold read at h
  split at h
  · next hnote =>
    subst hnote
    split at h
    · cases h
    · next first rest =>
      split at h
      · next pitch hpitch =>
        obtain ⟨second, options, duration, rfl, hsecond, rfl⟩ := exists_options_of_readRest h
        refine ⟨[first, second], options, some pitch, duration, rfl, ?_, rfl, rfl⟩
        exact List.forall_mem_cons.mpr
          ⟨exists_label_of_bind hpitch, List.forall_mem_singleton.mpr hsecond⟩
      · cases h
  · next hrest =>
    obtain rfl := Bool.eq_false_iff.mpr hrest
    obtain ⟨first, options, duration, rfl, hfirst, rfl⟩ := exists_options_of_readRest h
    exact ⟨[first], options, none, duration, rfl, List.forall_mem_singleton.mpr hfirst, rfl, rfl⟩

theorem pitch_readOption (r : NoteReading) (item : Node) :
    (r.readOption settings isNote item).spec.pitch = r.spec.pitch := by
  unfold readOption
  split
  · next option _ => cases option <;> rfl
  · rfl

theorem isSome_pitch_of_read (h : read settings display isNote items = .ok reading) :
    reading.spec.pitch.isSome = isNote := by
  obtain ⟨front, options, pitch, duration, -, -, hpitch, rfl⟩ := exists_options_of_read h
  refine List.foldlRecOn (motive := fun r : NoteReading => r.spec.pitch.isSome = isNote)
    options _ hpitch fun r hr item _ => ?_
  rw [pitch_readOption, hr]

/-- The options that are rejected are among those that are written. -/
theorem rejections_foldl_readOption (options : List Node) (r : NoteReading) :
    ((options.foldl (readOption settings isNote) r).rejections.map Rejection.position).Sublist
      (r.rejections.map Rejection.position ++ options.map Node.position) := by
  induction options generalizing r with
  | nil => simp
  | cons item options ih =>
      refine (ih _).trans ?_
      rw [List.map_cons, List.append_cons]
      refine List.Sublist.append_right ?_ _
      unfold readOption
      split
      · exact List.sublist_append_left _ _
      · simp

theorem rejections_of_read (h : read settings display isNote items = .ok reading) :
    (reading.rejections.map Rejection.position).Sublist (items.map Node.position) := by
  obtain ⟨front, options, pitch, duration, rfl, -, -, rfl⟩ := exists_options_of_read h
  rw [List.map_append]
  exact (rejections_foldl_readOption options _).trans (List.sublist_append_right _ _)

end NoteReading

/-- A pitch without the alteration that the music around it gives. -/
def Pitch.spelling (p : Pitch) : Step × Int × Option Int := (p.step, p.octave, p.accidental)

namespace NoteRest

variable {τ : Type}

/-- What a note has of its own text. -/
def asWritten (n : NoteRest τ) :
    Position × WrittenDuration × Bool × Option (Step × Int × Option Int) :=
  (n.position, n.written, n.visible, n.pitch.map Pitch.spelling)

theorem keeps_asWritten : Keeps (asWritten : NoteRest τ → _) := ⟨fun _ => rfl, fun _ _ => rfl⟩

end NoteRest

/-- A written note can be read, with this text. -/
def WrittenNote.ReadsAs (settings : Settings) (w : WrittenNote)
    (text : Position × WrittenDuration × Bool × Option (Step × Int × Option Int)) : Prop :=
  ∃ display reading, NoteReading.read settings display w.isNote w.items = .ok reading ∧
    text = (w.position, reading.spec.duration, reading.spec.visible,
      reading.spec.pitch.map Pitch.spelling)

/-- A note with a pitch is of a written note, and one without is of a rest, which can be read. -/
structure NoteRest.IsOf {τ : Type} (settings : Settings) (n : NoteRest τ) (w : WrittenNote) :
    Prop where
  position_eq : n.position = w.position
  isSome_pitch : n.pitch.isSome = w.isNote
  reads : w.ReadsAs settings n.asWritten

theorem NoteRest.isOf_of_reads {τ : Type} {settings : Settings} {n : NoteRest τ} {w : WrittenNote}
    (h : w.ReadsAs settings n.asWritten) : n.IsOf settings w := by
  obtain ⟨display, reading, hread, htext⟩ := id h
  have hpitch : n.pitch.map Pitch.spelling = reading.spec.pitch.map Pitch.spelling :=
    congrArg (·.2.2.2) htext
  have hsome := congrArg Option.isSome hpitch
  rw [Option.isSome_map, Option.isSome_map, NoteReading.isSome_pitch_of_read hread] at hsome
  exact ⟨congrArg Prod.fst htext, hsome, h⟩

/-! ## What a log makes of the links -/

/-- How many errors of grammar are at a position. -/
def errorsAt (p : Position) (found : List Diagnostic) : Nat :=
  (grammarErrors found).countP (·.position = some p)

@[simp] theorem errorsAt_append (p : Position) (found more : List Diagnostic) :
    errorsAt p (found ++ more) = errorsAt p found + errorsAt p more := by
  simp [errorsAt]

theorem errorsAt_rejections (p : Position) (rejections : List Rejection) :
    errorsAt p (rejections.map Rejection.diagnostic) =
      (rejections.map Rejection.position).count p := by
  rw [errorsAt, grammarErrors_rejections, List.count, List.countP_map, List.countP_map]
  refine List.countP_congr fun r _ => ?_
  simp [Rejection.diagnostic, GrammarFault.diagnostic]

theorem errorsAt_congr {found more : List Diagnostic} (h : grammarErrors found = grammarErrors more)
    (p : Position) : errorsAt p found = errorsAt p more := by
  rw [errorsAt, errorsAt, h]

theorem Linking.errorsAt_reject {τ : Type} (l : Linking τ) (r : Rejection) (p : Position) :
    errorsAt p (l.reject [r]).diagnostics = errorsAt p l.diagnostics + [r.position].count p :=
  (errorsAt_append p _ _).trans (congrArg (_ + ·) (errorsAt_rejections p [r]))

theorem Passage.errorsAt_placeNote {τ : Type} [TimeValue τ] (settings : Settings) (s : Passage τ)
    (reading : NoteReading) (position : Position) (inChord : Bool) (p : Position) :
    errorsAt p (s.placeNote settings reading position inChord).linking.diagnostics =
      errorsAt p s.linking.diagnostics + (reading.rejections.map Rejection.position).count p := by
  rw [errorsAt, s.grammarErrors_placeNote, List.countP_append, ← grammarErrors_rejections,
    ← errorsAt, ← errorsAt, errorsAt_rejections]

namespace Linking.Logs

variable {τ : Type} [TimeValue τ] {settings : Settings} {start l : Linking τ} {log : List LogEntry}

/-- Notes are added as they are placed. -/
theorem forall₂_notes (h : Logs settings {} log l) :
    List.Forall₂ (NoteRest.IsOf settings) l.notes (log.filterMap LogEntry.placed?) := by
  have hreads : List.Forall₂ (fun text w => WrittenNote.ReadsAs settings w text)
      (l.notes.map NoteRest.asWritten) (log.filterMap LogEntry.placed?) := by
    induction h with
    | nil => exact .nil
    | rejected _ r ih =>
        rw [List.filterMap_append, List.filterMap_cons_none rfl, List.filterMap_nil,
          List.append_nil]
        exact ih
    | @placed log s _ w reading hread inChord ih =>
        rw [s.map_placeNote NoteRest.keeps_asWritten settings (NoteReading.isWritten_of_read hread),
          List.filterMap_append]
        refine List.rel_append ih (.cons ⟨_, reading, hread, ?_⟩ .nil)
        simp only [NoteRest.asWritten, Passage.realize, Option.map_map]
        rfl
  exact (List.forall₂_map_left_iff.mp hreads).imp fun _ _ => NoteRest.isOf_of_reads

/-- What is rejected is reported. -/
theorem le_errorsAt (h : Logs settings start log l) (p : Position) :
    (log.filterMap LogEntry.rejected?).count p ≤ errorsAt p l.diagnostics := by
  induction h with
  | nil => exact Nat.zero_le _
  | rejected _ r ih =>
      rw [List.filterMap_append, List.count_append, errorsAt_reject]
      exact Nat.add_le_add_right ih _
  | placed _ hread inChord ih =>
      rw [List.filterMap_append, List.count_append, Passage.errorsAt_placeNote]
      exact Nat.add_le_add ih (Nat.zero_le _)

/-- Errors of grammar are within what is read, and not at the notes that are placed. -/
theorem errorsAt_le (h : Logs settings start log l) (p : Position) :
    errorsAt p l.diagnostics + (log.filterMap LogEntry.placed?).countP (·.position = p) ≤
      errorsAt p start.diagnostics + (log.flatMap LogEntry.positions).count p := by
  induction h with
  | nil => simp
  | rejected _ r ih =>
      rw [List.filterMap_append, List.countP_append, List.flatMap_append, List.count_append,
        errorsAt_reject]
      simp only [List.filterMap_cons, List.filterMap_nil, LogEntry.placed?, List.countP_nil,
        List.flatMap_singleton, LogEntry.positions]
      omega
  | @placed _ _ _ w reading hread inChord ih =>
      have hcount := (NoteReading.rejections_of_read hread).count_le p
      rw [List.filterMap_append, List.countP_append, List.flatMap_append, List.count_append,
        Passage.errorsAt_placeNote]
      simp only [List.filterMap_cons, List.filterMap_nil, LogEntry.placed?, List.countP_singleton,
        List.flatMap_singleton, LogEntry.positions, List.count_cons, beq_iff_eq,
        decide_eq_true_eq]
      omega

end Linking.Logs

/-! ## Scores -/

/-- What has been made of written notes and rests: some are accepted as notes, and there is an error
at each of the others. No error is where nothing stands, or at a note. -/
structure ScoreAnalysis.Accepts {τ : Type} (settings : Settings) (s : ScoreAnalysis τ)
    (written accepted : List WrittenNote) (ps : List Position) : Prop where
  sublist : accepted.Sublist written
  notes : List.Forall₂ (NoteRest.IsOf settings) s.score.notes accepted
  rejected : ∀ w ∈ written, w ∈ accepted ∨ errorsAt w.position s.diagnostics ≠ 0
  errors : ∀ p, errorsAt p s.diagnostics + s.score.notes.countP (·.position = p) ≤ ps.count p

theorem countP_position {τ : Type} {settings : Settings} {notes : List (NoteRest τ)}
    {ws : List WrittenNote} (h : List.Forall₂ (NoteRest.IsOf settings) notes ws) (p : Position) :
    notes.countP (·.position = p) = ws.countP (·.position = p) := by
  induction h with
  | nil => rfl
  | cons hnote _ ih => rw [List.countP_cons, List.countP_cons, ih, hnote.position_eq]

section

variable {τ : Type} [TimeValue τ]

theorem exists_accepts_analyseScore (settings : Settings) (node : Node) :
    ∃ accepted, (analyseScore settings node.children : ScoreAnalysis τ).Accepts settings
      node.writtenNotes accepted (Node.positionsOf node.children) := by
  obtain ⟨log, hlog, hcovers⟩ := ScoreState.reads_children (τ := τ) settings node.children
  let state := node.children.foldl (ScoreState.read settings) ({} : ScoreState τ)
  have hfinish : state.linking.ReportsRelations state.linking.finish := .finish (.refl _)
  have herrors := errorsAt_congr hfinish.grammatical
  have hnotes := hlog.forall₂_notes
  refine ⟨log.filterMap LogEntry.placed?, hcovers.placed, hnotes, fun w hw => ?_, fun p => ?_⟩
  · refine (hcovers.rejected w hw).imp_right fun hrejected => ?_
    have hle := hlog.le_errorsAt w.position
    have hpos := List.count_pos_iff.mpr hrejected
    rw [← herrors] at hle
    exact Nat.ne_of_gt (Nat.lt_of_lt_of_le hpos hle)
  · have hle := hlog.errorsAt_le p
    rw [← herrors, ← countP_position hnotes] at hle
    refine hle.trans ?_
    rw [show errorsAt p ({} : Linking τ).diagnostics = 0 from rfl, Nat.zero_add]
    exact hcovers.positions.count_le p

end

end ScorePlayback
