import ScorePlayback.Proofs.Analysis.LinkSteps
import ScorePlayback.Proofs.Analysis.Subtrees
import ScorePlayback.Proofs.Analysis.Timelines
import ScorePlayback.Proofs.Numeral

/-! # Laws of links and timelines

While a score is read, its notes go to the links of the score and to the timeline of an instrument,
one after the other. A law that relates the timelines so far and the links is a law of analysed
scores, if every note that is placed keeps it, and everything else that is placed, too. -/

namespace ScorePlayback

/-! ## What is written on a note -/

namespace Marker

variable {item : Node} {m : Marker}

theorem isWritten_of_readTie (h : readTie item = .ok m) : m.IsWritten := by
  unfold readTie at h
  split at h
  · split at h
    · obtain rfl := Except.ok.inj h
      exact nofun
    · obtain rfl := Except.ok.inj h
      exact nofun
    · obtain rfl := Except.ok.inj h
      exact nofun
    · simp at h
  · simp at h

theorem isWritten_of_readSlur (h : readSlur item = .ok m) : m.IsWritten := by
  unfold readSlur at h
  repeat' split at h
  all_goals first
    | exact Except.ok.inj h ▸ trivial
    | simp at h

theorem isWritten_of_readBeam (h : readBeam item = .ok m) : m.IsWritten := by
  unfold readBeam at h
  simp only [bind, Except.bind] at h
  repeat' split at h
  all_goals first
    | exact Except.ok.inj h ▸ trivial
    | simp at h

theorem isWritten_of_readTuplet {display : TupletDisplay} (h : readTuplet display item = .ok m) :
    m.IsWritten := by
  unfold readTuplet at h
  simp only [bind, Except.bind] at h
  split at h
  · simp at h
  · split at h
    · exact Except.ok.inj h ▸ trivial
    · split at h
      · next hactual hnormal =>
        split at h
        · simp at h
        · exact Except.ok.inj h ▸ ⟨Node.le_of_count? hactual, Node.le_of_count? hnormal⟩
      · simp at h
    · simp at h

end Marker

theorem NoteOption.isWritten_of_read {settings : Settings} {isNote : Bool}
    {display : TupletDisplay} {item : Node} {m : Marker}
    (h : read settings isNote display item = .ok (.marker m)) : m.IsWritten := by
  have hmap {reading : Except GrammarFault Marker}
      (h : reading.map NoteOption.marker = .ok (.marker m)) : reading = .ok m := by
    cases reading with
    | error fault => simp [Except.map] at h
    | ok m' => simpa [Except.map] using h
  unfold read at h
  split at h
  · unfold readLabel at h
    repeat' split at h
    all_goals simp at h
  · simp at h
  · dsimp only at h
    split at h
    · split at h
      · exact Marker.isWritten_of_readTie (hmap h)
      · simp at h
    · exact Marker.isWritten_of_readSlur (hmap h)
    · exact Marker.isWritten_of_readBeam (hmap h)
    · exact Marker.isWritten_of_readTuplet (hmap h)
    · simp at h

namespace NoteReading

/-- The markers of a note are as they can be written. -/
def IsWritten (r : NoteReading) : Prop := ∀ m ∈ r.spec.markers, m.IsWritten

theorem IsWritten.readOption {settings : Settings} {isNote : Bool} {r : NoteReading}
    (h : r.IsWritten) (item : Node) : (r.readOption settings isNote item).IsWritten := by
  unfold NoteReading.readOption
  split
  · next option hoption =>
    cases option with
    | marker m =>
        refine List.forall_mem_append.mpr ⟨h, List.forall_mem_singleton.mpr ?_⟩
        exact NoteOption.isWritten_of_read hoption
    | _ => exact h
  · exact h

theorem isWritten_of_readRest {settings : Settings} {display : TupletDisplay}
    {pitch : Option Pitch} {items : List Node} {r : NoteReading}
    (h : readRest settings display pitch items = .ok r) : r.IsWritten := by
  unfold readRest at h
  split at h
  · simp at h
  · next item options =>
    split at h
    · rw [← Except.ok.inj h]
      exact List.foldlRecOn (motive := IsWritten) options _ (by simp [IsWritten])
        fun _ hr item _ => hr.readOption item
    · simp at h

theorem isWritten_of_read {settings : Settings} {display : TupletDisplay} {isNote : Bool}
    {items : List Node} {r : NoteReading} (h : read settings display isNote items = .ok r) :
    r.IsWritten := by
  unfold read at h
  split at h
  · split at h
    · simp at h
    · split at h
      · exact isWritten_of_readRest h
      · simp at h
  · exact isWritten_of_readRest h

end NoteReading

/-! ## What is placed -/

variable {τ : Type} [TimeValue τ]

namespace Passage

/-- A note is added to the links and then linked to others. -/
theorem steps_placeNote (settings : Settings) (s : Passage τ) {reading : NoteReading}
    (h : reading.IsWritten) (position : Position) (inChord : Bool) :
    Linking.Steps s.linking.notes.length
      (s.linking.addNote (s.realize reading.spec position inChord))
      (s.placeNote settings reading position inChord).linking := by
  have hreject : Linking.Step s.linking.notes.length
      (s.linking.addNote (s.realize reading.spec position inChord))
      ((s.linking.reject reading.rejections).addNote (s.realize reading.spec position inChord)) :=
    .goOn ((Linking.GoesOn.refl _).report _)
  have hclose (l : Linking τ) (c : Bool) : Linking.Steps s.linking.notes.length l
      (if c then l.closeLegacyTie s.linking.notes.length s.part.cursor.time else l) := by
    split
    · exact .single (Linking.step_closeLegacyTie _ l)
    · exact .refl
  have hstart (l : Linking τ) (c : Bool) (voice : Nat) : Linking.Steps s.linking.notes.length l
      (if c then l.startLegacyTie ⟨s.linking.notes.length, s.part.cursor.time, voice, position⟩
        else l) := by
    split
    · exact .single (Linking.step_startLegacyTie l ⟨_, _, voice, position⟩)
    · exact .refl
  unfold placeNote
  dsimp only
  refine Relation.ReflTransGen.trans ?_ (Linking.steps_applyMarkers settings position inChord _ h)
  refine Relation.ReflTransGen.tail ?_
    (Linking.step_applyLegacyBeam settings position inChord _ _)
  refine Relation.ReflTransGen.trans ?_ (hstart _ _ _)
  exact (Relation.ReflTransGen.single hreject).trans (hclose _ _)

theorem timeline_placeNote (settings : Settings) (s : Passage τ) (reading : NoteReading)
    (position : Position) (inChord : Bool) :
    (s.placeNote settings reading position inChord).part.timeline =
      s.part.timeline ++
        [s.objectOf s.linking.notes.length (s.realize reading.spec position inChord)] :=
  congrArg (· ++ [_]) (s.part.remember_eq reading.spec.pitch).1

theorem cursor_placeNote (settings : Settings) (s : Passage τ) (reading : NoteReading)
    (position : Position) (inChord : Bool) :
    (s.placeNote settings reading position inChord).part.cursor = s.part.cursor :=
  (s.part.remember_eq reading.spec.pitch).2

/-- Relations and beams apart, the notes so far stay as they are. -/
theorem map_placeNote {α : Type} {f : NoteRest τ → α} (hf : NoteRest.Keeps f)
    (settings : Settings) (s : Passage τ) {reading : NoteReading} (h : reading.IsWritten)
    (position : Position) (inChord : Bool) :
    (s.placeNote settings reading position inChord).linking.notes.map f =
      s.linking.notes.map f ++ [f (s.realize reading.spec position inChord)] := by
  rw [(s.steps_placeNote settings h position inChord).map_notes hf, Linking.addNote,
    List.map_append, List.map_singleton]

end Passage

/-! ## Laws -/

/-- A law of the timelines that are complete, the links, and the timeline that is being read, which
is kept by whatever is read, if all notes and rests are admitted. -/
structure IsReadingLawOf (settings : Settings) (admitted : NoteReading → Prop)
    (law : List (List (StaffObject τ)) → Linking τ → List (StaffObject τ) → Prop) : Prop where
  report {timelines : List (List (StaffObject τ))} {l : Linking τ} {timeline : List (StaffObject τ)}
    (found : List Diagnostic) : law timelines l timeline → law timelines (l.report found) timeline
  object {timelines : List (List (StaffObject τ))} {l : Linking τ} {timeline : List (StaffObject τ)}
    {object : StaffObject τ} : (∀ number, object.symbol ≠ .noteRest number) →
      law timelines l timeline → law timelines l (timeline ++ [object])
  note {timelines : List (List (StaffObject τ))} {s : Passage τ} {reading : NoteReading}
    (position : Position) (inChord : Bool) : admitted reading →
      law timelines s.linking s.part.timeline →
        law timelines (s.placeNote settings reading position inChord).linking
          (s.part.timeline ++
            [s.objectOf s.linking.notes.length (s.realize reading.spec position inChord)])
  complete {timelines : List (List (StaffObject τ))} {l : Linking τ}
    {timeline : List (StaffObject τ)} :
      law timelines l timeline → law (timelines ++ [timeline]) l []

/-- Such a law that is kept by all notes and rests that can be read. -/
structure IsReadingLaw (settings : Settings)
    (law : List (List (StaffObject τ)) → Linking τ → List (StaffObject τ) → Prop) : Prop
    extends IsReadingLawOf settings NoteReading.IsWritten law

/-- Such a law that holds before there is anything holds of what is analysed. -/
structure IsScoreLaw (settings : Settings)
    (law : List (List (StaffObject τ)) → Linking τ → List (StaffObject τ) → Prop) : Prop
    extends IsReadingLaw settings law where
  initial : law [] {} []

/-- A law of the instruments and links of a score that is being read. -/
def IsReadingLaw.Obeyed
    (law : List (List (StaffObject τ)) → Linking τ → List (StaffObject τ) → Prop)
    (s : ScoreState τ) : Prop :=
  law (s.header.instruments.map Instrument.timeline) s.linking []

namespace IsReadingLawOf

open IsReadingLaw (Obeyed)

variable {settings : Settings} {admitted : NoteReading → Prop}
  {law : List (List (StaffObject τ)) → Linking τ → List (StaffObject τ) → Prop}
  {timelines : List (List (StaffObject τ))} {s : Passage τ}

/-! ### Elements of music -/

theorem addNote (hlaw : IsReadingLawOf settings admitted law)
    (h : law timelines s.linking s.part.timeline) (isNote : Bool) {items : List Node}
    {position : Position}
    (ha : (Node.element (NoteOption.elementOf isNote) items position).Admits settings admitted)
    (inChord : Bool) :
    law timelines (s.addNote settings isNote items position inChord).1.linking
      (s.addNote settings isNote items position inChord).1.part.timeline := by
  unfold Passage.addNote
  split
  · next reading hreading =>
    rw [s.timeline_placeNote]
    exact hlaw.note position inChord (ha _ _ _ .here _ _ hreading) h
  · exact hlaw.report _ h

theorem addSingle (hlaw : IsReadingLawOf settings admitted law)
    (h : law timelines s.linking s.part.timeline) (isNote : Bool) {items : List Node}
    {position : Position}
    (ha : (Node.element (NoteOption.elementOf isNote) items position).Admits settings admitted) :
    law timelines (s.addSingle settings isNote items position).linking
      (s.addSingle settings isNote items position).part.timeline := by
  have hnote := hlaw.addNote h isNote ha false
  unfold Passage.addSingle
  generalize s.addNote settings isNote items position false = result at hnote
  obtain ⟨s', duration⟩ := result
  cases duration with
  | none => exact hnote
  | some d => exact hnote

theorem addChordNote (hlaw : IsReadingLawOf settings admitted law)
    (h : law timelines s.linking s.part.timeline) (first : Option τ) {child : Node}
    (ha : child.Admits settings admitted) :
    law timelines (Passage.addChordNote settings (s, first) child).1.linking
      (Passage.addChordNote settings (s, first) child).1.part.timeline := by
  unfold Passage.addChordNote
  dsimp only
  split
  · exact hlaw.addNote h true ha first.isSome
  · exact hlaw.report _ h

theorem addChord (hlaw : IsReadingLawOf settings admitted law)
    (h : law timelines s.linking s.part.timeline) {children : List Node}
    (ha : ∀ child ∈ children, child.Admits settings admitted) (position : Position) :
    law timelines (s.addChord settings children position).linking
      (s.addChord settings children position).part.timeline := by
  have hfold := List.foldlRecOn (motive := fun state : Passage τ × Option τ =>
    law timelines state.1.linking state.1.part.timeline) children
      (Passage.addChordNote settings) (b := (s, none)) h
      fun state hs child hmem => hlaw.addChordNote hs state.2 (ha child hmem)
  unfold Passage.addChord
  generalize children.foldl (Passage.addChordNote settings) (s, none) = result at hfold
  obtain ⟨s', first⟩ := result
  cases first with
  | none => exact hlaw.report _ hfold
  | some d => exact hfold

theorem accept {α : Type} (hlaw : IsReadingLawOf settings admitted law)
    (h : law timelines s.linking s.part.timeline) (position : Position)
    (reading : Except GrammarFault α) (use : α → Passage τ)
    (huse : ∀ value, law timelines (use value).linking (use value).part.timeline) :
    law timelines (s.accept position reading use).linking
      (s.accept position reading use).part.timeline := by
  cases reading with
  | ok value => exact huse value
  | error fault => exact hlaw.report _ h

theorem read (hlaw : IsReadingLawOf settings admitted law)
    (h : law timelines s.linking s.part.timeline) {child : Node}
    (ha : child.Admits settings admitted) : law timelines (Passage.read settings s child).linking
      (Passage.read settings s child).part.timeline := by
  unfold Passage.read
  split
  · exact hlaw.addSingle h true ha
  · exact hlaw.addSingle h false ha
  · exact hlaw.addChord h ha.child _
  · exact hlaw.accept h _ _ _ fun clef => hlaw.object nofun h
  · exact hlaw.accept h _ _ _ fun key => hlaw.object nofun h
  · exact hlaw.accept h _ _ _ fun meter => hlaw.object nofun h
  · split
    · exact hlaw.object nofun h
    · exact hlaw.report _ h
  · exact hlaw.accept h _ _ _ fun bracket => hlaw.object nofun h
  · refine hlaw.accept h _ _ _ fun move => ?_
    cases move <;> exact h
  · refine hlaw.accept h _ _ _ fun move => ?_
    cases move <;> exact h
  · exact hlaw.report _ h

/-! ### From instruments to documents -/

theorem readInstrument (hlaw : IsReadingLawOf settings admitted law) {i : InstrumentState τ}
    (h : law timelines i.linking i.part.timeline) {child : Node}
    (ha : child.Admits settings admitted) :
    law timelines (InstrumentState.read settings i child).linking
      (InstrumentState.read settings i child).part.timeline := by
  unfold InstrumentState.read
  split
  · split
    · exact h
    · exact hlaw.report _ h
  · split
    · exact h
    · exact hlaw.report _ h
  · split
    · exact h
    · exact hlaw.report _ h
  · next children _ =>
    exact List.foldlRecOn (motive := fun s : Passage τ =>
      law timelines s.linking s.part.timeline) children _ h
        fun s hs child hmem => hlaw.read hs (ha.child child hmem)
  · exact hlaw.report _ h

theorem foldl_readInstrument (hlaw : IsReadingLawOf settings admitted law) {i : InstrumentState τ}
    (h : law timelines i.linking i.part.timeline) {children : List Node}
    (ha : ∀ child ∈ children, child.Admits settings admitted) :
    law timelines (children.foldl (InstrumentState.read settings) i).linking
      (children.foldl (InstrumentState.read settings) i).part.timeline :=
  List.foldlRecOn (motive := fun i : InstrumentState τ =>
    law timelines i.linking i.part.timeline) children _ h fun _ hi child hmem =>
      hlaw.readInstrument hi (ha child hmem)

theorem addInstrument (hlaw : IsReadingLawOf settings admitted law) {s : ScoreState τ}
    (h : Obeyed law s) {children : List Node}
    (ha : ∀ child ∈ children, child.Admits settings admitted) :
    Obeyed law (s.addInstrument settings children) := by
  have hinstrument := hlaw.foldl_readInstrument (i := .start settings s.linking) h ha
  unfold Obeyed ScoreState.addInstrument
  dsimp only
  rw [List.map_append]
  exact hlaw.complete hinstrument

theorem readScore (hlaw : IsReadingLawOf settings admitted law) {s : ScoreState τ}
    (h : Obeyed law s) {child : Node} (ha : child.Admits settings admitted) :
    Obeyed law (ScoreState.read settings s child) := by
  unfold ScoreState.read
  split
  · split
    · exact h
    · exact hlaw.report _ h
  · split
    · exact h
    · exact hlaw.report _ h
  · split
    · exact h
    · exact hlaw.report _ h
  · exact hlaw.addInstrument h ha.child
  · exact hlaw.report _ h

theorem foldl_readScore (hlaw : IsReadingLawOf settings admitted law) {s : ScoreState τ}
    (h : Obeyed law s) {children : List Node}
    (ha : ∀ child ∈ children, child.Admits settings admitted) :
    Obeyed law (children.foldl (ScoreState.read settings) s) :=
  List.foldlRecOn (motive := Obeyed law) children _ h
    fun _ hs child hmem => hlaw.readScore hs (ha child hmem)

end IsReadingLawOf

/-! ### All notes and rests -/

omit [TimeValue τ] in
theorem Node.admits_isWritten (settings : Settings) (tree : Node) :
    tree.Admits settings NoteReading.IsWritten :=
  fun _ _ _ _ _ _ h => NoteReading.isWritten_of_read h

namespace IsReadingLaw

variable {settings : Settings}
  {law : List (List (StaffObject τ)) → Linking τ → List (StaffObject τ) → Prop}
  {timelines : List (List (StaffObject τ))} {s : Passage τ}

theorem addChordNote (hlaw : IsReadingLaw settings law)
    (h : law timelines s.linking s.part.timeline) (first : Option τ) (child : Node) :
    law timelines (Passage.addChordNote settings (s, first) child).1.linking
      (Passage.addChordNote settings (s, first) child).1.part.timeline :=
  hlaw.toIsReadingLawOf.addChordNote h first (child.admits_isWritten settings)

theorem read (hlaw : IsReadingLaw settings law) (h : law timelines s.linking s.part.timeline)
    (child : Node) : law timelines (Passage.read settings s child).linking
      (Passage.read settings s child).part.timeline :=
  hlaw.toIsReadingLawOf.read h (child.admits_isWritten settings)

theorem foldl_readInstrument (hlaw : IsReadingLaw settings law) {i : InstrumentState τ}
    (h : law timelines i.linking i.part.timeline) (children : List Node) :
    law timelines (children.foldl (InstrumentState.read settings) i).linking
      (children.foldl (InstrumentState.read settings) i).part.timeline :=
  hlaw.toIsReadingLawOf.foldl_readInstrument h fun child _ => child.admits_isWritten settings

theorem foldl_readScore (hlaw : IsReadingLaw settings law) {s : ScoreState τ} (h : Obeyed law s)
    (children : List Node) : Obeyed law (children.foldl (ScoreState.read settings) s) :=
  hlaw.toIsReadingLawOf.foldl_readScore h fun child _ => child.admits_isWritten settings

end IsReadingLaw

/-- The timelines of an analysed score obey each law, with the links that have made its notes and
relations. -/
theorem IsScoreLaw.exists_linking_of_analyse {settings : Settings}
    {law : List (List (StaffObject τ)) → Linking τ → List (StaffObject τ) → Prop}
    (hlaw : IsScoreLaw settings law) {tree : Node} {analysis : Analysis τ}
    (h : analyse settings tree = .ok analysis) {score : Score τ}
    (hs : score ∈ analysis.document.scores) :
    ∃ l : Linking τ, law (score.instruments.map Instrument.timeline) l [] ∧
      score.notes = l.notes ∧ score.relations = l.relations := by
  obtain ⟨children, title, rfl⟩ := exists_analyseScore_of_analyse h hs
  have hinitial : IsReadingLaw.Obeyed law ({} : ScoreState τ) := hlaw.initial
  exact ⟨_, hlaw.foldl_readScore hinitial children, rfl, rfl⟩

end ScorePlayback
