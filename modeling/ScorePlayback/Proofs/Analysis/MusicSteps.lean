import ScorePlayback.Proofs.Analysis.Barlines
import ScorePlayback.Proofs.Analysis.NoteNumbers
import ScorePlayback.Proofs.Analysis.OpenTuplets
import ScorePlayback.Sound.Generate

/-! # What an element of music does in exact time

An element moves the cursor inside its measure, or places an object that takes no time, or a note or
chord and moves behind its first note, or closes the measure. The part of an instrument does not
know which notes are later notes of a chord; the links tell. -/

namespace ScorePlayback

/-! ## Later notes of chords -/

namespace Linking

variable {τ : Type} {l l' : Linking τ} {follows : Nat → Bool}

/-- The links tell which of their notes follow another note of their chord. -/
def Tells (l : Linking τ) (follows : Nat → Bool) : Prop :=
  ∀ number, ∀ inChord ∈ (l.notes.map NoteRest.inChord)[number]?, follows number = inChord

theorem exists_tells (l : Linking τ) : ∃ follows, l.Tells follows :=
  ⟨fun number => ((l.notes.map NoteRest.inChord)[number]?).getD false, fun _ _ h =>
    congrArg (Option.getD · false) h⟩

theorem Tells.of_concat {inChord : Bool} (h : l'.Tells follows)
    (hl : l'.notes.map NoteRest.inChord = l.notes.map NoteRest.inChord ++ [inChord]) :
    l.Tells follows ∧ follows l.notes.length = inChord := by
  have hflags : ∀ number, ∀ b ∈ (l.notes.map NoteRest.inChord ++ [inChord])[number]?,
      follows number = b := hl ▸ h
  refine ⟨fun number b hb => hflags number b ?_, hflags _ inChord ?_⟩
  · obtain ⟨hlt, -⟩ := List.getElem?_eq_some_iff.mp hb
    rwa [List.getElem?_append_left hlt]
  · have hlength : (l.notes.map NoteRest.inChord).length = l.notes.length := List.length_map _
    exact hlength ▸ List.getElem?_concat_length

end Linking

section

variable {τ : Type} [TimeValue τ]

theorem Passage.tells_placeNote {settings : Settings} {follows : Nat → Bool} {s : Passage τ}
    {reading : NoteReading} (hreading : reading.IsWritten) {position : Position} {inChord : Bool}
    (h : (s.placeNote settings reading position inChord).linking.Tells follows) :
    s.linking.Tells follows ∧ follows s.linking.notes.length = inChord :=
  h.of_concat (s.map_placeNote NoteRest.keeps_inChord settings hreading position inChord)

/-- What the links tell at the end they have told since the notes were read. -/
theorem isReadingLaw_tells (settings : Settings) (follows : Nat → Bool) (start : Linking τ) :
    IsReadingLaw settings fun _ (l : Linking τ) _ => l.Tells follows → start.Tells follows where
  report _ h := h
  object _ h := h
  note := fun _ _ hreading h htells => h (Passage.tells_placeNote hreading htells).1
  complete h := h

end

/-! ## Steps -/

/-- A later note of a chord, or a note or rest that is not, where the cursor stands. -/
structure StaffObject.Sounds (follows : Nat → Bool) (c : Cursor Rat) (inChord : Bool)
    (object : StaffObject Rat) : Prop where
  symbol : ∃ number, object.symbol = .noteRest number ∧ follows number = inChord
  time : object.time = c.time
  measure : object.measure = c.measure
  duration : 0 < object.duration

/-- A clef, a key, a time signature or a bracket, where the cursor stands. -/
structure StaffObject.Marks (c : Cursor Rat) (object : StaffObject Rat) : Prop where
  symbol : ∀ number, object.symbol ≠ .noteRest number
  notBarline : object.isBarline = false
  time : object.time = c.time
  measure : object.measure = c.measure
  duration : object.duration = 0
  voice : object.voice = 0

/-- The cursor stays, or moves inside its measure. -/
inductive CursorMove (c c' : Cursor Rat) : Prop where
  | stay (hc : c' = c)
  | back (time : Rat) (htime : time ≤ c.time ∨ time = c.measureStart) (hc : c' = c.backTo time)
  | forward (time : Rat) (htime : c.time ≤ time ∨ time = c.reached) (hc : c' = c.forwardTo time)

/-- A note is dropped, or it is placed where the cursor stands. The cursor stays. -/
inductive Part.PlacesNote (follows : Nat → Bool) (inChord : Bool) (p p' : Part Rat) :
    Option Rat → Prop where
  | dropped (ht : p'.timeline = p.timeline) (hc : p'.cursor = p.cursor) :
      PlacesNote follows inChord p p' none
  | placed (object : StaffObject Rat) (hobject : object.Sounds follows p.cursor inChord)
      (ht : p'.timeline = p.timeline ++ [object]) (hc : p'.cursor = p.cursor) :
      PlacesNote follows inChord p p' (some object.duration)

/-- A chord has no note yet, or a first one and later ones. The cursor stays. -/
inductive Part.PlacesChord (follows : Nat → Bool) (p p' : Part Rat) : Option Rat → Prop where
  | silent (ht : p'.timeline = p.timeline) (hc : p'.cursor = p.cursor) :
      PlacesChord follows p p' none
  | sounding (lead : StaffObject Rat) (others : List (StaffObject Rat))
      (hlead : lead.Sounds follows p.cursor false)
      (hothers : ∀ other ∈ others, other.Sounds follows p.cursor true)
      (ht : p'.timeline = p.timeline ++ lead :: others) (hc : p'.cursor = p.cursor) :
      PlacesChord follows p p' (some lead.duration)

/-- What an element of music does to a part. -/
inductive MusicStep (follows : Nat → Bool) (p p' : Part Rat) : Prop where
  | move (ht : p'.timeline = p.timeline) (hc : CursorMove p.cursor p'.cursor)
  | mark (object : StaffObject Rat) (hobject : object.Marks p.cursor)
      (ht : p'.timeline = p.timeline ++ [object]) (hc : p'.cursor = p.cursor)
  | sound (lead : StaffObject Rat) (others : List (StaffObject Rat))
      (hlead : lead.Sounds follows p.cursor false)
      (hothers : ∀ other ∈ others, other.Sounds follows p.cursor true)
      (ht : p'.timeline = p.timeline ++ lead :: others)
      (hc : p'.cursor = p.cursor.advance lead.duration)
  | close (shape : Barline) (times : Nat) (object : StaffObject Rat)
      (hclose : ClosesMeasure p p' shape times object) (hduration : object.duration = 0)

namespace Passage

variable {settings : Settings} {follows : Nat → Bool} {s : Passage Rat}

/-! ### Notes and chords -/

theorem sounds_objectOf (hproper : s.linking.openTuplets.IsProper) {reading : NoteReading}
    (hreading : reading.IsWritten) (position : Position) {inChord : Bool}
    (hfollows : follows s.linking.notes.length = inChord) :
    (s.objectOf s.linking.notes.length (s.realize reading.spec position inChord)).Sounds follows
      s.part.cursor inChord :=
  ⟨⟨_, rfl, hfollows⟩, rfl, rfl, zero_lt_realize hproper hreading position inChord⟩

theorem addNote_places (hproper : s.linking.openTuplets.IsProper) (isNote : Bool)
    (items : List Node) (position : Position) (inChord : Bool)
    (htells : (s.addNote settings isNote items position inChord).1.linking.Tells follows) :
    s.part.PlacesNote follows inChord (s.addNote settings isNote items position inChord).1.part
      (s.addNote settings isNote items position inChord).2 := by
  unfold addNote at htells ⊢
  split at htells
  · next reading hreading =>
    have hwritten := NoteReading.isWritten_of_read hreading
    refine .placed _ ?_ (s.timeline_placeNote _ _ _ _) (s.cursor_placeNote _ _ _ _)
    exact sounds_objectOf hproper hwritten position (tells_placeNote hwritten htells).2
  · exact .dropped rfl rfl

theorem addSingle_step (hproper : s.linking.openTuplets.IsProper) (isNote : Bool)
    (items : List Node) (position : Position)
    (htells : (s.addSingle settings isNote items position).linking.Tells follows) :
    MusicStep follows s.part (s.addSingle settings isNote items position).part := by
  have hplaces : (s.addNote settings isNote items position false).1.linking.Tells follows →
      s.part.PlacesNote follows false _ _ := addNote_places hproper isNote items position false
  unfold addSingle at htells ⊢
  generalize s.addNote settings isNote items position false = result at htells hplaces
  obtain ⟨s', duration⟩ := result
  cases duration with
  | none =>
      cases hplaces htells with
      | dropped ht hc => exact .move ht (.stay hc)
  | some d =>
      cases hplaces htells with
      | placed object hobject ht hc =>
          exact .sound object [] hobject nofun ht (congrArg (·.advance object.duration) hc)

theorem addChordNote_places {p : Part Rat} {first : Option Rat}
    (hproper : s.linking.openTuplets.IsProper) (hfirst : p.PlacesChord follows s.part first)
    (child : Node)
    (htells : (addChordNote settings (s, first) child).1.linking.Tells follows) :
    p.PlacesChord follows (addChordNote settings (s, first) child).1.part
      (addChordNote settings (s, first) child).2 := by
  unfold addChordNote at htells ⊢
  dsimp only at htells ⊢
  split at htells
  · next items position =>
    have hnote := addNote_places hproper true items position first.isSome htells
    dsimp only
    generalize s.addNote settings true items position first.isSome = result at hnote
    obtain ⟨s', duration⟩ := result
    cases hfirst with
    | silent ht hc =>
        cases hnote with
        | dropped ht' hc' => exact .silent (ht'.trans ht) (hc'.trans hc)
        | placed object hobject ht' hc' =>
            exact .sounding object [] (hc ▸ hobject) nofun (ht ▸ ht') (hc'.trans hc)
    | sounding lead others hlead hothers ht hc =>
        cases hnote with
        | dropped ht' hc' => exact .sounding lead others hlead hothers (ht'.trans ht) (hc'.trans hc)
        | placed object hobject ht' hc' =>
            refine .sounding lead (others ++ [object]) hlead ?_ ?_ (hc'.trans hc)
            · exact List.forall_mem_append.mpr
                ⟨hothers, List.forall_mem_singleton.mpr (hc ▸ hobject)⟩
            · rw [ht', ht, List.append_assoc, List.cons_append]
  · exact hfirst

theorem addChord_step (hproper : s.linking.openTuplets.IsProper) (children : List Node)
    (position : Position)
    (htells : (s.addChord settings children position).linking.Tells follows) :
    MusicStep follows s.part (s.addChord settings children position).part := by
  have hfold := List.foldlRecOn (motive := fun state : Passage Rat × Option Rat =>
    state.1.linking.openTuplets.IsProper ∧
      (state.1.linking.Tells follows → s.part.PlacesChord follows state.1.part state.2))
    children (addChordNote settings) (b := (s, none)) ⟨hproper, fun _ => .silent rfl rfl⟩ ?_
  · unfold addChord at htells ⊢
    generalize children.foldl (addChordNote settings) (s, none) = result at htells hfold
    obtain ⟨s', first⟩ := result
    cases first with
    | none =>
        cases hfold.2 htells with
        | silent ht hc => exact .move ht (.stay hc)
    | some d =>
        cases hfold.2 htells with
        | sounding lead others hlead hothers ht hc =>
            exact .sound lead others hlead hothers ht (congrArg (·.advance lead.duration) hc)
  · rintro ⟨s', first⟩ ⟨hproper', hplaces⟩ child -
    have htells := @IsReadingLaw.addChordNote _ _ _ _ [] s'
      (isReadingLaw_tells settings follows s'.linking) id first child
    have hproper := @IsReadingLaw.addChordNote _ _ _ _ [] s'
      (isScoreLaw_properTuplets settings).toIsReadingLaw hproper' first child
    exact ⟨hproper, fun h => addChordNote_places hproper' (hplaces (htells h)) child h⟩

/-! ### Elements of music -/

theorem accept_step {α : Type} (position : Position) (reading : Except GrammarFault α)
    (use : α → Passage Rat)
    (huse : ∀ value, reading = .ok value → MusicStep follows s.part (use value).part) :
    MusicStep follows s.part (s.accept position reading use).part := by
  cases reading with
  | ok value => exact huse value rfl
  | error fault => exact .move rfl (.stay rfl)

theorem mark_marks (s : Passage Rat) (symbol : StaffSymbol) (position : Position)
    (hnote : ∀ number, symbol ≠ .noteRest number)
    (hbarline : ∀ shape times, symbol ≠ .barline shape times) :
    (s.mark s.part.cursor.time symbol position).Marks s.part.cursor := by
  refine ⟨hnote, ?_, rfl, rfl, rfl, rfl⟩
  cases symbol with
  | barline shape times => exact absurd rfl (hbarline shape times)
  | _ => rfl

theorem read_step (hproper : s.linking.openTuplets.IsProper) (child : Node)
    (htells : (read settings s child).linking.Tells follows) :
    MusicStep follows s.part (read settings s child).part := by
  unfold read at htells ⊢
  split at htells
  · exact addSingle_step hproper true _ _ htells
  · exact addSingle_step hproper false _ _ htells
  · exact addChord_step hproper _ _ htells
  · exact accept_step _ _ _ fun clef _ =>
      .mark _ (s.mark_marks (.clef clef) _ nofun nofun) rfl rfl
  · exact accept_step _ _ _ fun key _ =>
      .mark _ (s.mark_marks (.key key) _ nofun nofun) rfl rfl
  · exact accept_step _ _ _ fun meter _ =>
      .mark _ (s.mark_marks (.meter meter) _ nofun nofun) rfl rfl
  · split
    · next b _ => exact .close _ _ _ (s.addBarline_closes b _) rfl
    · exact .move rfl (.stay rfl)
  · exact accept_step _ _ _ fun (ending, span) _ =>
      .mark _ (s.mark_marks (.volta ending span) _ nofun nofun) rfl rfl
  · refine accept_step _ _ _ fun move hmove => .move ?_ ?_
    · cases move <;> rfl
    · cases move with
      | toMark => exact .back _ (.inr rfl) rfl
      | «by» amount =>
          have hamount := (isLength_of_readMove hmove).nonneg
          exact .back _ (.inl (sub_le_self _ hamount)) rfl
  · refine accept_step _ _ _ fun move hmove => .move ?_ ?_
    · cases move <;> rfl
    · cases move with
      | toMark => exact .forward _ (.inr rfl) rfl
      | «by» amount =>
          have hamount := (isLength_of_readMove hmove).nonneg
          exact .forward _ (.inl (le_add_of_nonneg_right hamount)) rfl
  · exact .move rfl (.stay rfl)

end Passage

/-! ## From elements to scores -/

abbrev MusicSteps (follows : Nat → Bool) : Part Rat → Part Rat → Prop :=
  Relation.ReflTransGen (MusicStep follows)

/-- The part that is being read has grown in steps, if the links tell the later notes of chords. -/
structure Linking.Accompanies (follows : Nat → Bool) (l : Linking Rat) (p : Part Rat) : Prop where
  proper : l.openTuplets.IsProper
  steps : l.Tells follows → MusicSteps follows .initial p

namespace Linking.Accompanies

variable {settings : Settings} {follows : Nat → Bool}

theorem read {s : Passage Rat} (h : s.linking.Accompanies follows s.part) (child : Node) :
    (Passage.read settings s child).linking.Accompanies follows
      (Passage.read settings s child).part where
  proper := @IsReadingLaw.read _ _ _ _ [] _
    (isScoreLaw_properTuplets settings).toIsReadingLaw h.proper child
  steps htells := by
    have htold : s.linking.Tells follows :=
      @IsReadingLaw.read _ _ _ _ [] _ (isReadingLaw_tells settings follows s.linking) id child
        htells
    exact (h.steps htold).tail (Passage.read_step h.proper child htells)

theorem foldl_read {s : Passage Rat} (h : s.linking.Accompanies follows s.part)
    (elements : List Node) :
    (elements.foldl (Passage.read settings) s).linking.Accompanies follows
      (elements.foldl (Passage.read settings) s).part :=
  List.foldlRecOn (motive := fun s : Passage Rat => s.linking.Accompanies follows s.part) elements _
    h fun _ hs child _ => hs.read child

theorem readInstrument {s : InstrumentState Rat} (h : s.linking.Accompanies follows s.part)
    (child : Node) :
    (InstrumentState.read settings s child).linking.Accompanies follows
      (InstrumentState.read settings s child).part := by
  unfold InstrumentState.read
  split
  · split
    · exact h
    · exact ⟨h.proper, h.steps⟩
  · split
    · exact h
    · exact ⟨h.proper, h.steps⟩
  · split
    · exact h
    · exact ⟨h.proper, h.steps⟩
  · exact foldl_read (s := { linking := s.linking, part := s.part }) h _
  · exact ⟨h.proper, h.steps⟩

theorem foldl_readInstrument (settings : Settings) (follows : Nat → Bool) {l : Linking Rat}
    (h : l.openTuplets.IsProper) (children : List Node) :
    (children.foldl (InstrumentState.read settings) (.start settings l)).linking.Accompanies follows
      (children.foldl (InstrumentState.read settings) (.start settings l)).part :=
  List.foldlRecOn (motive := fun s : InstrumentState Rat => s.linking.Accompanies follows s.part)
    children _ ⟨h, fun _ => .refl⟩ fun _ hs child _ => hs.readInstrument child

end Linking.Accompanies

/-- The instruments of the score that is being read have grown in steps. -/
structure ScoreState.InSteps (follows : Nat → Bool) (s : ScoreState Rat) : Prop where
  proper : s.linking.openTuplets.IsProper
  steps : s.linking.Tells follows → s.header.Obeys (MusicSteps follows .initial)

namespace ScoreState.InSteps

variable {settings : Settings} {follows : Nat → Bool}

theorem addInstrument {s : ScoreState Rat} (h : s.InSteps follows) (children : List Node) :
    (s.addInstrument settings children).InSteps follows := by
  have hinstrument :=
    Linking.Accompanies.foldl_readInstrument settings follows h.proper children
  refine ⟨hinstrument.proper, fun htells i hi => ?_⟩
  rcases List.mem_append.mp hi with hi | hi
  · have htold : s.linking.Tells follows :=
      @IsReadingLaw.foldl_readInstrument _ _ _ _ [] (isReadingLaw_tells settings follows s.linking)
        (.start settings s.linking) id children htells
    exact h.steps htold i hi
  · rw [List.mem_singleton.mp hi]
    exact ⟨_, hinstrument.steps htells, rfl⟩

theorem read {s : ScoreState Rat} (h : s.InSteps follows) (child : Node) :
    (ScoreState.read settings s child).InSteps follows := by
  unfold ScoreState.read
  split
  · split <;> exact ⟨h.proper, h.steps⟩
  · split <;> exact ⟨h.proper, h.steps⟩
  · split <;> exact ⟨h.proper, h.steps⟩
  · exact h.addInstrument _
  · exact ⟨h.proper, h.steps⟩

theorem foldl_read (settings : Settings) (follows : Nat → Bool) (children : List Node) :
    (children.foldl (ScoreState.read settings) ({} : ScoreState Rat)).InSteps follows :=
  List.foldlRecOn (motive := InSteps follows) children _ ⟨nofun, fun _ => nofun⟩
    fun _ hs child _ => hs.read child

end ScoreState.InSteps

/-- A later note of a chord. -/
def Score.follows {τ : Type} (score : Score τ) (note : Nat) : Bool :=
  score.notes[note]?.any NoteRest.inChord

/-- The instruments of the scores of a document have grown in steps. -/
theorem obeys_musicSteps_of_analyse {settings : Settings} {tree : Node} {analysis : Analysis Rat}
    (h : analyse settings tree = .ok analysis) {score : Score Rat}
    (hs : score ∈ analysis.document.scores) :
    score.Obeys (MusicSteps score.follows .initial) := by
  obtain ⟨children, title, rfl⟩ := exists_analyseScore_of_analyse h hs
  refine (ScoreState.InSteps.foldl_read settings _ children).steps fun number inChord hnote => ?_
  rw [List.getElem?_map, Option.mem_def, Option.map_eq_some_iff] at hnote
  obtain ⟨note, hnote, rfl⟩ := hnote
  exact congrArg (Option.any NoteRest.inChord) hnote

/-- Where the analysis of a score stands behind some elements of a block of music, some children of
its instrument and some children of the score. -/
def passageAfter {τ : Type} [TimeValue τ] (settings : Settings)
    (before children elements : List Node) : Passage τ :=
  let start : InstrumentState τ :=
    .start settings (before.foldl (ScoreState.read settings) {}).linking
  let instrument := children.foldl (InstrumentState.read settings) start
  elements.foldl (Passage.read settings) { linking := instrument.linking, part := instrument.part }

theorem exists_musicSteps_passageAfter (settings : Settings)
    (before children elements : List Node) :
    ∃ follows, MusicSteps follows .initial
      (passageAfter settings before children elements : Passage Rat).part := by
  obtain ⟨follows, htells⟩ :=
    (passageAfter settings before children elements : Passage Rat).linking.exists_tells
  have hscore := ScoreState.InSteps.foldl_read settings follows before
  have hinstrument :=
    Linking.Accompanies.foldl_readInstrument settings follows hscore.proper children
  exact ⟨follows, (Linking.Accompanies.foldl_read hinstrument elements).steps htells⟩

end ScorePlayback
