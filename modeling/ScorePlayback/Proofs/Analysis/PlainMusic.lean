import ScorePlayback.Proofs.Analysis.Effects
import ScorePlayback.Proofs.Analysis.OpenTuplets
import ScorePlayback.Proofs.Analysis.WrittenNotes

/-! # Plain music

A note is plain if it states its voice and has no accidental, no relation marker and no legacy
mark. Plain notes are not linked, so an element of plain music has the same effects whatever has
been read before, and what is heard of an analysed score is what is heard of these effects. -/

namespace ScorePlayback

variable {τ : Type}

/-! ## Reading plain notes -/

/-- A note or rest that states its voice and is marked with nothing else that others depend on. -/
structure NoteReading.IsPlain (r : NoteReading) : Prop where
  markers : r.spec.markers = []
  legacyTie : r.spec.legacyTie = false
  legacyBeam : r.spec.legacyBeam = none
  accidental : ∀ pitch ∈ r.spec.pitch, pitch.accidental = none
  voice : r.spec.voice.isSome = true

/-- Notes have been added to some others, but nothing has been linked so far, and nothing is open
that notes depend on. -/
structure Linking.IsBare (front : List (NoteRest τ)) (l : Linking τ) : Prop where
  notes : front <+: l.notes
  relations : l.relations = []
  tuplets : l.openTuplets = []
  legacyTie : l.legacyTie.pending = none

namespace NoteReading

theorem IsPlain.of_spec_eq {r r' : NoteReading} (h : r.IsPlain) (hspec : r.spec = r'.spec) :
    r'.IsPlain :=
  ⟨hspec ▸ h.markers, hspec ▸ h.legacyTie, hspec ▸ h.legacyBeam, hspec ▸ h.accidental,
    hspec ▸ h.voice⟩

/-- What is read of a plain note does not change how tuplets are shown. -/
theorem IsPlain.display_eq {settings : Settings} {display : TupletDisplay} {isNote : Bool}
    {items : List Node} {reading : NoteReading} (h : reading.IsPlain)
    (hread : read settings display isNote items = .ok reading) : reading.display = display := by
  obtain ⟨front, options, pitch, duration, -, -, -, rfl⟩ := exists_options_of_read hread
  refine List.foldlRecOn (motive := fun r : NoteReading => r.spec.markers = [] →
    r.display = display) options _ (fun _ => rfl) (fun r hr item _ => ?_) h.markers
  unfold readOption
  split
  · next option _ =>
    cases option with
    | marker m => exact fun hmarkers => absurd hmarkers (List.append_ne_nil_of_right_ne_nil _ nofun)
    | _ => exact hr
  · exact hr

end NoteReading

namespace Linking

/-- The links have the same notes, and the same is linked and open. -/
structure SameLinks (l m : Linking τ) : Prop where
  notes : m.notes = l.notes
  relations : m.relations = l.relations
  tuplets : m.openTuplets = l.openTuplets
  legacyTie : m.legacyTie = l.legacyTie

theorem SameLinks.trans {l m n : Linking τ} (h : l.SameLinks m) (h' : m.SameLinks n) :
    l.SameLinks n :=
  ⟨h'.notes.trans h.notes, h'.relations.trans h.relations, h'.tuplets.trans h.tuplets,
    h'.legacyTie.trans h.legacyTie⟩

theorem IsBare.report {front : List (NoteRest τ)} {l : Linking τ} (h : l.IsBare front)
    (found : List Diagnostic) : (l.report found).IsBare front :=
  ⟨h.notes, h.relations, h.tuplets, h.legacyTie⟩

theorem IsBare.addNote {front : List (NoteRest τ)} {l : Linking τ} (h : l.IsBare front)
    (note : NoteRest τ) : (l.addNote note).IsBare front :=
  ⟨h.notes.trans (List.prefix_append _ _), h.relations, h.tuplets, h.legacyTie⟩

theorem IsBare.of_sameLinks {front : List (NoteRest τ)} {l m : Linking τ} (hl : l.IsBare front)
    (h : l.SameLinks m) : m.IsBare front where
  notes := h.notes ▸ hl.notes
  relations := h.relations.trans hl.relations
  tuplets := h.tuplets.trans hl.tuplets
  legacyTie := (congrArg LegacyTie.pending h.legacyTie).trans hl.legacyTie

variable (l : Linking τ) (note : Nat) (position : Position) (inChord : Bool)

theorem sameLinks_closeLegacyTie [TimeValue τ] (h : l.legacyTie.pending = none) (time : τ) :
    l.SameLinks (l.closeLegacyTie note time) := by
  unfold closeLegacyTie LegacyTie.offer
  rw [h]
  exact ⟨rfl, rfl, rfl, rfl⟩

theorem sameLinks_applyLegacyBeam (settings : Settings) :
    l.SameLinks (l.applyLegacyBeam settings note position inChord none) := by
  cases inChord <;> exact ⟨rfl, rfl, rfl, rfl⟩

theorem sameLinks_applyMarkers (settings : Settings) :
    l.SameLinks (l.applyMarkers settings note position inChord []) := by
  have hopen := openTuplets_applyMarkers settings note position inChord [] l
  cases inChord <;> exact ⟨rfl, rfl, hopen, rfl⟩

end Linking

namespace Passage

/-- A plain note is added to the others, and linked to none. -/
theorem sameLinks_placeNote [TimeValue τ] {front : List (NoteRest τ)} (settings : Settings)
    (s : Passage τ) (hs : s.linking.IsBare front) {reading : NoteReading} (h : reading.IsPlain)
    (position : Position) (inChord : Bool) :
    (s.linking.addNote (s.realize reading.spec position inChord)).SameLinks
      (s.placeNote settings reading position inChord).linking := by
  have hreject : (s.linking.addNote (s.realize reading.spec position inChord)).SameLinks
      ((s.linking.reject reading.rejections).addNote (s.realize reading.spec position inChord)) :=
    ⟨rfl, rfl, rfl, rfl⟩
  unfold placeNote
  dsimp only
  rw [h.markers, h.legacyBeam, h.legacyTie, Bool.and_false, if_neg Bool.false_ne_true]
  refine .trans ?_ (Linking.sameLinks_applyMarkers _ _ _ _ _)
  refine .trans ?_ (Linking.sameLinks_applyLegacyBeam _ _ _ _ _)
  refine hreject.trans ?_
  split
  · apply Linking.sameLinks_closeLegacyTie
    exact hs.legacyTie
  · exact ⟨rfl, rfl, rfl, rfl⟩

end Passage

/-! ## What is heard of a part -/

/-- Some objects are heard of a timeline, whose notes are there. -/
structure IsHeardAs (notes : List (NoteRest τ)) (timeline : List (StaffObject τ))
    (objects : List (HeardObject τ)) : Prop where
  heard : timeline.map (StaffObject.heard notes) = objects
  lt_length : ∀ object ∈ timeline, ∀ number, object.symbol = .noteRest number →
    number < notes.length

namespace IsHeardAs

variable {notes : List (NoteRest τ)} {timeline : List (StaffObject τ)}
  {objects : List (HeardObject τ)}

/-- More notes do not change what is heard of those that are there. -/
theorem of_moreNotes {more : List (NoteRest τ)} (h : IsHeardAs notes timeline objects)
    (hnotes : notes <+: more) : IsHeardAs more timeline objects := by
  obtain ⟨behind, rfl⟩ := hnotes
  refine ⟨h.heard ▸ List.map_congr_left fun object hobject => ?_,
    fun object hobject number hnumber => ?_⟩
  · cases hsymbol : object.symbol with
    | noteRest number =>
        have hlt : number < notes.length := h.lt_length object hobject number hsymbol
        simp [StaffObject.heard, StaffSymbol.heard, hsymbol, List.getElem?_append_left hlt]
    | _ => simp [StaffObject.heard, StaffSymbol.heard, hsymbol]
  · have hlt := h.lt_length object hobject number hnumber
    rw [List.length_append]
    omega

theorem place (h : IsHeardAs notes timeline objects) (object : StaffObject τ)
    (hobject : ∀ number, object.symbol = .noteRest number → number < notes.length) :
    IsHeardAs notes (timeline ++ [object]) (objects ++ [object.heard notes]) where
  heard := by rw [List.map_append, h.heard, List.map_singleton]
  lt_length := List.forall_mem_append.mpr ⟨h.lt_length, List.forall_mem_singleton.mpr hobject⟩

end IsHeardAs

variable [TimeValue τ]

/-- What is known of a part is where its cursor stands and what is heard of it. -/
structure Part.SoundsAs (notes : List (NoteRest τ)) (p : Part τ) (h : Hearing τ)
    (objects : List (HeardObject τ)) : Prop where
  cursor : p.cursor = h.cursor
  key : p.key = h.key
  accidentals : p.accidentals = []
  timeline : IsHeardAs notes p.timeline objects

structure Passage.SoundsAs (front : List (NoteRest τ)) (s : Passage τ) (h : Hearing τ)
    (objects : List (HeardObject τ)) : Prop where
  links : s.linking.IsBare front
  part : s.part.SoundsAs s.linking.notes h objects
  display : s.inherited.display = {}

namespace Passage.SoundsAs

open Effect (together ofReading)

variable {settings : Settings} {front : List (NoteRest τ)} {s : Passage τ} {h : Hearing τ}
  {objects : List (HeardObject τ)}

omit [TimeValue τ] in
theorem reject (hs : s.SoundsAs front h objects) (rejections : List Rejection) :
    (s.reject rejections).SoundsAs front h objects :=
  ⟨hs.links.report _, hs.part, hs.display⟩

theorem move (hs : s.SoundsAs front h objects) (move : Cursor τ → Cursor τ) :
    (s.mapCursor move).SoundsAs front (h.after (.move move))
      (objects ++ h.objects (.move move)) := by
  rw [Hearing.objects, List.append_nil]
  exact ⟨hs.links, ⟨congrArg move hs.part.cursor, hs.part.key, hs.part.accidentals,
    hs.part.timeline⟩, hs.display⟩

/-! ### Notes and chords -/

theorem duration_realize (hs : s.SoundsAs front h objects) {reading : NoteReading}
    (hplain : reading.IsPlain) (position : Position) (inChord : Bool) :
    (s.realize reading.spec position inChord).duration = reading.spec.plainDuration := by
  have hopen : s.linking.tuplets.openTuplets = [] := hs.links.tuplets
  have hscale : (tupletScale s.linking.tuplets reading.spec.markers : τ) = tupletScale {} [] := by
    rw [tupletScale_eq, hopen, hplain.markers, tupletScale_eq]
    rfl
  rw [realize, hscale]
  rfl

/-- A plain note gets its alteration from the key. -/
theorem pitch_realize (hs : s.SoundsAs front h objects) {reading : NoteReading}
    (hplain : reading.IsPlain) (position : Position) (inChord : Bool) :
    (s.realize reading.spec position inChord).pitch =
      reading.spec.pitch.map fun p => { p with alter := h.key.alterFor p.step } := by
  refine Option.map_congr fun p hp => ?_
  simp [Part.resolve, hs.part.key, hs.part.accidentals, hplain.accidental p hp]

theorem heard_objectOf (hs : s.SoundsAs front h objects) {reading : NoteReading}
    (hplain : reading.IsPlain) (position : Position) (inChord : Bool) :
    (s.objectOf s.linking.notes.length (s.realize reading.spec position inChord)).heard
        (s.linking.notes ++ [s.realize reading.spec position inChord]) = h.note reading.spec := by
  have hvoice : (s.realize reading.spec position inChord).voice = reading.spec.voice.getD 0 := by
    obtain ⟨voice, hvoice⟩ := Option.isSome_iff_exists.mp hplain.voice
    rw [realize, hvoice]
    rfl
  have hvisible : (s.realize reading.spec position inChord).visible = reading.spec.visible := rfl
  simp [StaffObject.heard, StaffSymbol.heard, objectOf, Hearing.note, hs.part.cursor, hvoice,
    hvisible, hs.pitch_realize hplain, hs.duration_realize hplain]

theorem placeNote (hs : s.SoundsAs front h objects) {isNote : Bool} {items : List Node}
    {reading : NoteReading} (hplain : reading.IsPlain)
    (hread : NoteReading.read settings s.inherited.display isNote items = .ok reading)
    (position : Position) (inChord : Bool) :
    (s.placeNote settings reading position inChord).SoundsAs front h
      (objects ++ [h.note reading.spec]) where
  links := .of_sameLinks (hs.links.addNote _)
    (s.sameLinks_placeNote settings hs.links hplain position inChord)
  display := (hplain.display_eq hread).trans hs.display
  part := by
    have hremember : reading.spec.pitch.elim s.part s.part.remember = s.part := by
      cases hpitch : reading.spec.pitch with
      | none => rfl
      | some p => rw [Option.elim_some, Part.remember, hplain.accidental p hpitch]
    have hnotes := (s.sameLinks_placeNote settings hs.links hplain position inChord).notes
    have hplaced := (hs.part.timeline.of_moreNotes (List.prefix_append _
      [s.realize reading.spec position inChord])).place
      (s.objectOf s.linking.notes.length (s.realize reading.spec position inChord))
      (by rintro number ⟨⟩; simp)
    rw [hnotes, ← hs.heard_objectOf hplain position inChord]
    unfold Passage.placeNote
    dsimp only
    rw [hremember]
    exact ⟨hs.part.cursor, hs.part.key, hs.part.accidentals, hplaced⟩

theorem addNote (hs : s.SoundsAs front h objects) (isNote : Bool) {items : List Node}
    {position : Position}
    (ha : (Node.element (NoteOption.elementOf isNote) items position).Admits settings
      NoteReading.IsPlain) (inChord : Bool) :
    let spec := WrittenNote.spec? settings ⟨isNote, items, position⟩
    (s.addNote settings isNote items position inChord).1.SoundsAs front h
        (objects ++ spec.toList.map h.note) ∧
      (s.addNote settings isNote items position inChord).2 =
        spec.map fun spec => spec.plainDuration := by
  have hdisplay := hs.display
  unfold Passage.addNote WrittenNote.spec?
  dsimp only
  split
  · next reading hreading =>
    have hplain : reading.IsPlain := ha _ _ _ .here _ _ hreading
    rw [hdisplay] at hreading
    rw [hreading]
    exact ⟨hs.placeNote hplain (hdisplay ▸ hreading) position inChord,
      congrArg some (hs.duration_realize hplain position inChord)⟩
  · next fault hfault =>
    rw [hdisplay] at hfault
    rw [hfault, Option.toList_none, List.map_nil, List.append_nil]
    exact ⟨hs.reject _, rfl⟩

/-- The cursor moves behind the first of some notes. -/
theorem advance {specs : List NoteSpec} (hs : s.SoundsAs front h (objects ++ specs.map h.note))
    {spec : NoteSpec} (hspec : specs.head? = some spec) :
    (s.mapCursor (·.advance spec.plainDuration)).SoundsAs front (h.run (together specs))
      (objects ++ h.hear (together specs)) := by
  have hmoved := hs.move (·.advance spec.plainDuration)
  simpa [together, hspec, Hearing.hear_append, Hearing.run_notes, Hearing.hear_notes] using
    hmoved

theorem addSingle (hs : s.SoundsAs front h objects) (isNote : Bool) {items : List Node}
    {position : Position}
    (ha : (Node.element (NoteOption.elementOf isNote) items position).Admits settings
      NoteReading.IsPlain) :
    let specs := (WrittenNote.spec? settings ⟨isNote, items, position⟩).toList
    (s.addSingle settings isNote items position).SoundsAs front (h.run (together specs))
      (objects ++ h.hear (together specs)) := by
  obtain ⟨hnote, hduration⟩ := hs.addNote isNote ha false
  unfold Passage.addSingle
  generalize s.addNote settings isNote items position false = result at hnote hduration
  obtain ⟨s', duration⟩ := result
  dsimp only at hduration
  rw [hduration]
  cases hspec : WrittenNote.spec? settings ⟨isNote, items, position⟩ with
  | none => simpa [hspec, together] using hnote
  | some spec =>
    rw [hspec] at hnote
    exact hnote.advance rfl

/-- Some notes of a chord have been read. The first one tells its length. -/
theorem addChordNote {specs : List NoteSpec} {first : Option τ}
    (hs : s.SoundsAs front h (objects ++ specs.map h.note))
    (hfirst : first = specs.head?.map fun spec => spec.plainDuration) {child : Node}
    (ha : child.Admits settings NoteReading.IsPlain) :
    let specs' := specs ++ child.chordNotes.filterMap (WrittenNote.spec? settings)
    (Passage.addChordNote settings (s, first) child).1.SoundsAs front h
        (objects ++ specs'.map h.note) ∧
      (Passage.addChordNote settings (s, first) child).2 =
        specs'.head?.map fun spec => spec.plainDuration := by
  unfold Passage.addChordNote
  dsimp only
  split
  · next items position =>
    obtain ⟨hnote, hduration⟩ := hs.addNote true ha first.isSome
    have hspecs : [(⟨true, items, position⟩ : WrittenNote)].filterMap
        (WrittenNote.spec? settings) =
          (WrittenNote.spec? settings ⟨true, items, position⟩).toList := by
      cases hspec : WrittenNote.spec? settings ⟨true, items, position⟩ <;> simp [hspec]
    rw [Node.chordNotes, hspecs]
    refine ⟨by simpa using hnote, ?_⟩
    rw [hduration, hfirst, List.head?_append, Option.head?_toList, Option.map_or,
      Option.or_eq_orElse]
    rfl
  · next hother =>
    have hnone : child.chordNotes = [] := by
      unfold Node.chordNotes
      split
      · exact absurd rfl (hother _ _)
      · rfl
    rw [hnone, List.filterMap_nil, List.append_nil]
    exact ⟨hs.reject _, hfirst⟩

theorem foldl_addChordNote {specs : List NoteSpec} {first : Option τ}
    (hs : s.SoundsAs front h (objects ++ specs.map h.note))
    (hfirst : first = specs.head?.map fun spec => spec.plainDuration) {children : List Node}
    (ha : ∀ child ∈ children, child.Admits settings NoteReading.IsPlain) :
    let specs' := specs ++ (children.flatMap Node.chordNotes).filterMap (WrittenNote.spec? settings)
    (children.foldl (Passage.addChordNote settings) (s, first)).1.SoundsAs front h
        (objects ++ specs'.map h.note) ∧
      (children.foldl (Passage.addChordNote settings) (s, first)).2 =
        specs'.head?.map fun spec => spec.plainDuration := by
  induction children generalizing s specs first with
  | nil => simpa using ⟨hs, hfirst⟩
  | cons child rest ih =>
      obtain ⟨hchild, hrest⟩ := List.forall_mem_cons.mp ha
      obtain ⟨hstep, hlength⟩ := hs.addChordNote hfirst hchild
      simpa using ih hstep hlength hrest

theorem addChord (hs : s.SoundsAs front h objects) {children : List Node}
    (ha : ∀ child ∈ children, child.Admits settings NoteReading.IsPlain) (position : Position) :
    let specs := (children.flatMap Node.chordNotes).filterMap (WrittenNote.spec? settings)
    (s.addChord settings children position).SoundsAs front (h.run (together specs))
      (objects ++ h.hear (together specs)) := by
  have hnone : s.SoundsAs front h (objects ++ [].map h.note) := by simpa using hs
  have hempty : (none : Option τ) =
      ([] : List NoteSpec).head?.map fun spec => spec.plainDuration := rfl
  obtain ⟨hchord, hfirst⟩ := hnone.foldl_addChordNote hempty ha
  rw [List.nil_append] at hchord hfirst
  unfold Passage.addChord
  generalize children.foldl (Passage.addChordNote settings) (s, none) = result at hchord hfirst
  obtain ⟨s', first⟩ := result
  dsimp only at hfirst ⊢
  rw [hfirst]
  generalize (children.flatMap Node.chordNotes).filterMap (WrittenNote.spec? settings) = specs at *
  cases specs with
  | nil => exact hchord.reject _
  | cons spec specs => exact hchord.advance rfl

/-! ### Elements of music -/

theorem accept {α : Type} (hs : s.SoundsAs front h objects) (position : Position)
    (reading : Except GrammarFault α) {use : α → Passage τ} {effect : α → Effect τ}
    (huse : ∀ value, (use value).SoundsAs front (h.after (effect value))
      (objects ++ h.objects (effect value))) :
    (s.accept position reading use).SoundsAs front (h.run (ofReading effect reading))
      (objects ++ h.hear (ofReading effect reading)) := by
  cases reading with
  | ok value =>
      show (use value).SoundsAs front _ _
      simpa [ofReading] using huse value
  | error fault =>
      show (s.reject _).SoundsAs front _ _
      simpa [ofReading] using hs.reject _

theorem mark (hs : s.SoundsAs front h objects) (time : τ) (symbol : StaffSymbol)
    (hsymbol : ∀ number, symbol ≠ .noteRest number) (position : Position) :
    IsHeardAs s.linking.notes (s.part.place (s.mark time symbol position)).timeline
      (objects ++ [h.mark time symbol]) := by
  have hheard : (s.mark time symbol position).heard s.linking.notes = h.mark time symbol := by
    unfold StaffObject.heard Hearing.mark Passage.mark
    rw [hs.part.cursor]
    cases symbol with
    | noteRest number => exact absurd rfl (hsymbol number)
    | _ => rfl
  exact hheard ▸ hs.part.timeline.place _ fun number hnumber => absurd hnumber (hsymbol number)

theorem addSymbol (hs : s.SoundsAs front h objects) (symbol : StaffSymbol)
    (hsymbol : ∀ number, symbol ≠ .noteRest number) (position : Position) :
    (s.addSymbol symbol position).SoundsAs front h (objects ++ h.objects (.sign symbol)) := by
  rw [Hearing.objects, ← hs.part.cursor]
  exact ⟨hs.links, ⟨hs.part.cursor, hs.part.key, hs.part.accidentals,
    hs.mark _ symbol hsymbol position⟩, hs.display⟩

theorem addKey (hs : s.SoundsAs front h objects) (key : KeySignature) (position : Position) :
    (s.addKey key position).SoundsAs front (h.after (.sign (.key key)))
      (objects ++ h.objects (.sign (.key key))) := by
  have hsign := hs.addSymbol (.key key) nofun position
  exact ⟨hsign.links, ⟨hsign.part.cursor, rfl, hsign.part.accidentals, hsign.part.timeline⟩,
    hsign.display⟩

theorem addBarline (hs : s.SoundsAs front h objects) (b : Control.BarlineSpec)
    (position : Position) :
    (s.addBarline b position).SoundsAs front (h.after (.barline b))
      (objects ++ h.objects (.barline b)) := by
  rw [Hearing.objects, ← hs.part.cursor]
  exact ⟨hs.links, ⟨congrArg Cursor.nextMeasure hs.part.cursor, hs.part.key, rfl,
    hs.mark _ (.barline b.shape b.times) nofun position⟩, hs.display⟩

theorem goBack (hs : s.SoundsAs front h objects) (move : Control.Move τ) :
    (s.goBack move).SoundsAs front (h.after (.move (·.goBack move)))
      (objects ++ h.objects (.move (·.goBack move))) := by
  have hmove : s.goBack move = s.mapCursor (·.goBack move) := by cases move <;> rfl
  exact hmove ▸ hs.move _

theorem goForward (hs : s.SoundsAs front h objects) (move : Control.Move τ) :
    (s.goForward move).SoundsAs front (h.after (.move (·.goForward move)))
      (objects ++ h.objects (.move (·.goForward move))) := by
  have hmove : s.goForward move = s.mapCursor (·.goForward move) := by cases move <;> rfl
  exact hmove ▸ hs.move _

/-- An element of plain music has its effects. -/
theorem read (hs : s.SoundsAs front h objects) {child : Node}
    (ha : child.Admits settings NoteReading.IsPlain) :
    (Passage.read settings s child).SoundsAs front (h.run (child.effects settings))
      (objects ++ h.hear (child.effects settings)) := by
  have hreject (rejection : Rejection) : (s.reject [rejection]).SoundsAs front (h.run [])
      (objects ++ h.hear []) := by simpa using hs.reject [rejection]
  cases child with
  | atom kind text position => exact hreject _
  | element name children position =>
      cases name with
      | note =>
          rw [Node.effects, Node.specs_note]
          exact hs.addSingle true ha
      | rest =>
          rw [Node.effects, Node.specs_rest]
          exact hs.addSingle false ha
      | chord => exact hs.addChord ha.child position
      | clef => exact hs.accept _ _ fun clef => hs.addSymbol (.clef clef) (by simp) _
      | key => exact hs.accept _ _ fun key => hs.addKey key _
      | time => exact hs.accept _ _ fun meter => hs.addSymbol (.meter meter) (by simp) _
      | barline =>
          rw [Passage.read, Node.effects]
          cases Control.readBarline settings (.element .barline children position) with
          | ok b => simpa [ofReading] using hs.addBarline b position
          | error rejection => exact hreject rejection
      | volta => exact hs.accept _ _ fun volta => hs.addSymbol (.volta volta.1 volta.2) (by simp) _
      | goBack => exact hs.accept _ _ hs.goBack
      | goForward => exact hs.accept _ _ hs.goForward
      | _ => exact hreject _

theorem foldl_read (hs : s.SoundsAs front h objects) {elements : List Node}
    (ha : ∀ child ∈ elements, child.Admits settings NoteReading.IsPlain) :
    (elements.foldl (Passage.read settings) s).SoundsAs front
      (h.run (elements.flatMap (Node.effects settings)))
      (objects ++ h.hear (elements.flatMap (Node.effects settings))) := by
  induction elements generalizing s h objects with
  | nil => simpa using hs
  | cons child rest ih =>
      obtain ⟨hchild, hrest⟩ := List.forall_mem_cons.mp ha
      simpa [Hearing.hear_append] using ih (hs.read hchild) hrest

end Passage.SoundsAs

/-! ## What is heard of instruments and scores -/

structure InstrumentState.SoundsAs (front : List (NoteRest τ)) (s : InstrumentState τ)
    (h : Hearing τ) (objects : List (HeardObject τ)) : Prop where
  links : s.linking.IsBare front
  part : s.part.SoundsAs s.linking.notes h objects

namespace InstrumentState

variable {settings : Settings} {front : List (NoteRest τ)} {s : InstrumentState τ}
  {h : Hearing τ} {objects : List (HeardObject τ)}

theorem midi_read (settings : Settings) (s : InstrumentState τ) (child : Node) :
    (InstrumentState.read settings s child).midi = s.midi.after child := by
  unfold InstrumentState.read MidiInfo.after
  cases child with
  | atom kind text position => rfl
  | element name children position =>
      cases name with
      | instrumentName | staves => dsimp only; split <;> rfl
      | midi => dsimp only; cases readMidi s.midi (.element .midi children position) <;> rfl
      | _ => rfl

theorem SoundsAs.read (hs : s.SoundsAs front h objects) {child : Node}
    (ha : ∀ element ∈ musicOf [child], element.Admits settings NoteReading.IsPlain) :
    (InstrumentState.read settings s child).SoundsAs front
      (h.run ((musicOf [child]).flatMap (Node.effects settings)))
      (objects ++ h.hear ((musicOf [child]).flatMap (Node.effects settings))) := by
  have hreport (found : List Diagnostic) :
      InstrumentState.SoundsAs front { s with linking := s.linking.report found } (h.run [])
        (objects ++ h.hear []) := by
    simpa using ⟨hs.links.report found, hs.part⟩
  have hsame : s.SoundsAs front (h.run []) (objects ++ h.hear []) := by simpa using hs
  cases child with
  | atom kind text position => exact hreport _
  | element name children position =>
      cases name with
      | music =>
          rw [musicOf_music] at ha ⊢
          have hstart : Passage.SoundsAs front ⟨s.linking, s.part, {}⟩ h objects :=
            ⟨hs.links, hs.part, rfl⟩
          have hread := hstart.foldl_read ha
          exact ⟨hread.links, hread.part⟩
      | instrumentName | staves | midi =>
          unfold InstrumentState.read
          dsimp only
          split
          · exact ⟨hsame.links, hsame.part⟩
          · exact hreport _
      | _ => exact hreport _

theorem SoundsAs.foldl_read (hs : s.SoundsAs front h objects) {children : List Node}
    (ha : ∀ element ∈ musicOf children, element.Admits settings NoteReading.IsPlain) :
    (children.foldl (InstrumentState.read settings) s).SoundsAs front
      (h.run ((musicOf children).flatMap (Node.effects settings)))
      (objects ++ h.hear ((musicOf children).flatMap (Node.effects settings))) := by
  induction children generalizing s h objects with
  | nil => simpa [musicOf] using hs
  | cons child rest ih =>
      rw [musicOf_cons, List.forall_mem_append] at ha
      simpa [musicOf_cons child rest, Hearing.hear_append] using ih (hs.read ha.1) ha.2

theorem midi_foldl_read (settings : Settings) (s : InstrumentState τ) (children : List Node) :
    (children.foldl (InstrumentState.read settings) s).midi =
      children.foldl MidiInfo.after s.midi := by
  induction children generalizing s with
  | nil => rfl
  | cons child rest ih => rw [List.foldl_cons, ih, midi_read, List.foldl_cons]

end InstrumentState

/-- Some instruments are heard of a score that is being read. -/
structure ScoreState.SoundsAs (s : ScoreState τ) (heard : List (HeardInstrument τ)) : Prop where
  links : s.linking.IsBare []
  instruments : List.Forall₂
    (fun i x => i.midi = x.midi ∧ IsHeardAs s.linking.notes i.timeline x.objects)
    s.header.instruments heard

/-- The music of each instrument among the children of a score is plain. -/
def IsPlainScore (settings : Settings) (children : List Node) : Prop :=
  ∀ child ∈ children, child.isInstrument = true →
    ∀ element ∈ musicOf child.children, element.Admits settings NoteReading.IsPlain

namespace ScoreState.SoundsAs

variable {settings : Settings} {s : ScoreState τ} {heard : List (HeardInstrument τ)}

theorem addInstrument (hs : s.SoundsAs heard) {children : List Node}
    (ha : ∀ element ∈ musicOf children, element.Admits settings NoteReading.IsPlain) :
    (s.addInstrument settings children).SoundsAs (heard ++ [hearInstrument settings children]) := by
  have hstart : (InstrumentState.start settings s.linking).SoundsAs s.linking.notes .initial [] :=
    ⟨⟨List.prefix_rfl, hs.links.relations, hs.links.tuplets, hs.links.legacyTie⟩,
      rfl, rfl, rfl, ⟨rfl, nofun⟩⟩
  have hread := hstart.foldl_read ha
  refine ⟨⟨List.nil_prefix, hread.links.relations, hread.links.tuplets, hread.links.legacyTie⟩,
    List.rel_append ?_ (.cons ⟨?_, ?_⟩ .nil)⟩
  · exact hs.instruments.imp fun i x hx => ⟨hx.1, hx.2.of_moreNotes hread.links.notes⟩
  · exact InstrumentState.midi_foldl_read settings _ children
  · exact hread.part.timeline

theorem read (hs : s.SoundsAs heard) {child : Node}
    (ha : child.isInstrument = true →
      ∀ element ∈ musicOf child.children, element.Admits settings NoteReading.IsPlain) :
    (ScoreState.read settings s child).SoundsAs (heard ++ hearScore settings [child]) := by
  cases hchild : child.isInstrument with
  | true =>
      obtain ⟨children, position, rfl⟩ := Node.exists_of_isInstrument hchild
      exact hs.addInstrument (ha rfl)
  | false =>
      obtain ⟨hinstruments, found, hlinking⟩ := s.read_other settings hchild
      have hnone : (hearScore settings [child] : List (HeardInstrument τ)) = [] := by
        simp [hearScore, hchild]
      rw [hnone, List.append_nil]
      refine ⟨hlinking ▸ hs.links.report found, ?_⟩
      rw [hinstruments, hlinking]
      exact hs.instruments

theorem foldl_read (hs : s.SoundsAs heard) {children : List Node}
    (ha : IsPlainScore settings children) :
    (children.foldl (ScoreState.read settings) s).SoundsAs
      (heard ++ hearScore settings children) := by
  induction children generalizing s heard with
  | nil => simpa [hearScore] using hs
  | cons child rest ih =>
      obtain ⟨hchild, hrest⟩ := List.forall_mem_cons.mp ha
      have hheard : (hearScore settings (child :: rest) : List (HeardInstrument τ)) =
          hearScore settings [child] ++ hearScore settings rest := by
        rw [hearScore, hearScore, hearScore, ← List.map_append, ← List.filter_append,
          List.singleton_append]
      rw [hheard, ← List.append_assoc]
      exact ih (hs.read hchild) hrest

end ScoreState.SoundsAs

/-- Of a plain score nothing is linked, and what is heard are the effects of its elements. -/
theorem heard_analyseScore {settings : Settings} {children : List Node}
    (ha : IsPlainScore settings children) :
    (analyseScore settings children : ScoreAnalysis τ).score.relations = [] ∧
      (analyseScore settings children : ScoreAnalysis τ).score.heard =
        hearScore settings children := by
  have hstart : ScoreState.SoundsAs ({} : ScoreState τ) [] :=
    ⟨⟨List.nil_prefix, rfl, rfl, rfl⟩, .nil⟩
  have hread := hstart.foldl_read ha
  refine ⟨hread.links.relations, ?_⟩
  have heq : List.Forall₂ (· = ·) (analyseScore settings children).score.heard
      (hearScore settings children) :=
    List.forall₂_map_left_iff.mpr <| hread.instruments.imp fun i x hx => by
      obtain ⟨hmidi, htimeline⟩ := hx
      exact congrArg₂ HeardInstrument.mk hmidi htimeline.heard
  rwa [List.forall₂_eq_eq_eq] at heq

end ScorePlayback
