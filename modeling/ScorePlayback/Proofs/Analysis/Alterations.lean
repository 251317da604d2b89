import Mathlib.Data.List.DropRight
import ScorePlayback.Proofs.Analysis.Effects
import ScorePlayback.Proofs.Analysis.FaultyNotes
import ScorePlayback.Proofs.Analysis.Independence
import ScorePlayback.Proofs.Analysis.WrittenNotes

/-! # Alterations

What a note sounds like follows from what has been read of its instrument before: an accidental
holds for its step in its octave up to the next barline, and a key up to the next key. -/

namespace ScorePlayback

/-! ## What alterations depend on -/

/-- A note as it is written or as it sounds, a key or a barline. -/
inductive PitchEvent where
  | note (p : Pitch)
  | key (signature : KeySignature)
  | barline
deriving DecidableEq

namespace PitchEvent

def isBarline : PitchEvent → Bool
  | .barline => true
  | _ => false

def key? : PitchEvent → Option KeySignature
  | .key signature => some signature
  | _ => none

/-- The accidental that is written on a note of a step in an octave. -/
def accidental? (step : Step) (octave : Int) : PitchEvent → Option Int
  | .note p => if p.step = step ∧ p.octave = octave then p.accidental else none
  | _ => none

/-- The latest accidental that is written in a measure, for a step in an octave. -/
def carried (step : Step) (octave : Int) (earlier : List PitchEvent) : Option Int :=
  ((earlier.rtakeWhile (!·.isBarline)).filterMap (accidental? step octave)).getLast?

/-- The latest key. -/
def latestKey (earlier : List PitchEvent) : Option KeySignature :=
  (earlier.filterMap key?).getLast?

/-- What alters a note: its accidental, or one that is carried on, or else the key. -/
def alteration (earlier : List PitchEvent) (p : Pitch) : Int :=
  match p.accidental, carried p.step p.octave earlier, latestKey earlier with
  | some alter, _, _ => alter
  | none, some alter, _ => alter
  | none, none, some signature => signature.alterFor p.step
  | none, none, none => 0

/-- What an event becomes, behind earlier ones. Only notes are altered. -/
def sounding (earlier : List PitchEvent) : PitchEvent → PitchEvent
  | .note p => .note { p with alter := alteration earlier p }
  | event => event

/-- Every event sounds as it does behind those in front of it. -/
def AreSounding (events heard : List PitchEvent) : Prop :=
  ∀ number, heard[number]? = events[number]?.map (sounding (events.take number))

variable (earlier : List PitchEvent) (event : PitchEvent)

theorem carried_concat (step : Step) (octave : Int) :
    carried step octave (earlier ++ [event]) =
      if event.isBarline then none
      else (event.accidental? step octave).or (carried step octave earlier) := by
  cases h : event.isBarline with
  | true => simp [carried, h]
  | false => cases haccidental : event.accidental? step octave <;> simp [carried, h, haccidental]

theorem latestKey_concat : latestKey (earlier ++ [event]) = event.key?.or (latestKey earlier) := by
  cases h : event.key? <;> simp [latestKey, h]

theorem AreSounding.length_eq {events heard : List PitchEvent} (h : AreSounding events heard) :
    heard.length = events.length := by
  refine Nat.le_antisymm ?_ ?_
  · have hnone := h events.length
    rw [List.getElem?_eq_none (Nat.le_refl _), Option.map_none] at hnone
    exact List.getElem?_eq_none_iff.mp hnone
  · have hnone := h heard.length
    rw [List.getElem?_eq_none (Nat.le_refl _)] at hnone
    exact List.getElem?_eq_none_iff.mp (Option.map_eq_none_iff.mp hnone.symm)

theorem AreSounding.concat {events heard : List PitchEvent} (h : AreSounding events heard) :
    AreSounding (events ++ [event]) (heard ++ [event.sounding events]) := by
  intro number
  rcases Nat.lt_trichotomy number events.length with hlt | rfl | hgt
  · rw [List.getElem?_append_left (h.length_eq ▸ hlt), List.getElem?_append_left hlt,
      List.take_append_of_le_length hlt.le]
    exact h number
  · rw [List.take_left, ← h.length_eq, List.getElem?_concat_length, h.length_eq,
      List.getElem?_concat_length, Option.map_some]
  · rw [List.getElem?_eq_none, List.getElem?_eq_none, Option.map_none]
    · rw [List.length_append]
      exact hgt
    · rw [List.length_append, h.length_eq]
      exact hgt

end PitchEvent

/-! ## Events of elements and of timelines -/

/-- A note that can be read, but not a rest. -/
def WrittenNote.pitchEvents (settings : Settings) (w : WrittenNote) : List PitchEvent :=
  ((w.spec? settings).bind NoteSpec.pitch).toList.map .note

/-- What an element of music has to do with alterations. What is rejected has nothing. -/
def Node.pitchEvents (settings : Settings) (n : Node) : List PitchEvent :=
  match n with
  | .element .key _ _ => (Control.readKey n).toOption.toList.map .key
  | .element .barline _ _ => (Control.readBarline settings n).toOption.toList.map fun _ => .barline
  | n => n.musicNotes.flatMap (WrittenNote.pitchEvents settings)

/-- What a symbol has to do with alterations, where notes have these pitches. -/
def StaffSymbol.pitchEvent? (pitches : List (Option Pitch)) : StaffSymbol → Option PitchEvent
  | .noteRest number => pitches[number]?.join.map .note
  | .key signature => some (.key signature)
  | .barline .. => some .barline
  | _ => none

/-- The notes, keys and barlines of an instrument, as they sound. -/
def Score.pitchEvents {τ : Type} (score : Score τ) (i : Instrument τ) : List PitchEvent :=
  i.timeline.filterMap fun object =>
    object.symbol.pitchEvent? (score.notes.map NoteRest.pitch)

/-! ### What is read does not depend on tuplets -/

namespace NoteReading

variable {settings : Settings} {display : TupletDisplay} {items : List Node} {reading : NoteReading}

theorem pitch_of_readRest {pitch : Option Pitch}
    (h : readRest settings display pitch items = .ok reading) : reading.spec.pitch = pitch := by
  obtain ⟨first, options, duration, -, -, rfl⟩ := exists_options_of_readRest h
  exact List.foldlRecOn (motive := fun r : NoteReading => r.spec.pitch = pitch) options _ rfl
    fun r hr item _ => (pitch_readOption r item).trans hr

/-- Two readings of a note agree in its pitch, whatever tuplets are around. -/
theorem pitch_of_read {display' : TupletDisplay} {reading' : NoteReading} {isNote : Bool}
    (h : read settings display isNote items = .ok reading)
    (h' : read settings display' isNote items = .ok reading') :
    reading.spec.pitch = reading'.spec.pitch := by
  unfold read at h h'
  cases isNote with
  | false => exact (pitch_of_readRest h).trans (pitch_of_readRest h').symm
  | true =>
      cases items with
      | nil => cases h
      | cons item rest =>
          simp only [if_true] at h h'
          generalize (item.label?.bind fun text => Pitch.read? text.toList) = pitch at h h'
          cases pitch with
          | none => cases h
          | some pitch => exact (pitch_of_readRest h).trans (pitch_of_readRest h').symm

end NoteReading

namespace WrittenNote

variable {settings : Settings} {display : TupletDisplay} {w : WrittenNote}

theorem pitchEvents_of_read {reading : NoteReading}
    (h : NoteReading.read settings display w.isNote w.items = .ok reading) :
    w.pitchEvents settings = reading.spec.pitch.toList.map .note := by
  unfold pitchEvents spec?
  split
  · next reading' h' => rw [Option.bind_some, NoteReading.pitch_of_read h' h]
  · next fault hfault =>
    rw [NoteReading.read_error display hfault] at h
    cases h

theorem pitchEvents_of_error {fault : GrammarFault}
    (h : NoteReading.read settings display w.isNote w.items = .error fault) :
    w.pitchEvents settings = [] := by
  unfold pitchEvents spec?
  rw [NoteReading.read_error {} h]
  rfl

end WrittenNote

/-! ## Timelines and parts -/

variable {τ : Type}

/-- A timeline has some events, as they sound, and only notes with these pitches. -/
structure IsTimelineOf (pitches : List (Option Pitch)) (timeline : List (StaffObject τ))
    (events : List PitchEvent) : Prop where
  sounding : PitchEvent.AreSounding events
    (timeline.filterMap fun object => object.symbol.pitchEvent? pitches)
  lt_length : ∀ object ∈ timeline, ∀ number, object.symbol = .noteRest number →
    number < pitches.length

namespace IsTimelineOf

variable {pitches : List (Option Pitch)} {timeline : List (StaffObject τ)}
  {events : List PitchEvent}

theorem nil : IsTimelineOf pitches ([] : List (StaffObject τ)) [] := ⟨fun _ => rfl, nofun⟩

/-- More notes do not change those that are there. -/
theorem of_morePitches {more : List (Option Pitch)} (h : IsTimelineOf pitches timeline events)
    (hpitches : pitches <+: more) : IsTimelineOf more timeline events := by
  obtain ⟨behind, rfl⟩ := hpitches
  refine ⟨?_, fun object hobject number hnumber => ?_⟩
  · have hsame : timeline.filterMap (fun object => object.symbol.pitchEvent? (pitches ++ behind)) =
        timeline.filterMap fun object => object.symbol.pitchEvent? pitches := by
      refine List.filterMap_congr fun object hobject => ?_
      cases hsymbol : object.symbol with
      | noteRest number =>
          have hlt := h.lt_length object hobject number hsymbol
          simp [StaffSymbol.pitchEvent?, List.getElem?_append_left hlt]
      | _ => rfl
    rw [hsame]
    exact h.sounding
  · rw [List.length_append]
    exact Nat.lt_add_right _ (h.lt_length object hobject number hnumber)

/-- Another object goes onto the timeline, perhaps with an event. -/
theorem place (h : IsTimelineOf pitches timeline events) (event : Option PitchEvent)
    {object : StaffObject τ}
    (hobject : ∀ number, object.symbol = .noteRest number → number < pitches.length)
    (hevent : object.symbol.pitchEvent? pitches = event.map (PitchEvent.sounding events)) :
    IsTimelineOf pitches (timeline ++ [object]) (events ++ event.toList) where
  sounding := by
    cases event with
    | none => simpa [hevent] using h.sounding
    | some event => simpa [hevent] using h.sounding.concat event
  lt_length := List.forall_mem_append.mpr ⟨h.lt_length, List.forall_mem_singleton.mpr hobject⟩

end IsTimelineOf

/-- What is known of a part: its key, the accidentals of its measure, and its timeline. -/
structure Part.HasRead (pitches : List (Option Pitch)) (part : Part τ) (events : List PitchEvent) :
    Prop where
  key : part.key = (PitchEvent.latestKey events).getD .cMajor
  accidentals : ∀ step octave,
    part.accidentals.lookup (step, octave) = PitchEvent.carried step octave events
  timeline : IsTimelineOf pitches part.timeline events

namespace Part

theorem key_remember (part : Part τ) (p : Pitch) : (part.remember p).key = part.key := by
  unfold remember
  split <;> rfl

theorem lookup_remember (part : Part τ) (p : Pitch) (step : Step) (octave : Int) :
    (part.remember p).accidentals.lookup (step, octave) =
      ((PitchEvent.note p).accidental? step octave).or
        (part.accidentals.lookup (step, octave)) := by
  unfold remember PitchEvent.accidental?
  cases haccidental : p.accidental with
  | none => simp [haccidental]
  | some alter =>
      by_cases hplace : p.step = step ∧ p.octave = octave
      · obtain ⟨rfl, rfl⟩ := hplace
        simp [haccidental]
      · have hne : ((step, octave) == (p.step, p.octave)) = false := by
          rw [beq_eq_false_iff_ne]
          rintro ⟨⟩
          exact hplace ⟨rfl, rfl⟩
        simp [List.lookup_cons, hne, hplace]

end Part

namespace Part.HasRead

variable {pitches : List (Option Pitch)} {part : Part τ} {events : List PitchEvent}

theorem initial [TimeValue τ] : (Part.initial : Part τ).HasRead pitches [] :=
  ⟨rfl, fun _ _ => rfl, .nil⟩

theorem resolve (h : part.HasRead pitches events) (p : Pitch) :
    part.resolve p = { p with alter := PitchEvent.alteration events p } := by
  unfold Part.resolve PitchEvent.alteration
  rw [h.accidentals, h.key]
  cases p.accidental with
  | some alter => rfl
  | none =>
      cases PitchEvent.carried p.step p.octave events with
      | some alter => rfl
      | none => cases PitchEvent.latestKey events <;> rfl

/-- A note is altered, and its accidental holds from now on. -/
theorem note (h : part.HasRead pitches events) (p : Pitch) {object : StaffObject τ}
    (hobject : object.symbol = .noteRest pitches.length) :
    ((part.remember p).place object).HasRead (pitches ++ [some (part.resolve p)])
      (events ++ [.note p]) where
  key := by
    rw [PitchEvent.latestKey_concat]
    exact (part.key_remember p).trans h.key
  accidentals step octave := by
    rw [PitchEvent.carried_concat, ← h.accidentals]
    exact part.lookup_remember p step octave
  timeline := by
    have htimeline : (part.remember p).timeline = part.timeline := (part.remember_eq (some p)).1
    have hmore := h.timeline.of_morePitches (List.prefix_append _ [some (part.resolve p)])
    rw [place, htimeline]
    refine hmore.place (some (.note p)) (fun number hnumber => ?_) ?_
    · rw [hobject] at hnumber
      obtain rfl := StaffSymbol.noteRest.inj hnumber
      simp
    · simp [hobject, StaffSymbol.pitchEvent?, PitchEvent.sounding, h.resolve]

/-- Something else goes onto the timeline. Nothing is altered. -/
theorem other (h : part.HasRead pitches events) {more : List (Option Pitch)}
    (hpitches : pitches <+: more) {object : StaffObject τ}
    (hobject : ∀ number, object.symbol = .noteRest number → number < more.length)
    (hevent : object.symbol.pitchEvent? more = none) :
    (part.place object).HasRead more events where
  key := h.key
  accidentals := h.accidentals
  timeline := by
    simpa [place] using (h.timeline.of_morePitches hpitches).place none hobject hevent

end Part.HasRead

/-! ## Music -/

/-- What is known of a passage is what is known of its part. -/
def Passage.HasRead (s : Passage τ) (events : List PitchEvent) : Prop :=
  s.part.HasRead (s.linking.notes.map NoteRest.pitch) events

namespace Passage.HasRead

variable [TimeValue τ] {s : Passage τ} {events : List PitchEvent}

omit [TimeValue τ] in
theorem reject (h : s.HasRead events) (rejections : List Rejection) :
    (s.reject rejections).HasRead events := h

omit [TimeValue τ] in
theorem move (h : s.HasRead events) (move : Cursor τ → Cursor τ) :
    (s.mapCursor move).HasRead events := ⟨h.key, h.accidentals, h.timeline⟩

variable (settings : Settings)

theorem placeNote (h : s.HasRead events) {reading : NoteReading} (hreading : reading.IsWritten)
    (position : Position) (inChord : Bool) :
    (s.placeNote settings reading position inChord).HasRead
      (events ++ reading.spec.pitch.toList.map .note) := by
  unfold Passage.HasRead
  rw [s.map_placeNote NoteRest.keeps_pitch settings hreading]
  unfold Passage.placeNote realize
  dsimp only
  have hobject (note : NoteRest τ) : (s.objectOf s.linking.notes.length note).symbol =
      .noteRest (s.linking.notes.map NoteRest.pitch).length := by
    rw [List.length_map]
    rfl
  cases hpitch : reading.spec.pitch with
  | some p => exact h.note p (hobject _)
  | none =>
      rw [Option.toList_none, List.map_nil, List.append_nil]
      refine Part.HasRead.other h (List.prefix_append _ _) (fun number hnumber => ?_) ?_
      · rw [hobject] at hnumber
        obtain rfl := StaffSymbol.noteRest.inj hnumber
        simp
      · rw [hobject]
        simp [StaffSymbol.pitchEvent?]

theorem addNote (h : s.HasRead events) (isNote : Bool) (items : List Node) (position : Position)
    (inChord : Bool) :
    (s.addNote settings isNote items position inChord).1.HasRead
      (events ++ WrittenNote.pitchEvents settings ⟨isNote, items, position⟩) := by
  let w : WrittenNote := ⟨isNote, items, position⟩
  unfold Passage.addNote
  split
  · next reading hreading =>
    rw [WrittenNote.pitchEvents_of_read (w := w) hreading]
    exact h.placeNote settings (NoteReading.isWritten_of_read hreading) position inChord
  · next fault hfault =>
    rw [WrittenNote.pitchEvents_of_error (w := w) hfault, List.append_nil]
    exact h.reject _

theorem addSingle (h : s.HasRead events) (isNote : Bool) (items : List Node)
    (position : Position) :
    (s.addSingle settings isNote items position).HasRead
      (events ++ WrittenNote.pitchEvents settings ⟨isNote, items, position⟩) := by
  have hnote := h.addNote settings isNote items position false
  unfold Passage.addSingle
  generalize s.addNote settings isNote items position false = result at hnote
  obtain ⟨s', duration⟩ := result
  cases duration with
  | none => exact hnote
  | some d => exact hnote.move _

theorem addChordNote (h : s.HasRead events) (first : Option τ) (child : Node) :
    (Passage.addChordNote settings (s, first) child).1.HasRead
      (events ++ child.chordNotes.flatMap (WrittenNote.pitchEvents settings)) := by
  unfold Passage.addChordNote
  dsimp only
  split
  · rw [Node.chordNotes, List.flatMap_singleton]
    exact h.addNote settings true _ _ _
  · next hother =>
    have hnone : child.chordNotes = [] := by
      unfold Node.chordNotes
      split
      · exact absurd rfl (hother _ _)
      · rfl
    rw [hnone, List.flatMap_nil, List.append_nil]
    exact h.reject _

theorem foldl_addChordNote (h : s.HasRead events) (first : Option τ) (children : List Node) :
    (children.foldl (Passage.addChordNote settings) (s, first)).1.HasRead
      (events ++
        (children.flatMap Node.chordNotes).flatMap (WrittenNote.pitchEvents settings)) := by
  induction children generalizing s first events with
  | nil => simpa using h
  | cons child rest ih =>
      simpa using ih (h.addChordNote settings first child)
        (Passage.addChordNote settings (s, first) child).2

theorem addChord (h : s.HasRead events) (children : List Node) (position : Position) :
    (s.addChord settings children position).HasRead
      (events ++
        (children.flatMap Node.chordNotes).flatMap (WrittenNote.pitchEvents settings)) := by
  have hchord := h.foldl_addChordNote settings none children
  unfold Passage.addChord
  generalize children.foldl (Passage.addChordNote settings) (s, none) = result at hchord
  obtain ⟨s', first⟩ := result
  cases first with
  | none => exact hchord.reject _
  | some d => exact hchord.move _

/-! ### Signs -/

omit [TimeValue τ] in
theorem accept {α : Type} (h : s.HasRead events) (position : Position)
    (reading : Except GrammarFault α) {use : α → Passage τ}
    (huse : ∀ value, (use value).HasRead events) :
    (s.accept position reading use).HasRead events := by
  cases reading with
  | ok value => exact huse value
  | error fault => exact h.reject _

theorem addSymbol (h : s.HasRead events) (symbol : StaffSymbol)
    (hsymbol : ∀ number, symbol ≠ .noteRest number)
    (hevent : ∀ pitches, symbol.pitchEvent? pitches = none) (position : Position) :
    (s.addSymbol symbol position).HasRead events :=
  Part.HasRead.other h List.prefix_rfl (fun number hnumber => absurd hnumber (hsymbol number))
    (hevent _)

theorem addKey (h : s.HasRead events) (signature : KeySignature) (position : Position) :
    (s.addKey signature position).HasRead (events ++ [.key signature]) where
  key := by
    rw [PitchEvent.latestKey_concat]
    rfl
  accidentals step octave := by
    rw [PitchEvent.carried_concat]
    exact h.accidentals step octave
  timeline := h.timeline.place (some (.key signature)) nofun rfl

theorem addBarline (h : s.HasRead events) (b : Control.BarlineSpec) (position : Position) :
    (s.addBarline b position).HasRead (events ++ [.barline]) where
  key := by
    rw [PitchEvent.latestKey_concat]
    exact h.key
  accidentals step octave := by
    rw [PitchEvent.carried_concat]
    rfl
  timeline := h.timeline.place (some .barline) nofun rfl

theorem goBack (h : s.HasRead events) (move : Control.Move τ) : (s.goBack move).HasRead events := by
  cases move <;> exact h.move _

theorem goForward (h : s.HasRead events) (move : Control.Move τ) :
    (s.goForward move).HasRead events := by
  cases move <;> exact h.move _

/-! ### All elements -/

/-- Reading an element of music adds its events. -/
theorem read (h : s.HasRead events) (child : Node) :
    (Passage.read settings s child).HasRead (events ++ child.pitchEvents settings) := by
  have hsilent {s' : Passage τ} (h' : s'.HasRead events) : s'.HasRead (events ++ []) := by
    rwa [List.append_nil]
  have hsingle (w : WrittenNote) :
      [w].flatMap (WrittenNote.pitchEvents settings) = w.pitchEvents settings := by
    rw [List.flatMap_singleton]
  cases child with
  | atom kind text position => exact hsilent (h.reject _)
  | element name children position =>
      cases name with
      | note =>
          have hadded := h.addSingle settings true children position
          rwa [← hsingle] at hadded
      | rest =>
          have hadded := h.addSingle settings false children position
          rwa [← hsingle] at hadded
      | chord => exact h.addChord settings children position
      | clef =>
          exact hsilent <| h.accept _ _ fun clef =>
            h.addSymbol (.clef clef) (by simp) (fun _ => rfl) position
      | key =>
          rw [Passage.read, Node.pitchEvents]
          cases Control.readKey (.element .key children position) with
          | ok signature => exact h.addKey signature position
          | error fault => exact hsilent (h.reject _)
      | time =>
          exact hsilent <| h.accept _ _ fun meter =>
            h.addSymbol (.meter meter) (by simp) (fun _ => rfl) position
      | barline =>
          rw [Passage.read, Node.pitchEvents]
          cases Control.readBarline settings (.element .barline children position) with
          | ok b => exact h.addBarline b position
          | error rejection => exact hsilent (h.reject _)
      | volta =>
          exact hsilent <| h.accept _ _ fun volta =>
            h.addSymbol (.volta volta.1 volta.2) (by simp) (fun _ => rfl) position
      | goBack => exact hsilent (h.accept _ _ h.goBack)
      | goForward => exact hsilent (h.accept _ _ h.goForward)
      | _ => exact hsilent (h.reject _)

theorem foldl_read (h : s.HasRead events) (elements : List Node) :
    (elements.foldl (Passage.read settings) s).HasRead
      (events ++ elements.flatMap (Node.pitchEvents settings)) := by
  induction elements generalizing s events with
  | nil => simpa using h
  | cons child rest ih => simpa using ih (h.read settings child)

end Passage.HasRead

/-! ## Instruments and scores -/

variable [TimeValue τ]

/-- The events of an instrument, as they are written. -/
def Node.instrumentEvents (settings : Settings) (n : Node) : List PitchEvent :=
  (musicOf n.children).flatMap (Node.pitchEvents settings)

theorem InstrumentState.hasRead_read (settings : Settings) {s : InstrumentState τ}
    {events : List PitchEvent} (h : s.part.HasRead (s.linking.notes.map NoteRest.pitch) events)
    (child : Node) :
    (read settings s child).part.HasRead ((read settings s child).linking.notes.map NoteRest.pitch)
      (events ++ (musicOf [child]).flatMap (Node.pitchEvents settings)) := by
  have hsilent {s' : InstrumentState τ}
      (h' : s'.part.HasRead (s'.linking.notes.map NoteRest.pitch) events) :
      s'.part.HasRead (s'.linking.notes.map NoteRest.pitch) (events ++ []) := by
    rwa [List.append_nil]
  cases child with
  | atom kind text position => exact hsilent h
  | element name children position =>
      cases name with
      | music =>
          have hstart : Passage.HasRead (⟨s.linking, s.part, {}⟩ : Passage τ) events := h
          rw [musicOf_music]
          exact hstart.foldl_read settings children
      | instrumentName | staves | midi =>
          unfold InstrumentState.read
          dsimp only
          split <;> exact hsilent h
      | _ => exact hsilent h

theorem InstrumentState.hasRead_foldl (settings : Settings) {s : InstrumentState τ}
    {events : List PitchEvent} (h : s.part.HasRead (s.linking.notes.map NoteRest.pitch) events)
    (children : List Node) :
    (children.foldl (read settings) s).part.HasRead
      ((children.foldl (read settings) s).linking.notes.map NoteRest.pitch)
      (events ++ (musicOf children).flatMap (Node.pitchEvents settings)) := by
  induction children generalizing s events with
  | nil => simpa [musicOf] using h
  | cons child rest ih =>
      simpa [musicOf_cons child rest] using ih (hasRead_read settings h child)

/-- The instruments so far have read their events. -/
def ScoreState.HasRead (settings : Settings) (s : ScoreState τ) (elements : List Node) : Prop :=
  List.Forall₂ (fun i element => IsTimelineOf (s.linking.notes.map NoteRest.pitch) i.timeline
    (element.instrumentEvents settings)) s.header.instruments elements

namespace ScoreState.HasRead

variable {settings : Settings} {s : ScoreState τ} {elements : List Node}

/-- An instrument begins anew. Its notes have numbers behind those of the others. -/
theorem read (h : s.HasRead settings elements) (child : Node) :
    (ScoreState.read settings s child).HasRead settings
      (elements ++ [child].filter Node.isInstrument) := by
  cases hchild : child.isInstrument with
  | true =>
      obtain ⟨children, position, rfl⟩ := Node.exists_of_isInstrument hchild
      have hpitches : s.linking.notes.map NoteRest.pitch <+:
          (s.addInstrument settings children).linking.notes.map NoteRest.pitch :=
        (isReadingLaw_pitches settings _).foldl_readScore (s := s) List.prefix_rfl
          [.element .instrument children position]
      have hstart : (InstrumentState.start settings s.linking).part.HasRead
          (s.linking.notes.map NoteRest.pitch) [] := .initial
      have hpart := InstrumentState.hasRead_foldl settings (s := .start settings s.linking) hstart
        children
      exact List.rel_append (h.imp fun _ _ hi => hi.of_morePitches hpitches)
        (.cons hpart.timeline .nil)
  | false =>
      obtain ⟨hinstruments, found, hlinking⟩ := s.read_other settings hchild
      have hnone : [child].filter Node.isInstrument = [] := by simp [hchild]
      unfold ScoreState.HasRead
      rw [hnone, List.append_nil, hinstruments, hlinking]
      exact h

theorem foldl_read (h : s.HasRead settings elements) (children : List Node) :
    (children.foldl (ScoreState.read settings) s).HasRead settings
      (elements ++ children.filter Node.isInstrument) := by
  induction children generalizing s elements with
  | nil => simpa using h
  | cons child rest ih =>
      have hfilter : (child :: rest).filter Node.isInstrument =
          [child].filter Node.isInstrument ++ rest.filter Node.isInstrument := by
        rw [← List.filter_append, List.singleton_append]
      rw [hfilter, ← List.append_assoc]
      exact ih (h.read child)

end ScoreState.HasRead

/-- The notes of each instrument sound as they are written behind what has been read before them. -/
def Score.IsAltered (settings : Settings) (score : Score τ) (element : Node) : Prop :=
  List.Forall₂ (fun i instrument => PitchEvent.AreSounding (instrument.instrumentEvents settings)
    (score.pitchEvents i)) score.instruments (element.children.filter Node.isInstrument)

/-- A note is altered by its accidental, or the latest one for its step and octave in its measure,
or the latest key. An instrument begins without any of them, and each block of its music goes on
with those of the last one. -/
theorem isAltered_of_compile {settings : Settings} {source : String} {analysis : Analysis τ}
    (h : compile settings source = .ok analysis) :
    ∃ tree, parse source = .ok tree ∧
      List.Forall₂ (Score.IsAltered settings) analysis.document.scores tree.scoreElements := by
  obtain ⟨tree, htree, hanalyse⟩ := analyse_of_compile h
  refine ⟨tree, htree, forall₂_scores_of_analyse hanalyse fun titled _ => ?_⟩
  have hstart : ({} : ScoreState τ).HasRead settings [] := .nil
  have hread := hstart.foldl_read titled.1.children
  exact hread.imp fun i element hi => hi.sounding

/-- The natural in front of `f4` holds in the chord and in the next block of music, but not in
another octave and not behind the barline. What is rejected changes nothing, and neither does the
instrument before. -/
theorem isAltered_acrossBlocks :
    let source := "(score (instrument (musicData (key D) (n f4 q) (n =f4 q) (key H) (n ++f4) " ++
      "(chord (n c5 q) (n f4 q))) (musicData (n f4 q) (n f5 q) (barline wrong) (n f4 q) " ++
      "(barline) (n f4 q))) (instrument (musicData (n f4 q))))"
    ∃ analysis : Analysis Rat, compile {} source = .ok analysis ∧
      (analysis.document.scores.map fun score =>
        score.notes.map fun n => n.pitch.map Pitch.alter) =
          [[some 1, some 0, some 1, some 0, some 0, some 1, some 0, some 1, some 0]] ∧
      ∃ tree, parse source = .ok tree ∧
        List.Forall₂ (Score.IsAltered {}) analysis.document.scores tree.scoreElements := by
  intro source
  have hsource : source = String.ofList _ :=
    (congrArg (· ++ _) String.ofList_append.symm).trans String.ofList_append.symm
  have ⟨analysis, h, halters⟩ : ∃ analysis : Analysis Rat, compile {} source = .ok analysis ∧
      (analysis.document.scores.map fun score =>
        score.notes.map fun n => n.pitch.map Pitch.alter) =
          [[some 1, some 0, some 1, some 0, some 0, some 1, some 0, some 1, some 0]] :=
    exists_compile_of_characters hsource (by decide +kernel)
  exact ⟨analysis, h, halters, isAltered_of_compile h⟩

end ScorePlayback
