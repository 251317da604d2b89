import Mathlib.Data.List.Forall2
import ScorePlayback.Proofs.Analysis.CarriedRelations
import ScorePlayback.Proofs.Analysis.MusicReading
import ScorePlayback.Proofs.Analysis.OpenTuplets

/-! # An instrument alone

Two readings of an instrument, one behind other instruments and one without them, go side by side.
The numbers of notes differ by those of the other instruments, and times may differ if a tuplet of
them is still open. Nothing else that is placed depends on them. -/

namespace ScorePlayback

variable {τ : Type} {offset : Nat} {timed : Prop}

/-! ## States that are alike -/

/-- A symbol behind more notes. -/
def StaffSymbol.shift (offset : Nat) : StaffSymbol → StaffSymbol
  | .noteRest note => .noteRest (offset + note)
  | symbol => symbol

/-- Two objects agree up to the numbers of notes, and in their times if these are the same. -/
structure StaffObject.Alike (offset : Nat) (timed : Prop) (a b : StaffObject τ) : Prop where
  symbol : a.symbol = b.symbol.shift offset
  measure : a.measure = b.measure
  voice : a.voice = b.voice
  staff : a.staff = b.staff
  position : a.position = b.position
  time : timed → a.time = b.time
  duration : timed → a.duration = b.duration

structure Part.Alike (offset : Nat) (timed : Prop) (p q : Part τ) : Prop where
  timeline : List.Forall₂ (StaffObject.Alike offset timed) p.timeline q.timeline
  measure : p.cursor.measure = q.cursor.measure
  key : p.key = q.key
  accidentals : p.accidentals = q.accidentals
  cursor : timed → p.cursor = q.cursor

/-- The later links have the same notes, and others in front of them. -/
structure Linking.Alike (offset : Nat) (timed : Prop) (l m : Linking τ) : Prop where
  pitches : ∃ front : List (Option Pitch), front.length = offset ∧
    l.notes.map NoteRest.pitch = front ++ m.notes.map NoteRest.pitch
  tuplets : timed → l.openTuplets = m.openTuplets

structure Passage.Alike (offset : Nat) (timed : Prop) (s t : Passage τ) : Prop where
  linking : s.linking.Alike offset timed t.linking
  part : s.part.Alike offset timed t.part
  inherited : s.inherited = t.inherited

theorem Linking.Alike.length {l m : Linking τ} (h : l.Alike offset timed m) :
    l.notes.length = offset + m.notes.length := by
  obtain ⟨front, rfl, hpitches⟩ := h.pitches
  simpa using congrArg List.length hpitches

theorem Linking.Alike.report {l m : Linking τ} (h : l.Alike offset timed m)
    (found found' : List Diagnostic) : (l.report found).Alike offset timed (m.report found') :=
  ⟨h.pitches, h.tuplets⟩

namespace Part.Alike

variable {p q : Part τ}

theorem resolve (h : p.Alike offset timed q) (pitch : Pitch) :
    p.resolve pitch = q.resolve pitch := by
  rw [Part.resolve, Part.resolve, h.key, h.accidentals]

theorem remember (h : p.Alike offset timed q) (pitch : Option Pitch) :
    (pitch.elim p p.remember).Alike offset timed (pitch.elim q q.remember) := by
  cases pitch with
  | none => exact h
  | some pitch =>
      unfold Option.elim Part.remember
      dsimp only
      split
      · next alter _ =>
        exact ⟨h.timeline, h.measure, h.key,
          congrArg (((pitch.step, pitch.octave), alter) :: ·) h.accidentals, h.cursor⟩
      · exact h

theorem place (h : p.Alike offset timed q) {a b : StaffObject τ} (hab : a.Alike offset timed b) :
    (p.place a).Alike offset timed (q.place b) :=
  ⟨List.rel_append h.timeline (.cons hab .nil), h.measure, h.key, h.accidentals, h.cursor⟩

end Part.Alike

/-- Both notes have been dropped, or neither, and they last equally long if times are the same. -/
inductive SameLength (timed : Prop) : Option τ → Option τ → Prop where
  | none : SameLength timed none none
  | some {d d' : τ} (h : timed → d = d') : SameLength timed (some d) (some d')

namespace Passage.Alike

variable {s t : Passage τ}

theorem reject (h : s.Alike offset timed t) (rejections : List Rejection) :
    (s.reject rejections).Alike offset timed (t.reject rejections) :=
  ⟨h.linking.report _ _, h.part, h.inherited⟩

theorem mapCursor (h : s.Alike offset timed t) {move move' : Cursor τ → Cursor τ}
    (hmeasure : ∀ c, (move c).measure = c.measure) (hmeasure' : ∀ c, (move' c).measure = c.measure)
    (hmove : timed → move = move') :
    (s.mapCursor move).Alike offset timed (t.mapCursor move') where
  linking := h.linking
  part := by
    refine ⟨h.part.timeline, ?_, h.part.key, h.part.accidentals, fun htimed => ?_⟩
    · exact (hmeasure _).trans (h.part.measure.trans (hmeasure' _).symm)
    · show move s.part.cursor = move' t.part.cursor
      rw [hmove htimed, h.part.cursor htimed]
  inherited := h.inherited

variable [TimeValue τ]

/-! ## Notes and chords -/

theorem realize_duration (h : s.Alike offset timed t) (htimed : timed) (spec : NoteSpec)
    (position : Position) (inChord : Bool) :
    (s.realize spec position inChord).duration = (t.realize spec position inChord).duration := by
  have htuplets : s.linking.tuplets.openTuplets = t.linking.tuplets.openTuplets :=
    h.linking.tuplets htimed
  rw [realize, realize, tupletScale_eq, tupletScale_eq, htuplets]

theorem realize_pitch (h : s.Alike offset timed t) (spec : NoteSpec) (position : Position)
    (inChord : Bool) :
    (s.realize spec position inChord).pitch = (t.realize spec position inChord).pitch := by
  have hresolve : s.part.resolve = t.part.resolve := funext h.part.resolve
  rw [realize, realize, hresolve]

theorem objectOf (h : s.Alike offset timed t) (spec : NoteSpec) (position : Position)
    (inChord : Bool) :
    (s.objectOf s.linking.notes.length (s.realize spec position inChord)).Alike offset timed
      (t.objectOf t.linking.notes.length (t.realize spec position inChord)) where
  symbol := congrArg StaffSymbol.noteRest h.linking.length
  measure := h.part.measure
  voice := congrArg (fun inherited : Inherited => spec.voice.getD inherited.voice) h.inherited
  staff := congrArg (fun inherited : Inherited => spec.staff.getD inherited.staff) h.inherited
  position := rfl
  time htimed := congrArg Cursor.time (h.part.cursor htimed)
  duration htimed := h.realize_duration htimed spec position inChord

theorem placeNote (h : s.Alike offset timed t) (settings : Settings) {reading : NoteReading}
    (hreading : reading.IsWritten) (position : Position) (inChord : Bool) :
    (s.placeNote settings reading position inChord).Alike offset timed
      (t.placeNote settings reading position inChord) where
  linking := by
    obtain ⟨front, hfront, hpitches⟩ := h.linking.pitches
    refine ⟨⟨front, hfront, ?_⟩, fun htimed => ?_⟩
    · rw [s.map_placeNote NoteRest.keeps_pitch settings hreading,
        t.map_placeNote NoteRest.keeps_pitch settings hreading, hpitches, h.realize_pitch,
        List.append_assoc]
    · rw [s.openTuplets_placeNote, t.openTuplets_placeNote, h.linking.tuplets htimed]
  part := (h.part.remember reading.spec.pitch).place (h.objectOf reading.spec position inChord)
  inherited := by
    have hobject := h.objectOf reading.spec position inChord
    exact congrArg₂ (fun voice staff => (⟨voice, staff, reading.display⟩ : Inherited))
      hobject.voice hobject.staff

theorem addNote (h : s.Alike offset timed t) (settings : Settings) (isNote : Bool)
    (items : List Node) (position : Position) (inChord : Bool) :
    (s.addNote settings isNote items position inChord).1.Alike offset timed
        (t.addNote settings isNote items position inChord).1 ∧
      SameLength timed (s.addNote settings isNote items position inChord).2
        (t.addNote settings isNote items position inChord).2 := by
  unfold Passage.addNote
  rw [h.inherited]
  split
  · next reading hreading =>
    exact ⟨h.placeNote settings (NoteReading.isWritten_of_read hreading) position inChord,
      .some fun htimed => h.realize_duration htimed reading.spec position inChord⟩
  · exact ⟨h.reject _, .none⟩

/-- The cursor moves behind a note, by its length. -/
theorem advance (h : s.Alike offset timed t) {d d' : τ} (hd : timed → d = d') :
    (s.mapCursor (·.advance d)).Alike offset timed (t.mapCursor (·.advance d')) :=
  h.mapCursor (fun _ => rfl) (fun _ => rfl) fun htimed => by rw [hd htimed]

theorem addSingle (h : s.Alike offset timed t) (settings : Settings) (isNote : Bool)
    (items : List Node) (position : Position) :
    (s.addSingle settings isNote items position).Alike offset timed
      (t.addSingle settings isNote items position) := by
  obtain ⟨hnote, hlength⟩ := h.addNote settings isNote items position false
  unfold Passage.addSingle
  generalize s.addNote settings isNote items position false = first at hnote hlength
  generalize t.addNote settings isNote items position false = second at hnote hlength
  obtain ⟨s', d⟩ := first
  obtain ⟨t', d'⟩ := second
  cases hlength with
  | none => exact hnote
  | some hd => exact hnote.advance hd

theorem addChordNote (h : s.Alike offset timed t) (settings : Settings) {first first' : Option τ}
    (hfirst : SameLength timed first first') (child : Node) :
    (Passage.addChordNote settings (s, first) child).1.Alike offset timed
        (Passage.addChordNote settings (t, first') child).1 ∧
      SameLength timed (Passage.addChordNote settings (s, first) child).2
        (Passage.addChordNote settings (t, first') child).2 := by
  have hisSome : first.isSome = first'.isSome := by cases hfirst <;> rfl
  unfold Passage.addChordNote
  dsimp only
  split
  · next items position =>
    obtain ⟨hnote, hlength⟩ := h.addNote settings true items position first.isSome
    rw [← hisSome]
    cases hfirst with
    | none => exact ⟨hnote, hlength⟩
    | some hd => exact ⟨hnote, .some hd⟩
  · exact ⟨h.reject _, hfirst⟩

theorem addChord (h : s.Alike offset timed t) (settings : Settings) (children : List Node)
    (position : Position) :
    (s.addChord settings children position).Alike offset timed
      (t.addChord settings children position) := by
  have hfold := List.foldl_rel (l := children) (f := Passage.addChordNote settings)
    (g := Passage.addChordNote settings) (a := (s, none)) (b := (t, none))
    (r := fun state state' => state.1.Alike offset timed state'.1 ∧
      SameLength timed state.2 state'.2)
    ⟨h, .none⟩ fun child _ state state' hstate => hstate.1.addChordNote settings hstate.2 child
  unfold Passage.addChord
  generalize children.foldl (Passage.addChordNote settings) (s, none) = first at hfold
  generalize children.foldl (Passage.addChordNote settings) (t, none) = second at hfold
  obtain ⟨s', d⟩ := first
  obtain ⟨t', d'⟩ := second
  obtain ⟨hchord, hlength⟩ := hfold
  cases hlength with
  | none => exact hchord.reject _
  | some hd => exact hchord.advance hd

/-! ## Elements of music -/

omit [TimeValue τ] in
theorem accept {α : Type} (h : s.Alike offset timed t) (position : Position)
    (reading : Except GrammarFault α) {use use' : α → Passage τ}
    (huse : ∀ value, (use value).Alike offset timed (use' value)) :
    (s.accept position reading use).Alike offset timed (t.accept position reading use') := by
  cases reading with
  | ok value => exact huse value
  | error fault => exact h.reject _

theorem mark (h : s.Alike offset timed t) {time time' : τ} (htime : timed → time = time')
    {symbol : StaffSymbol} (hsymbol : symbol.shift offset = symbol) (position : Position) :
    (s.mark time symbol position).Alike offset timed (t.mark time' symbol position) where
  symbol := hsymbol.symm
  measure := h.part.measure
  voice := rfl
  staff := congrArg Inherited.staff h.inherited
  position := rfl
  time := htime
  duration _ := rfl

theorem addSymbol (h : s.Alike offset timed t) {symbol : StaffSymbol}
    (hsymbol : symbol.shift offset = symbol) (position : Position) :
    (s.addSymbol symbol position).Alike offset timed (t.addSymbol symbol position) where
  linking := h.linking
  part := h.part.place
    (h.mark (fun htimed => congrArg Cursor.time (h.part.cursor htimed)) hsymbol position)
  inherited := h.inherited

theorem addKey (h : s.Alike offset timed t) (key : KeySignature) (position : Position) :
    (s.addKey key position).Alike offset timed (t.addKey key position) := by
  have hkey : (StaffSymbol.key key).shift offset = .key key := rfl
  have hsymbol := h.addSymbol hkey position
  exact ⟨h.linking, ⟨hsymbol.part.timeline, h.part.measure, rfl, h.part.accidentals, h.part.cursor⟩,
    h.inherited⟩

theorem addBarline (h : s.Alike offset timed t) (b : Control.BarlineSpec) (position : Position) :
    (s.addBarline b position).Alike offset timed (t.addBarline b position) := by
  have hbarline : (StaffSymbol.barline b.shape b.times).shift offset =
      .barline b.shape b.times := rfl
  have hplaced := h.part.place
    (h.mark (fun htimed => congrArg Cursor.reached (h.part.cursor htimed)) hbarline position)
  exact ⟨h.linking, ⟨hplaced.timeline, congrArg (· + 1) h.part.measure, h.part.key, rfl,
    fun htimed => congrArg Cursor.nextMeasure (h.part.cursor htimed)⟩, h.inherited⟩

theorem goBack (h : s.Alike offset timed t) (move : Control.Move τ) :
    (s.goBack move).Alike offset timed (t.goBack move) := by
  unfold Passage.goBack
  split
  · apply h.mapCursor <;> intros <;> rfl
  · apply h.mapCursor <;> intros <;> rfl

theorem goForward (h : s.Alike offset timed t) (move : Control.Move τ) :
    (s.goForward move).Alike offset timed (t.goForward move) := by
  unfold Passage.goForward
  split
  · apply h.mapCursor <;> intros <;> rfl
  · apply h.mapCursor <;> intros <;> rfl

theorem read (h : s.Alike offset timed t) (settings : Settings) (child : Node) :
    (Passage.read settings s child).Alike offset timed (Passage.read settings t child) := by
  unfold Passage.read
  split
  · exact h.addSingle settings true _ _
  · exact h.addSingle settings false _ _
  · exact h.addChord settings _ _
  · exact h.accept _ _ fun clef => h.addSymbol rfl _
  · exact h.accept _ _ fun key => h.addKey key _
  · exact h.accept _ _ fun meter => h.addSymbol rfl _
  · split
    · exact h.addBarline _ _
    · exact h.reject _
  · exact h.accept _ _ fun bracket => h.addSymbol rfl _
  · exact h.accept _ _ h.goBack
  · exact h.accept _ _ h.goForward
  · exact h.reject _

theorem foldl_read (h : s.Alike offset timed t) (settings : Settings) (elements : List Node) :
    (elements.foldl (Passage.read settings) s).Alike offset timed
      (elements.foldl (Passage.read settings) t) :=
  List.foldl_rel (r := Passage.Alike offset timed) h fun child _ _ _ hst => hst.read settings child

end Passage.Alike

/-! ## Instruments -/

structure InstrumentState.Alike (offset : Nat) (timed : Prop) (s t : InstrumentState τ) :
    Prop where
  linking : s.linking.Alike offset timed t.linking
  part : s.part.Alike offset timed t.part
  name : s.name = t.name
  midi : s.midi = t.midi
  staves : s.staves = t.staves

namespace InstrumentState.Alike

variable [TimeValue τ] {s t : InstrumentState τ}

theorem read (h : s.Alike offset timed t) (settings : Settings) (child : Node) :
    (InstrumentState.read settings s child).Alike offset timed
      (InstrumentState.read settings t child) := by
  have hreject (found : List Diagnostic) : InstrumentState.Alike offset timed
      { s with linking := s.linking.report found } { t with linking := t.linking.report found } :=
    ⟨h.linking.report _ _, h.part, h.name, h.midi, h.staves⟩
  unfold InstrumentState.read
  split
  · split
    · exact ⟨h.linking, h.part, rfl, h.midi, h.staves⟩
    · exact hreject _
  · rw [h.midi]
    split
    · exact ⟨h.linking, h.part, h.name, rfl, h.staves⟩
    · exact hreject _
  · split
    · exact ⟨h.linking, h.part, h.name, h.midi, rfl⟩
    · exact hreject _
  · next elements _ =>
    have hstart : Passage.Alike offset timed ({ linking := s.linking, part := s.part } : Passage τ)
        { linking := t.linking, part := t.part } := ⟨h.linking, h.part, rfl⟩
    have hmusic := hstart.foldl_read settings elements
    exact ⟨hmusic.linking, hmusic.part, h.name, h.midi, h.staves⟩
  · exact hreject _

theorem foldl_read {l m : Linking τ} (h : l.Alike offset timed m) (settings : Settings)
    (children : List Node) :
    (children.foldl (InstrumentState.read settings) (.start settings l)).Alike offset timed
      (children.foldl (InstrumentState.read settings) (.start settings m)) :=
  List.foldl_rel (r := InstrumentState.Alike offset timed)
    ⟨h, ⟨.nil, rfl, rfl, rfl, fun _ => rfl⟩, rfl, rfl, rfl⟩
    fun child _ _ _ hst => hst.read settings child

end InstrumentState.Alike

/-! ## Scores -/

variable [TimeValue τ]

namespace ScoreState

theorem foldl_others (settings : Settings) (s : ScoreState τ) {children : List Node}
    (hchildren : ∀ child ∈ children, child.isInstrument = false) :
    (children.foldl (ScoreState.read settings) s).header.instruments = s.header.instruments ∧
      ∃ found, (children.foldl (ScoreState.read settings) s).linking = s.linking.report found := by
  induction children generalizing s with
  | nil => exact ⟨rfl, [], by rw [Linking.report, List.append_nil]; rfl⟩
  | cons child rest ih =>
      obtain ⟨hchild, hrest⟩ := List.forall_mem_cons.mp hchildren
      obtain ⟨hinstruments, found, hlinking⟩ := s.read_other settings hchild
      obtain ⟨hinstruments', found', hlinking'⟩ := ih (ScoreState.read settings s child) hrest
      refine ⟨hinstruments'.trans hinstruments, found ++ found', hlinking'.trans ?_⟩
      rw [hlinking, Linking.report, Linking.report, Linking.report, List.append_assoc]

theorem length_instruments (settings : Settings) (s : ScoreState τ) (children : List Node) :
    (children.foldl (ScoreState.read settings) s).header.instruments.length =
      s.header.instruments.length + children.countP Node.isInstrument := by
  induction children generalizing s with
  | nil => rfl
  | cons child rest ih =>
      rw [List.foldl_cons, ih, List.countP_cons]
      cases hchild : child.isInstrument with
      | false => rw [(s.read_other settings hchild).1]; rfl
      | true =>
          obtain ⟨children, position, rfl⟩ := Node.exists_of_isInstrument hchild
          rw [ScoreState.read, ScoreState.addInstrument, List.length_append, List.length_singleton,
            if_pos rfl, Nat.add_assoc, Nat.add_comm 1]

end ScoreState

/-- The pitches that have been read stay in front. -/
theorem isReadingLaw_pitches (settings : Settings) (front : List (Option Pitch)) :
    IsReadingLaw settings fun _ (l : Linking τ) _ => front <+: l.notes.map NoteRest.pitch where
  report _ h := h
  object _ h := h
  note := fun {_ s _} position inChord hreading h => by
    rw [s.map_placeNote NoteRest.keeps_pitch settings hreading]
    exact h.trans (List.prefix_append _ _)
  complete h := h

/-- What an instrument with a number keeps of a score that has it alone. `start` are the links of
the score where the instrument begins. -/
structure Score.MatchesAlone (start : Linking τ) (number : Nat) (score alone : Score τ) : Prop where
  /-- Its timeline is the same up to the numbers of notes, in time too if no tuplet is open. -/
  timeline : ∃ i j, score.instruments[number]? = some i ∧ alone.instruments = [j] ∧
    i.name = j.name ∧ i.midi = j.midi ∧ i.staves = j.staves ∧
    List.Forall₂ (StaffObject.Alike start.notes.length (start.tuplets.pending = [])) i.timeline
      j.timeline
  pitches : ∀ k, ∀ note ∈ alone.notes[k]?,
    ∃ note' ∈ score.notes[start.notes.length + k]?, note'.pitch = note.pitch
  /-- Relations join it to instruments before it only if they have been open there. -/
  relations : ∀ r ∈ score.relations, start.Separates r.kind r.parts

omit [TimeValue τ] in
/-- Where an instrument begins that is alone, there are only problems in the links. -/
theorem Linking.alike_report (l : Linking τ) (found : List Diagnostic) :
    l.Alike l.notes.length (l.tuplets.pending = []) (({} : Linking τ).report found) where
  pitches := ⟨l.notes.map NoteRest.pitch, List.length_map _, (List.append_nil _).symm⟩
  tuplets hpending := by
    rw [Linking.openTuplets, Registry.openTuplets, hpending]
    rfl

omit [TimeValue τ] in
/-- The pitches of an instrument are found in the score behind those of the instruments before. -/
theorem Linking.Alike.exists_pitch {l m : Linking τ} {timed : Prop} {offset : Nat}
    (h : l.Alike offset timed m) {notes : List (NoteRest τ)}
    (hnotes : l.notes.map NoteRest.pitch <+: notes.map NoteRest.pitch) {k : Nat} {note : NoteRest τ}
    (hnote : m.notes[k]? = some note) :
    ∃ note' ∈ notes[offset + k]?, note'.pitch = note.pitch := by
  obtain ⟨front, rfl, hpitches⟩ := h.pitches
  obtain ⟨behind, hbehind⟩ := hnotes
  have hpitch : (notes.map NoteRest.pitch)[front.length + k]? = some note.pitch := by
    obtain ⟨hk, -⟩ := List.getElem?_eq_some_iff.mp hnote
    rw [← hbehind, hpitches, List.append_assoc, List.getElem?_append_right (Nat.le_add_right _ _),
      Nat.add_sub_cancel_left, List.getElem?_append_left (by simpa using hk), List.getElem?_map,
      hnote, Option.map_some]
  rw [List.getElem?_map, Option.map_eq_some_iff] at hpitch
  exact hpitch

/-- Up to tuplets and other relations that are open when an instrument begins, its analysis does not
depend on the other instruments of the score. -/
theorem analyseScore_matchesAlone (settings : Settings) (before after children : List Node)
    (position : Position) :
    Score.MatchesAlone (before.foldl (ScoreState.read settings) ({} : ScoreState τ)).linking
      (before.countP Node.isInstrument)
      (analyseScore settings (before ++ .element .instrument children position :: after)).score
      (analyseScore settings (before.filter (!·.isInstrument) ++
        .element .instrument children position :: after.filter (!·.isInstrument))).score := by
  have hothers (nodes : List Node) :
      ∀ child ∈ nodes.filter (!·.isInstrument), child.isInstrument = false := fun child hchild => by
    simpa using (List.mem_filter.mp hchild).2
  let s : ScoreState τ := before.foldl (ScoreState.read settings) {}
  let t : ScoreState τ := (before.filter (!·.isInstrument)).foldl (ScoreState.read settings) {}
  let instrument := children.foldl (InstrumentState.read settings) (.start settings s.linking)
  let same := children.foldl (InstrumentState.read settings) (.start settings t.linking)
  have hscore : (before ++ .element .instrument children position :: after).foldl
      (ScoreState.read settings) {} =
        after.foldl (ScoreState.read settings) (s.addInstrument settings children) := by
    rw [List.foldl_append, List.foldl_cons]
    rfl
  have halone : (before.filter (!·.isInstrument) ++
      .element .instrument children position :: after.filter (!·.isInstrument)).foldl
        (ScoreState.read settings) {} =
          (after.filter (!·.isInstrument)).foldl (ScoreState.read settings)
            (t.addInstrument settings children) := by
    rw [List.foldl_append, List.foldl_cons]
    rfl
  obtain ⟨htinstruments, found, htlinking⟩ :=
    ScoreState.foldl_others settings ({} : ScoreState τ) (hothers before)
  obtain ⟨hinstruments, found', hlinking⟩ :=
    ScoreState.foldl_others settings (t.addInstrument settings children) (hothers after)
  have hstart : s.linking.Alike s.linking.notes.length (s.linking.tuplets.pending = []) t.linking :=
    htlinking ▸ s.linking.alike_report found
  have halike : instrument.Alike _ _ same := .foldl_read hstart settings children
  refine ⟨⟨instrument.finish, same.finish, ?_, ?_, halike.name, halike.midi, halike.staves,
    halike.part.timeline⟩, fun k note hnote => ?_, ?_⟩
  · have hnumber : s.header.instruments.length = before.countP Node.isInstrument := by
      simpa using ScoreState.length_instruments settings ({} : ScoreState τ) before
    obtain ⟨behind, hbehind⟩ :=
      ScoreState.instruments_prefix settings (s.addInstrument settings children) after
    unfold analyseScore
    rw [hscore, ← hnumber]
    dsimp only
    rw [← hbehind, ScoreState.addInstrument, List.append_assoc,
      List.getElem?_append_right (Nat.le_refl _), Nat.sub_self]
    rfl
  · unfold analyseScore
    rw [halone]
    dsimp only
    rw [hinstruments, ScoreState.addInstrument, htinstruments]
    rfl
  · have hpitches : instrument.linking.notes.map NoteRest.pitch <+: _ :=
      (isReadingLaw_pitches settings (instrument.linking.notes.map NoteRest.pitch)).foldl_readScore
        (s := s.addInstrument settings children) List.prefix_rfl after
    unfold analyseScore at hnote ⊢
    rw [halone] at hnote
    rw [hscore]
    dsimp only at hnote ⊢
    rw [hlinking] at hnote
    exact halike.linking.exists_pitch hpitches hnote
  · intro r hr
    unfold analyseScore at hr
    rw [List.foldl_append] at hr
    exact separates_of_mem_relations settings before _ r hr

/-- An instrument with one quarter note and a relation marked on it. -/
def markedNote (pitch : String) (markers : List Node) : Node :=
  let here : Position := ⟨1, 1⟩
  let word (text : String) : Node := .atom .label text here
  .element .instrument
    [.element .music [.element .note (word pitch :: word "q" :: markers) here] here] here

/-- A tuplet that is open shortens the note of the next instrument, and a slur that is open is
closed by it. -/
theorem analyseScore_carriesOver :
    let here : Position := ⟨1, 1⟩
    let word (text : String) : Node := .atom .label text here
    let openTuplet : Node := .element .tuplet
      [word "+", .atom .number "3" here, .atom .number "2" here] here
    let slur (role : String) : Node := .element .slur [word role] here
    let durations (children : List Node) : List (List Rat) :=
      (analyseScore {} children).score.instruments.map fun i =>
        i.timeline.map fun object => object.duration
    let relations (children : List Node) : List Relation :=
      (analyseScore {} children : ScoreAnalysis Rat).score.relations
    durations [markedNote "c4" [openTuplet], markedNote "d4" []] = [[128 / 3], [128 / 3]] ∧
      durations [markedNote "d4" []] = [[64]] ∧
      relations [markedNote "c4" [slur "start"], markedNote "d4" [slur "stop"]] =
        [⟨.slur, [0, 1], .slur⟩] ∧
      relations [markedNote "d4" [slur "stop"]] = [] := by
  decide +kernel

end ScorePlayback
