import ScorePlayback.Compile
import ScorePlayback.Proofs.Analysis.LinkSteps
import ScorePlayback.Proofs.Sound.Unheard

/-! # Beams decide nothing

Nothing that is read looks at the beams that have been written on notes. So two runs that only
differ by whether note values decide beams differ by nothing but the beams of notes. -/

namespace ScorePlayback

/-- States that have the beams of notes. -/
class HasBeams (σ : Type) where
  unbeamed : σ → σ

open HasBeams (unbeamed)

/-- States that are the same but for beams. -/
def SameButBeams {σ : Type} [HasBeams σ] (s s' : σ) : Prop := unbeamed s = unbeamed s'

/-- A step whose outcome depends neither on beams nor on whether note values decide them, but for
beams. -/
def IgnoresBeams {σ ρ : Type} [HasBeams σ] [HasBeams ρ] (f : Settings → σ → ρ) : Prop :=
  ∀ settings autoBeam s s', SameButBeams s s' →
    SameButBeams (f settings s) (f { settings with autoBeam } s')

namespace IgnoresBeams

variable {σ ρ κ υ : Type} [HasBeams σ] [HasBeams ρ] [HasBeams υ]

theorem of_unbeamed {f : Settings → σ → ρ}
    (h : ∀ settings autoBeam s, unbeamed (f settings s) =
      unbeamed (f { settings with autoBeam } (unbeamed s))) : IgnoresBeams f := by
  intro settings autoBeam s s' hs
  have h' := h { settings with autoBeam } autoBeam s'
  exact (h settings autoBeam s).trans (hs ▸ h'.symm)

/-- A step that touches neither the settings nor beams. -/
theorem of_comm {f : σ → σ} (h : ∀ s, unbeamed (f s) = f (unbeamed s)) :
    IgnoresBeams fun _ s => f s := fun _ _ s s' hs =>
  (h s).trans ((congrArg f hs).trans (h s').symm)

theorem id : IgnoresBeams fun _ (s : σ) => s := fun _ _ _ _ hs => hs

theorem comp {f : Settings → σ → ρ} {g : Settings → ρ → υ} (hg : IgnoresBeams g)
    (hf : IgnoresBeams f) : IgnoresBeams fun settings s => g settings (f settings s) :=
  fun settings autoBeam s s' h => hg settings autoBeam _ _ (hf settings autoBeam s s' h)

theorem foldl {f : Settings → σ → κ → σ} (hf : ∀ x, IgnoresBeams fun settings s => f settings s x)
    (xs : List κ) : IgnoresBeams fun settings s => xs.foldl (f settings) s :=
  fun settings autoBeam _ _ h =>
    List.foldl_rel h fun x _ s s' hs => hf x settings autoBeam s s' hs

theorem ite {c : Bool} {f g : Settings → σ → ρ} (hf : IgnoresBeams f) (hg : IgnoresBeams g) :
    IgnoresBeams fun settings s => if c then f settings s else g settings s := by
  cases c with
  | true => exact hf
  | false => exact hg

end IgnoresBeams

/-! ## Links -/

variable {τ : Type}

@[simp] theorem NoteRest.unbeamed_comp_unbeamed :
    NoteRest.unbeamed ∘ NoteRest.unbeamed = (NoteRest.unbeamed : NoteRest τ → NoteRest τ) := rfl

instance : HasBeams (Linking τ) where
  unbeamed l := { l with notes := l.notes.map NoteRest.unbeamed }

namespace Linking

variable (l : Linking τ)

theorem unbeamed_unbeamed : unbeamed (unbeamed l) = unbeamed l := by
  simp [unbeamed]

theorem unbeamed_addNote (note : NoteRest τ) :
    unbeamed (l.addNote note) = (unbeamed l).addNote note.unbeamed := by
  simp [unbeamed, addNote]

theorem unbeamed_addRelation (r : Relation) :
    unbeamed (l.addRelation r) = (unbeamed l).addRelation r := by
  have hnotes : (r.parts.foldl (fun notes part =>
      notes.modify part (NoteRest.link l.relations.length)) l.notes).map NoteRest.unbeamed =
        r.parts.foldl (fun notes part => notes.modify part (NoteRest.link l.relations.length))
          (l.notes.map NoteRest.unbeamed) := by
    generalize l.notes = notes
    induction r.parts generalizing notes with
    | nil => rfl
    | cons part parts ih =>
        have hmodify : (notes.modify part (NoteRest.link l.relations.length)).map
            NoteRest.unbeamed =
              (notes.map NoteRest.unbeamed).modify part (NoteRest.link l.relations.length) :=
          map_modify (f := NoteRest.link _) (g := NoteRest.unbeamed) (fun _ => rfl) notes part
        rw [List.foldl_cons, List.foldl_cons, ih, hmodify]
  exact congrArg (fun notes => { l with relations := l.relations ++ [r], notes }) hnotes

theorem unbeamed_addClosed {π : Type} (closed : Option (ClosedRelation π)) :
    unbeamed (l.addClosed closed) = (unbeamed l).addClosed closed := by
  cases closed with
  | none => rfl
  | some c => exact unbeamed_addRelation l c.relation

theorem unbeamed_writeBeam (parts : List (Nat × List BeamSegment)) :
    unbeamed (l.writeBeam parts) = unbeamed l :=
  congrArg (fun notes => { l with notes }) (map_unbeamed_writeBeam l parts)

theorem unbeamed_beamAutomatically (settings : Settings) (members : List Nat) :
    unbeamed (l.beamAutomatically settings members) = unbeamed l := by
  unfold beamAutomatically
  split
  · exact unbeamed_writeBeam l _
  · rfl

theorem unbeamed_addBeam (settings : Settings) (parts : List (Nat × List BeamSegment)) :
    unbeamed (l.addBeam settings parts) =
      (unbeamed l).addRelation ⟨.beam, parts.map Prod.fst, .beam⟩ := by
  unfold addBeam
  rw [unbeamed_addRelation]
  split
  · rw [unbeamed_writeBeam]
  · rw [unbeamed_beamAutomatically]

theorem unbeamed_addPlainBeam (settings : Settings) (members : List Nat) :
    unbeamed (l.addPlainBeam settings members) =
      (unbeamed l).addRelation ⟨.beam, members, .beam⟩ := by
  rw [addPlainBeam, unbeamed_addRelation, unbeamed_beamAutomatically]

theorem pitchOf_unbeamed : (unbeamed l).pitchOf = l.pitchOf := by
  funext note
  simp only [pitchOf, unbeamed, List.getElem?_map, Option.bind_map]
  rfl

theorem offer_unbeamed [TimeValue τ] (t : LegacyTie τ) (note : Nat) (time : τ) :
    t.offer (unbeamed l).notes note time = t.offer l.notes note time := by
  have hpitch (note : Nat) : ((l.notes.map NoteRest.unbeamed)[note]?.bind NoteRest.pitch) =
      l.notes[note]?.bind NoteRest.pitch := by
    simp only [List.getElem?_map, Option.bind_map]
    rfl
  unfold LegacyTie.offer
  simp only [unbeamed, List.getElem?_map]
  cases t.pending with
  | none => rfl
  | some tie =>
      cases l.notes[note]? with
      | none => rfl
      | some candidate => simp only [Option.map_some, LegacyTie.join, hpitch]; rfl

/-! ### Markers and legacy marks -/

theorem ignoresBeams_applyMarker (note : Nat) (position : Position) (m : Marker) :
    IgnoresBeams fun settings (l : Linking τ) => l.applyMarker settings note position m := by
  refine .of_unbeamed fun settings autoBeam l => ?_
  cases m with
  | tie key role | slur key role | tupletStart key spec | tupletEnd key =>
      simp only [applyMarker, pitchOf_unbeamed, unbeamed_addClosed]
      simp [unbeamed, report]
  | beam key role segments =>
      have hmark : (unbeamed l).beams.mark .beam (unbeamed l).pitchOf
          ⟨key, role, note, position, segments⟩ =
            l.beams.mark .beam l.pitchOf ⟨key, role, note, position, segments⟩ := by
        rw [pitchOf_unbeamed]
        rfl
      simp only [applyMarker, hmark]
      split
      · simp only [unbeamed_addBeam]
        simp [unbeamed, report]
      · simp [unbeamed, report]

theorem ignoresBeams_applyMarkers (note : Nat) (position : Position) (inChord : Bool)
    (markers : List Marker) :
    IgnoresBeams fun settings (l : Linking τ) =>
      l.applyMarkers settings note position inChord markers := by
  have hfold := IgnoresBeams.foldl (fun m => ignoresBeams_applyMarker (τ := τ) note position m)
    markers
  have hcontinue : IgnoresBeams fun _ (l : Linking τ) =>
      { l with tuplets := l.tuplets.continueAll .tuplet note position } :=
    .of_unbeamed fun _ _ l => by simp [unbeamed]
  exact .ite hfold (hcontinue.comp hfold)

theorem ignoresBeams_closeLegacyTie [TimeValue τ] (note : Nat) (time : τ) :
    IgnoresBeams fun _ (l : Linking τ) => l.closeLegacyTie note time := by
  refine .of_unbeamed fun settings autoBeam l => ?_
  have hoffer : (unbeamed l).legacyTie.offer (unbeamed l).notes note time =
      l.legacyTie.offer l.notes note time := l.offer_unbeamed l.legacyTie note time
  simp only [closeLegacyTie, hoffer]
  split
  · simp only [unbeamed_addRelation]
    simp [unbeamed, report]
  · simp [unbeamed, report]

theorem ignoresBeams_startLegacyTie (tie : PendingTie τ) :
    IgnoresBeams fun _ (l : Linking τ) => l.startLegacyTie tie :=
  .of_unbeamed fun _ _ l => by simp [startLegacyTie, unbeamed, report]

theorem ignoresBeams_applyLegacyBeam (note : Nat) (position : Position) (inChord : Bool)
    (mark : Option BeamMark) :
    IgnoresBeams fun settings (l : Linking τ) =>
      l.applyLegacyBeam settings note position inChord mark := by
  refine .of_unbeamed fun settings autoBeam l => ?_
  have hleave : (unbeamed l).legacyBeams.leave note position = l.legacyBeams.leave note position :=
    rfl
  unfold applyLegacyBeam
  split
  · simp [unbeamed]
  · simp only [hleave]
    split
    · simp only [unbeamed_addPlainBeam]
      simp [unbeamed, report]
    · simp [unbeamed, report]
  · split
    · exact (unbeamed_unbeamed l).symm
    · simp [unbeamed]

theorem ignoresBeams_reject (rejections : List Rejection) :
    IgnoresBeams fun _ (l : Linking τ) => l.reject rejections := .of_comm fun _ => rfl

theorem ignoresBeams_addNote (note : NoteRest τ) :
    IgnoresBeams fun _ (l : Linking τ) => l.addNote note := by
  intro settings autoBeam l l' h
  show unbeamed (l.addNote note) = unbeamed (l'.addNote note)
  rw [unbeamed_addNote, unbeamed_addNote, show unbeamed l = unbeamed l' from h]

/-- What is still open at the end does not depend on beams either. -/
theorem ignoresBeams_finish : IgnoresBeams fun _ (l : Linking τ) => l.finish :=
  .of_comm fun _ => rfl

theorem notes_of_sameButBeams {l l' : Linking τ} (h : SameButBeams l l') :
    l.notes.map NoteRest.unbeamed = l'.notes.map NoteRest.unbeamed :=
  congrArg (fun k : Linking τ => k.notes) h

theorem tuplets_of_sameButBeams {l l' : Linking τ} (h : SameButBeams l l') :
    l.tuplets = l'.tuplets := by
  have htuplets : (unbeamed l).tuplets = (unbeamed l').tuplets := congrArg Linking.tuplets h
  exact htuplets

end Linking

/-! ## Music -/

instance : HasBeams (Passage τ) where
  unbeamed s := { s with linking := unbeamed s.linking }

instance {κ : Type} : HasBeams (Passage τ × κ) where
  unbeamed state := (unbeamed state.1, state.2)

namespace Passage

theorem sameButBeams_iff {s s' : Passage τ} : SameButBeams s s' ↔
    SameButBeams s.linking s'.linking ∧ s.part = s'.part ∧ s.inherited = s'.inherited :=
  Passage.mk.injEq .. |>.to_iff

theorem ignoresBeams_reject (rejections : List Rejection) :
    IgnoresBeams fun _ (s : Passage τ) => s.reject rejections := .of_comm fun _ => rfl

theorem ignoresBeams_mapCursor (move : Cursor τ → Cursor τ) :
    IgnoresBeams fun _ (s : Passage τ) => s.mapCursor move := .of_comm fun _ => rfl

variable [TimeValue τ]

theorem realize_of_sameButBeams {s s' : Passage τ} (h : SameButBeams s s') (spec : NoteSpec)
    (position : Position) (inChord : Bool) :
    s.realize spec position inChord = s'.realize spec position inChord := by
  obtain ⟨hlinking, hpart, hinherited⟩ := sameButBeams_iff.mp h
  unfold realize
  rw [hpart, hinherited, Linking.tuplets_of_sameButBeams hlinking]

theorem ignoresBeams_placeNote (reading : NoteReading) (position : Position) (inChord : Bool) :
    IgnoresBeams fun settings (s : Passage τ) =>
      s.placeNote settings reading position inChord := by
  intro settings autoBeam s s' h
  obtain ⟨hlinking, hpart, hinherited⟩ := sameButBeams_iff.mp h
  have hnote := realize_of_sameButBeams h reading.spec position inChord
  have hnumber : s.linking.notes.length = s'.linking.notes.length := by
    simpa using congrArg List.length (Linking.notes_of_sameButBeams hlinking)
  have hlinks (note : NoteRest τ) (number : Nat) (time : τ) (tie : PendingTie τ) :=
    (Linking.ignoresBeams_applyMarkers number position inChord reading.spec.markers).comp <|
      (Linking.ignoresBeams_applyLegacyBeam number position inChord reading.spec.legacyBeam).comp <|
      (IgnoresBeams.ite (c := note.pitch.isSome && reading.spec.legacyTie)
        (Linking.ignoresBeams_startLegacyTie tie) .id).comp <|
      (IgnoresBeams.ite (c := note.pitch.isSome) (Linking.ignoresBeams_closeLegacyTie number time)
        .id).comp <|
      (Linking.ignoresBeams_addNote note).comp (Linking.ignoresBeams_reject reading.rejections)
  unfold placeNote
  dsimp only
  unfold objectOf
  rw [← hnote, ← hnumber, ← hpart]
  exact sameButBeams_iff.mpr ⟨hlinks _ _ _ _ settings autoBeam _ _ hlinking, rfl, rfl⟩

theorem ignoresBeams_addNote (isNote : Bool) (items : List Node) (position : Position)
    (inChord : Bool) : IgnoresBeams fun settings (s : Passage τ) =>
      s.addNote settings isNote items position inChord := by
  intro settings autoBeam s s' h
  have hread (display : TupletDisplay) :
      NoteReading.read { settings with autoBeam } display isNote items =
        NoteReading.read settings display isNote items := rfl
  obtain ⟨-, -, hinherited⟩ := sameButBeams_iff.mp h
  unfold addNote
  dsimp only
  rw [hread, hinherited]
  cases NoteReading.read settings s'.inherited.display isNote items with
  | ok reading =>
      dsimp only
      rw [realize_of_sameButBeams h]
      exact congrArg (·, _)
        (ignoresBeams_placeNote reading position inChord settings autoBeam _ _ h)
  | error fault => exact congrArg (·, _) (ignoresBeams_reject _ settings autoBeam _ _ h)

theorem ignoresBeams_addSingle (isNote : Bool) (items : List Node) (position : Position) :
    IgnoresBeams fun settings (s : Passage τ) => s.addSingle settings isNote items position := by
  intro settings autoBeam s s' h
  have hadd := ignoresBeams_addNote isNote items position false settings autoBeam s s' h
  unfold addSingle
  dsimp only at hadd ⊢
  generalize s.addNote settings isNote items position false = result at hadd ⊢
  generalize s'.addNote { settings with autoBeam } isNote items position false = result' at hadd ⊢
  obtain ⟨t, duration⟩ := result
  obtain ⟨t', duration'⟩ := result'
  obtain ⟨ht, rfl⟩ : SameButBeams t t' ∧ duration = duration' := Prod.mk.inj hadd
  cases duration with
  | some duration => exact ignoresBeams_mapCursor _ settings autoBeam t t' ht
  | none => exact ht

theorem ignoresBeams_addChordNote (child : Node) :
    IgnoresBeams fun settings (state : Passage τ × Option τ) =>
      addChordNote settings state child := by
  rintro settings autoBeam ⟨s, first⟩ ⟨s', first'⟩ h
  obtain ⟨hs, rfl⟩ : SameButBeams s s' ∧ first = first' := Prod.mk.inj h
  unfold addChordNote
  dsimp only
  split
  · next items position =>
    have hadd := ignoresBeams_addNote true items position first.isSome settings autoBeam s s' hs
    obtain ⟨ht, hduration⟩ := Prod.mk.inj hadd
    exact Prod.ext ht (congrArg (first <|> ·) hduration)
  · exact Prod.ext (ignoresBeams_reject _ settings autoBeam s s' hs) rfl

theorem ignoresBeams_addChord (children : List Node) (position : Position) :
    IgnoresBeams fun settings (s : Passage τ) => s.addChord settings children position := by
  intro settings autoBeam s s' h
  have hfold := IgnoresBeams.foldl (ignoresBeams_addChordNote (τ := τ)) children settings autoBeam
    (s, none) (s', none) (congrArg (·, none) h)
  unfold addChord
  dsimp only at hfold ⊢
  generalize children.foldl (addChordNote settings) (s, none) = result at hfold ⊢
  generalize children.foldl (addChordNote { settings with autoBeam }) (s', none) = result'
    at hfold ⊢
  obtain ⟨t, first⟩ := result
  obtain ⟨t', first'⟩ := result'
  obtain ⟨ht, rfl⟩ : SameButBeams t t' ∧ first = first' := Prod.mk.inj hfold
  cases first with
  | some duration => exact ignoresBeams_mapCursor _ settings autoBeam t t' ht
  | none => exact ignoresBeams_reject _ settings autoBeam t t' ht

omit [TimeValue τ] in
theorem ignoresBeams_accept {α : Type} (position : Position) (reading : Except GrammarFault α)
    {use : Passage τ → α → Passage τ}
    (huse : ∀ value s, unbeamed (use s value) = use (unbeamed s) value) :
    IgnoresBeams fun _ (s : Passage τ) => s.accept position reading (use s) := by
  refine .of_comm fun s => ?_
  cases reading with
  | ok value => exact huse value s
  | error fault => rfl

/-- One child of a block of music. -/
theorem ignoresBeams_read (child : Node) :
    IgnoresBeams fun settings (s : Passage τ) => read settings s child := by
  cases child with
  | atom kind text position => exact ignoresBeams_reject _
  | element name children position =>
      cases name with
      | note => exact ignoresBeams_addSingle true children position
      | rest => exact ignoresBeams_addSingle false children position
      | chord => exact ignoresBeams_addChord children position
      | clef | key | time | volta => exact ignoresBeams_accept position _ fun _ _ => rfl
      | goBack | goForward =>
          refine ignoresBeams_accept position _ fun move _ => ?_
          cases move <;> rfl
      | barline =>
          intro settings autoBeam s s' h
          have hread : Control.readBarline { settings with autoBeam } =
              Control.readBarline settings := rfl
          unfold read
          dsimp only
          rw [hread]
          cases Control.readBarline settings (.element .barline children position) with
          | ok b =>
              exact IgnoresBeams.of_comm (f := fun s : Passage τ => s.addBarline b position)
                (fun _ => rfl) settings autoBeam s s' h
          | error rejection => exact ignoresBeams_reject _ settings autoBeam s s' h
      | _ => exact ignoresBeams_reject _

end Passage

/-! ## From instruments to scores -/

instance : HasBeams (InstrumentState τ) where
  unbeamed s := { s with linking := unbeamed s.linking }

instance : HasBeams (ScoreState τ) where
  unbeamed s := { s with linking := unbeamed s.linking }

namespace InstrumentState

theorem sameButBeams_iff {s s' : InstrumentState τ} : SameButBeams s s' ↔
    SameButBeams s.linking s'.linking ∧ s.part = s'.part ∧ s.name = s'.name ∧ s.midi = s'.midi ∧
      s.staves = s'.staves := InstrumentState.mk.injEq .. |>.to_iff

variable [TimeValue τ]

theorem ignoresBeams_addMusic (children : List Node) :
    IgnoresBeams fun settings (s : InstrumentState τ) => s.addMusic settings children := by
  intro settings autoBeam s s' h
  obtain ⟨hlinking, hpart, hrest⟩ := sameButBeams_iff.mp h
  have hfold := IgnoresBeams.foldl (Passage.ignoresBeams_read (τ := τ)) children settings autoBeam
    { linking := s.linking, part := s.part } { linking := s'.linking, part := s'.part }
    (Passage.sameButBeams_iff.mpr ⟨hlinking, hpart, rfl⟩)
  obtain ⟨hlinking', hpart', -⟩ := Passage.sameButBeams_iff.mp hfold
  exact sameButBeams_iff.mpr ⟨hlinking', hpart', hrest⟩

theorem ignoresBeams_read (child : Node) :
    IgnoresBeams fun settings (s : InstrumentState τ) => read settings s child := by
  rintro settings autoBeam ⟨l, part, name, midi, staves⟩ ⟨l', part', name', midi', staves'⟩ h
  obtain ⟨hl, rfl, rfl, rfl, rfl⟩ := sameButBeams_iff.mp h
  have hkeep {l l' : Linking τ} (hl : SameButBeams l l') (name : Option String) (midi : MidiInfo)
      (staves : Nat) : SameButBeams (⟨l, part, name, midi, staves⟩ : InstrumentState τ)
        ⟨l', part, name, midi, staves⟩ := sameButBeams_iff.mpr ⟨hl, rfl, rfl, rfl, rfl⟩
  have hreject (r : Rejection) : SameButBeams (l.reject [r]) (l'.reject [r]) :=
    Linking.ignoresBeams_reject [r] settings autoBeam l l' hl
  cases child with
  | atom kind text position => exact hkeep (hreject _) name midi staves
  | element name children position =>
      cases name with
      | instrumentName | midi | staves =>
          unfold read
          dsimp only
          split
          · exact hkeep hl _ _ _
          · exact hkeep (hreject _) _ _ _
      | music => exact ignoresBeams_addMusic children settings autoBeam _ _ h
      | _ => exact hkeep (hreject _) _ _ _

end InstrumentState

namespace ScoreState

theorem sameButBeams_iff {s s' : ScoreState τ} : SameButBeams s s' ↔
    s.header = s'.header ∧ SameButBeams s.linking s'.linking := ScoreState.mk.injEq .. |>.to_iff

variable [TimeValue τ]

theorem ignoresBeams_addInstrument (children : List Node) :
    IgnoresBeams fun settings (s : ScoreState τ) => s.addInstrument settings children := by
  intro settings autoBeam s s' h
  obtain ⟨hheader, hlinking⟩ := sameButBeams_iff.mp h
  have hfold := IgnoresBeams.foldl (InstrumentState.ignoresBeams_read (τ := τ)) children settings
    autoBeam (.start settings s.linking) (.start settings s'.linking)
    (InstrumentState.sameButBeams_iff.mpr ⟨hlinking, rfl, rfl, rfl, rfl⟩)
  obtain ⟨hlinking', hpart, hname, hmidi, hstaves⟩ := InstrumentState.sameButBeams_iff.mp hfold
  refine sameButBeams_iff.mpr ⟨?_, hlinking'⟩
  unfold addInstrument InstrumentState.finish
  dsimp only at hpart hname hmidi hstaves ⊢
  rw [hheader, hpart, hname, hmidi, hstaves]
  rfl

theorem ignoresBeams_read (child : Node) :
    IgnoresBeams fun settings (s : ScoreState τ) => read settings s child := by
  rintro settings autoBeam ⟨header, l⟩ ⟨header', l'⟩ h
  obtain ⟨rfl, hl⟩ := sameButBeams_iff.mp h
  have hkeep {l l' : Linking τ} (hl : SameButBeams l l') (header : Score τ) :
      SameButBeams (⟨header, l⟩ : ScoreState τ) ⟨header, l'⟩ := sameButBeams_iff.mpr ⟨rfl, hl⟩
  have hreject (r : Rejection) : SameButBeams (l.reject [r]) (l'.reject [r]) :=
    Linking.ignoresBeams_reject [r] settings autoBeam l l' hl
  cases child with
  | atom kind text position => exact hkeep (hreject _) header
  | element name children position =>
      cases name with
      | version | option | title =>
          unfold read
          dsimp only
          split
          · exact hkeep hl _
          · exact hkeep (hreject _) _
      | instrument => exact ignoresBeams_addInstrument children settings autoBeam _ _ h
      | _ => exact hkeep (hreject _) _

end ScoreState

instance : HasBeams (Score τ) where
  unbeamed score := { score with notes := score.notes.map NoteRest.unbeamed }

instance : HasBeams (ScoreAnalysis τ) where
  unbeamed s := { s with score := unbeamed s.score }

theorem sameButBeams_analyseScore [TimeValue τ] (settings : Settings) (autoBeam : Bool)
    (children : List Node) : SameButBeams (analyseScore settings children : ScoreAnalysis τ)
      (analyseScore { settings with autoBeam } children) := by
  have hfold := IgnoresBeams.foldl (ScoreState.ignoresBeams_read (τ := τ)) children settings
    autoBeam {} {} rfl
  obtain ⟨hheader, hlinking⟩ := ScoreState.sameButBeams_iff.mp hfold
  have hfinish := Linking.ignoresBeams_finish settings autoBeam _ _ hlinking
  obtain ⟨hnotes, hrelations, -, -, -, -, -, -, hdiagnostics⟩ := Linking.mk.inj hfinish
  unfold analyseScore
  dsimp only at hheader hrelations hdiagnostics ⊢
  rw [hheader, hrelations, hdiagnostics]
  exact (ScoreAnalysis.mk.injEq ..).to_iff.mpr
    ⟨(Score.mk.injEq ..).to_iff.mpr ⟨rfl, rfl, rfl, rfl, hnotes, rfl⟩, rfl⟩

/-! ## Documents -/

instance : HasBeams (ContentItem τ) where
  unbeamed
    | .score score => .score (unbeamed score)
    | .paragraph text => .paragraph text

instance : HasBeams (Document τ) where
  unbeamed d := { d with content := d.content.map unbeamed }

instance : HasBeams (Analysis τ) where
  unbeamed a := { a with document := unbeamed a.document }

namespace Analysis

theorem ignoresBeams_report (found : List Diagnostic) :
    IgnoresBeams fun _ (a : Analysis τ) => a.report found := .of_comm fun _ => rfl

theorem retitle?_unbeamed (title : String) (items : List (ContentItem τ)) :
    (retitle? title items).map (List.map unbeamed) = retitle? title (items.map unbeamed) := by
  induction items with
  | nil => rfl
  | cons item rest ih =>
      rw [List.map_cons]
      unfold retitle?
      rw [← ih]
      cases retitle? title rest with
      | some rest => rfl
      | none => cases item <;> rfl

theorem ignoresBeams_addTitle (child : Node) :
    IgnoresBeams fun _ (a : Analysis τ) => a.addTitle child := by
  refine .of_comm fun a => ?_
  unfold addTitle
  cases child.string? with
  | none => rfl
  | some title =>
      have hcontent : retitle? title (unbeamed a).document.content =
          (retitle? title a.document.content).map (List.map unbeamed) :=
        (retitle?_unbeamed title a.document.content).symm
      dsimp only
      rw [hcontent]
      cases retitle? title a.document.content <;> rfl

theorem unbeamed_addScore (a : Analysis τ) (s : ScoreAnalysis τ) :
    unbeamed (a.addScore s) = (unbeamed a).addScore (unbeamed s) := by
  simp [unbeamed, addScore, add, report]

theorem unbeamed_paragraph (a : Analysis τ) (text : String) :
    unbeamed (a.add (.paragraph text)) = (unbeamed a).add (.paragraph text) := by
  simp [unbeamed, add]

variable [TimeValue τ]

theorem ignoresBeams_addScore (children : List Node) : IgnoresBeams fun settings (a : Analysis τ) =>
    a.addScore (analyseScore settings children) := by
  intro settings autoBeam a a' h
  have hscore : unbeamed (analyseScore settings children : ScoreAnalysis τ) =
      unbeamed (analyseScore { settings with autoBeam } children : ScoreAnalysis τ) :=
    sameButBeams_analyseScore settings autoBeam children
  unfold SameButBeams
  rw [unbeamed_addScore, unbeamed_addScore, hscore, show unbeamed a = unbeamed a' from h]

theorem ignoresBeams_readItem (child : Node) :
    IgnoresBeams fun settings (a : Analysis τ) => readItem settings a child := by
  cases child with
  | atom kind text position => exact ignoresBeams_report _
  | element name children position =>
      cases name with
      | score => exact ignoresBeams_addScore children
      | paragraph => exact .of_comm fun a => unbeamed_paragraph a _
      | title => exact ignoresBeams_addTitle _
      | _ => exact ignoresBeams_report _

theorem ignoresBeams_read (child : Node) :
    IgnoresBeams fun settings (a : Analysis τ) => read settings a child := by
  cases child with
  | atom kind text position => exact ignoresBeams_report _
  | element name children position =>
      cases name with
      | version =>
          refine .of_comm fun a => ?_
          dsimp only [unbeamed]
          split
          · rfl
          · rfl
      | content => exact .foldl ignoresBeams_readItem children
      | _ => exact ignoresBeams_report _

end Analysis

theorem sameButBeams_analyse? [TimeValue τ] (settings : Settings) (autoBeam : Bool) (tree : Node) :
    (analyse? settings tree : Option (Analysis τ)).map unbeamed =
      (analyse? { settings with autoBeam } tree).map unbeamed := by
  cases tree with
  | atom kind text position => rfl
  | element name children position =>
      cases name with
      | document =>
          exact congrArg some
            (IgnoresBeams.foldl Analysis.ignoresBeams_read children settings autoBeam _ _ rfl)
      | score =>
          exact congrArg some (Analysis.ignoresBeams_addScore children settings autoBeam _ _ rfl)
      | _ => rfl

theorem sameButBeams_analyse [TimeValue τ] (settings : Settings) (autoBeam : Bool) (tree : Node) :
    (analyse settings tree : Except CompileError (Analysis τ)).map unbeamed =
      (analyse { settings with autoBeam } tree).map unbeamed := by
  have hsame := sameButBeams_analyse? (τ := τ) settings autoBeam tree
  unfold analyse
  generalize (analyse? settings tree : Option (Analysis τ)) = result at hsame ⊢
  generalize (analyse? { settings with autoBeam } tree : Option (Analysis τ)) = result' at hsame ⊢
  cases result with
  | none =>
      cases result' with
      | none => rfl
      | some analysis' => cases hsame
  | some analysis =>
      cases result' with
      | none => cases hsame
      | some analysis' => exact congrArg Except.ok (Option.some.inj hsame)

/-! ## Sound tables -/

section

variable [TimeValue τ] (score : Score τ)

/-- Nothing that sounds depends on beams. -/
theorem ofScore_unbeamed : SoundTable.ofScore (unbeamed score) = SoundTable.ofScore score := by
  have hnotes : NoteRest.Unheard (NoteRest.unbeamed : NoteRest τ → NoteRest τ) :=
    ⟨fun _ => rfl, fun _ => rfl, fun _ => rfl⟩
  have hobjects : StaffObject.Unheard (id : StaffObject τ → StaffObject τ) :=
    ⟨fun _ => rfl, fun _ => rfl, fun _ => rfl, fun _ => rfl, fun _ => rfl⟩
  have hinstrument : (Instrument.mapObjects id : Instrument τ → Instrument τ) = id := by
    funext i
    simp [Instrument.mapObjects]
  have hparts : unbeamed score = score.mapParts NoteRest.unbeamed id := by
    simp [unbeamed, Score.mapParts, hinstrument]
  rw [hparts, ofScore_mapParts hnotes hobjects]

theorem ofScore_of_sameButBeams {score score' : Score τ} (h : SameButBeams score score') :
    SoundTable.ofScore score = SoundTable.ofScore score' := by
  rw [← ofScore_unbeamed score, show unbeamed score = unbeamed score' from h, ofScore_unbeamed]

end

end ScorePlayback
