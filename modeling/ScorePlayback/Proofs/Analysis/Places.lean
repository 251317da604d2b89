import ScorePlayback.Compile
import ScorePlayback.Proofs.Analysis.LinkPlaces

/-! # Music at other positions

Two runs over trees that are the same but for positions go through states that are the same but for
positions. -/

namespace ScorePlayback

open HasPlaces (placeless)

/-! ## Trees -/

namespace Node

theorem sameButPlaces_element (name : ElementName) {children children' : List Node}
    (h : SameButPlaces children children') (position position' : Position) :
    SameButPlaces (element name children position) (element name children' position') := by
  show Node.placeless _ = Node.placeless _
  rw [placeless_element, placeless_element, show children.map Node.placeless = _ from h]
  rfl

theorem eq_of_sameButPlaces {α : Type} {f : Node → α} (hf : ∀ n : Node, f n.placeless = f n)
    {n n' : Node} (h : SameButPlaces n n') : f n = f n' := by
  rw [← hf n, show n.placeless = n'.placeless from h, hf n']

theorem misplacedIn_sameButPlaces {n n' : Node} (h : SameButPlaces n n') (parent : ElementName) :
    SameButPlaces (n.misplacedIn parent) (n'.misplacedIn parent) := by
  show Rejection.placeless _ = Rejection.placeless _
  rw [← misplacedIn_placeless, show n.placeless = n'.placeless from h, misplacedIn_placeless]

end Node

/-- Trees that are the same but for positions are atoms with the same text or elements with the same
name, and their children are again such trees. -/
theorem IgnoresPlaces.of_nodes {σ ρ : Type} [HasPlaces σ] [HasPlaces ρ] {f : σ → Node → ρ}
    (hatom : ∀ s s', SameButPlaces s s' → ∀ kind text position position',
      SameButPlaces (f s (.atom kind text position)) (f s' (.atom kind text position')))
    (helement : ∀ s s', SameButPlaces s s' → ∀ name children children' position position',
      SameButPlaces children children' →
        SameButPlaces (f s (.element name children position))
          (f s' (.element name children' position'))) : IgnoresPlaces f := by
  intro s s' hs n n' hn
  cases n' with
  | element name children position =>
      obtain ⟨children', position', rfl, hchildren⟩ := Node.exists_of_placeless_element hn
      exact helement s s' hs name children' children position' position hchildren
  | atom kind text position =>
      cases n with
      | element name children position' =>
          obtain ⟨_, _, hatom, -⟩ := Node.exists_of_placeless_element hn.symm
          cases hatom
      | atom kind' text' position' =>
          obtain ⟨rfl, rfl⟩ : kind' = kind ∧ text' = text := by
            simpa [SameButPlaces, placeless, Node.placeless] using hn
          exact hatom s s' hs kind' text' position' position

variable {τ : Type}

/-! ## Music -/

instance : HasPlaces NoteReading where
  placeless := NoteReading.placeless

instance : HasPlaces (StaffObject τ) where
  placeless object := { object with position := ⟨1, 1⟩ }

instance : HasPlaces (Part τ) where
  placeless part := { part with timeline := placeless part.timeline }

instance : HasPlaces (Passage τ) where
  placeless s := { s with linking := placeless s.linking, part := placeless s.part }

/-- Reading the same items gives the same, or they have the same fault. -/
theorem NoteReading.read_sameButPlaces (settings : Settings) (display : TupletDisplay)
    (isNote : Bool) {items items' : List Node} (h : SameButPlaces items items') :
    (read settings display isNote items).map NoteReading.placeless =
      (read settings display isNote items').map NoteReading.placeless := by
  rw [← read_placeless, show items.map Node.placeless = items'.map Node.placeless from h,
    read_placeless]

namespace Part

theorem ignoresPlaces_place :
    IgnoresPlaces fun (part : Part τ) (object : StaffObject τ) => part.place object :=
  .of_comm fun _ _ => by simp [placeless, place]

theorem placeless_remember (p : Pitch) (part : Part τ) :
    placeless (part.remember p) = (placeless part).remember p := by
  unfold remember
  split <;> rfl

theorem placeless_elim_remember (p : Option Pitch) (part : Part τ) :
    placeless (p.elim part part.remember) = p.elim (placeless part) (placeless part).remember := by
  cases p with
  | none => rfl
  | some p => exact placeless_remember p part

end Part

namespace Passage

variable {s s' : Passage τ}

theorem sameButPlaces_iff : SameButPlaces s s' ↔ SameButPlaces s.linking s'.linking ∧
    SameButPlaces s.part s'.part ∧ s.inherited = s'.inherited := Passage.mk.injEq .. |>.to_iff

theorem ignoresPlaces_reject :
    IgnoresPlaces fun (s : Passage τ) (rejections : List Rejection) => s.reject rejections := by
  intro s s' h rejections rejections' hrejections
  obtain ⟨hlinking, hrest⟩ := sameButPlaces_iff.mp h
  exact sameButPlaces_iff.mpr ⟨Linking.ignoresPlaces_reject hlinking hrejections, hrest⟩

theorem mapCursor_sameButPlaces (h : SameButPlaces s s') (move : Cursor τ → Cursor τ) :
    SameButPlaces (s.mapCursor move) (s'.mapCursor move) :=
  .of_comm (f := (mapCursor · move)) (fun _ => rfl) h

theorem cursor_of_sameButPlaces (h : SameButPlaces s s') : s.part.cursor = s'.part.cursor := by
  have hcursor : (placeless s.part).cursor = (placeless s'.part).cursor :=
    congrArg Part.cursor (sameButPlaces_iff.mp h).2.1
  exact hcursor

variable [TimeValue τ]

omit [TimeValue τ] in
theorem openStarts_placeless {π : Type} (r : Registry π) :
    (placeless r).openStarts = placeless r.openStarts := by
  simp [placeless, Registry.openStarts, Registry.mapMarkers, OpenRelation.mapMarkers]

theorem tupletScale_placeless (tuplets : Registry (Option TupletSpec)) (markers : List Marker) :
    (tupletScale (placeless tuplets) markers : τ) = tupletScale tuplets markers := by
  unfold tupletScale
  rw [openStarts_placeless]
  simp only [placeless, List.filter_map, List.filterMap_map]
  rfl

theorem realize_sameButPlaces (h : SameButPlaces s s') (spec : NoteSpec)
    (position position' : Position) (inChord : Bool) :
    SameButPlaces (s.realize spec position inChord) (s'.realize spec position' inChord) := by
  have hrealize (s : Passage τ) (position : Position) : placeless (s.realize spec position inChord) =
      (placeless s).realize spec ⟨1, 1⟩ inChord := by
    unfold realize
    rw [show (placeless s).linking.tuplets = placeless s.linking.tuplets from rfl,
      tupletScale_placeless]
    rfl
  show placeless _ = placeless _
  rw [hrealize, show placeless s = placeless s' from h, ← hrealize]

theorem placeNote_sameButPlaces (settings : Settings) (h : SameButPlaces s s')
    {reading reading' : NoteReading} (hreading : SameButPlaces reading reading')
    (position position' : Position) (inChord : Bool) :
    SameButPlaces (s.placeNote settings reading position inChord)
      (s'.placeNote settings reading' position' inChord) := by
  obtain ⟨spec, display, rejections⟩ := reading
  obtain ⟨spec', display', rejections'⟩ := reading'
  obtain ⟨rfl, rfl, hrejections⟩ : spec = spec' ∧ display = display' ∧
      SameButPlaces rejections rejections' := NoteReading.mk.inj hreading
  obtain ⟨hlinking, hpart, -⟩ := sameButPlaces_iff.mp h
  have hnumber : s.linking.notes.length = s'.linking.notes.length := by
    simpa [placeless] using congrArg (fun l : Linking τ => l.notes.length) hlinking
  have hnote := realize_sameButPlaces h spec position position' inChord
  unfold placeNote objectOf
  dsimp only
  rw [cursor_of_sameButPlaces h, hnumber]
  generalize s.realize spec position inChord = note at hnote ⊢
  generalize s'.realize spec position' inChord = note' at hnote ⊢
  obtain ⟨hpitch, -, hduration, -, hvoice, hstaff, -⟩ := NoteRest.mk.inj hnote
  rw [hpitch, hduration, hvoice, hstaff]
  have hadded := Linking.ignoresPlaces_addNote (Linking.ignoresPlaces_reject hlinking hrejections)
    hnote
  have hclosed := SameButPlaces.ite (c := note'.pitch.isSome) (Linking.closeLegacyTie_sameButPlaces
    s'.linking.notes.length s'.part.cursor.time hadded) hadded
  have hplace : SameButPlaces position position' := rfl
  have htie : SameButPlaces
      (PendingTie.mk s'.linking.notes.length s'.part.cursor.time note'.voice position)
      ⟨s'.linking.notes.length, s'.part.cursor.time, note'.voice, position'⟩ := rfl
  have hstarted := SameButPlaces.ite (c := note'.pitch.isSome && spec.legacyTie)
    (Linking.ignoresPlaces_startLegacyTie hclosed htie) hclosed
  have hbeamed := Linking.ignoresPlaces_applyLegacyBeam settings s'.linking.notes.length inChord
    spec.legacyBeam hstarted hplace
  refine sameButPlaces_iff.mpr ⟨Linking.ignoresPlaces_applyMarkers settings _ inChord spec.markers
    hbeamed rfl, ?_, rfl⟩
  refine Part.ignoresPlaces_place ?_ rfl
  show placeless _ = placeless _
  rw [Part.placeless_elim_remember, show placeless s.part = placeless s'.part from hpart,
    Part.placeless_elim_remember]

/-- A note is placed at the same time and with the same duration, or it is dropped. -/
theorem addNote_sameButPlaces (settings : Settings) (h : SameButPlaces s s') (isNote : Bool)
    {items items' : List Node} (hitems : SameButPlaces items items') (position position' : Position)
    (inChord : Bool) :
    SameButPlaces (s.addNote settings isNote items position inChord).1
      (s'.addNote settings isNote items' position' inChord).1 ∧
    (s.addNote settings isNote items position inChord).2 =
      (s'.addNote settings isNote items' position' inChord).2 := by
  have hread := NoteReading.read_sameButPlaces settings s'.inherited.display isNote hitems
  unfold addNote
  rw [(sameButPlaces_iff.mp h).2.2]
  generalize NoteReading.read settings s'.inherited.display isNote items = reading at hread ⊢
  generalize NoteReading.read settings s'.inherited.display isNote items' = reading' at hread ⊢
  cases reading with
  | error fault =>
      cases reading' with
      | error fault' =>
          obtain rfl : fault = fault' := Except.error.inj hread
          exact ⟨ignoresPlaces_reject h rfl, rfl⟩
      | ok reading' => cases hread
  | ok reading =>
      cases reading' with
      | error fault' => cases hread
      | ok reading' =>
          have hreading : SameButPlaces reading reading' := Except.ok.inj hread
          have hspec : reading.spec = reading'.spec := (NoteReading.mk.inj hreading).1
          refine ⟨placeNote_sameButPlaces settings h hreading position position' inChord, ?_⟩
          have hnote := realize_sameButPlaces h reading'.spec position position' inChord
          dsimp only
          rw [hspec]
          exact congrArg some (NoteRest.mk.inj hnote).2.2.1

theorem addSingle_sameButPlaces (settings : Settings) (h : SameButPlaces s s') (isNote : Bool)
    {items items' : List Node} (hitems : SameButPlaces items items')
    (position position' : Position) :
    SameButPlaces (s.addSingle settings isNote items position)
      (s'.addSingle settings isNote items' position') := by
  have hadd := addNote_sameButPlaces settings h isNote hitems position position' false
  unfold addSingle
  generalize s.addNote settings isNote items position false = result at hadd ⊢
  generalize s'.addNote settings isNote items' position' false = result' at hadd ⊢
  obtain ⟨t, duration⟩ := result
  obtain ⟨t', duration'⟩ := result'
  obtain ⟨ht, rfl⟩ : SameButPlaces t t' ∧ duration = duration' := hadd
  cases duration with
  | some duration => exact mapCursor_sameButPlaces ht _
  | none => exact ht

/-- Inside a chord the duration of its first note has no place. -/
instance : HasPlaces (Passage τ × Option τ) where
  placeless state := (placeless state.1, state.2)

theorem ignoresPlaces_addChordNote (settings : Settings) :
    IgnoresPlaces fun (state : Passage τ × Option τ) (child : Node) =>
      addChordNote settings state child := by
  refine .of_nodes ?_ ?_
  · rintro ⟨s, first⟩ ⟨s', first'⟩ h kind text position position'
    obtain ⟨hs, rfl⟩ : SameButPlaces s s' ∧ first = first' := Prod.mk.inj h
    exact Prod.ext (ignoresPlaces_reject hs rfl) rfl
  · rintro ⟨s, first⟩ ⟨s', first'⟩ h name children children' position position' hchildren
    obtain ⟨hs, rfl⟩ : SameButPlaces s s' ∧ first = first' := Prod.mk.inj h
    have hchild := Node.sameButPlaces_element name hchildren position position'
    have hmisplaced := Node.misplacedIn_sameButPlaces hchild .chord
    cases name with
    | note =>
        obtain ⟨ht, hduration⟩ :=
          addNote_sameButPlaces settings hs true hchildren position position' first.isSome
        exact Prod.ext ht (congrArg (first <|> ·) hduration)
    | _ => exact Prod.ext (ignoresPlaces_reject hs hmisplaced.singleton) rfl

theorem addChord_sameButPlaces (settings : Settings) (h : SameButPlaces s s')
    {children children' : List Node} (hchildren : SameButPlaces children children')
    (position position' : Position) :
    SameButPlaces (s.addChord settings children position)
      (s'.addChord settings children' position') := by
  have hstart : SameButPlaces (s, (none : Option τ)) (s', none) := congrArg (·, none) h
  have hfold := (ignoresPlaces_addChordNote settings).foldl hstart hchildren
  unfold addChord
  dsimp only at hfold ⊢
  generalize children.foldl (addChordNote settings) (s, none) = result at hfold ⊢
  generalize children'.foldl (addChordNote settings) (s', none) = result' at hfold ⊢
  obtain ⟨t, first⟩ := result
  obtain ⟨t', first'⟩ := result'
  obtain ⟨ht, rfl⟩ : SameButPlaces t t' ∧ first = first' := Prod.mk.inj hfold
  cases first with
  | some duration => exact mapCursor_sameButPlaces ht _
  | none => exact ignoresPlaces_reject ht rfl

/-! ### Other staff objects -/

theorem ignoresPlaces_addSymbol (symbol : StaffSymbol) :
    IgnoresPlaces fun (s : Passage τ) (position : Position) => s.addSymbol symbol position :=
  .of_comm fun _ _ => by simp [placeless, addSymbol, Part.place, mark]

theorem ignoresPlaces_addKey (key : KeySignature) :
    IgnoresPlaces fun (s : Passage τ) (position : Position) => s.addKey key position :=
  .of_comm fun _ _ => by simp [placeless, addKey, addSymbol, Part.place, mark]

theorem ignoresPlaces_addBarline (b : Control.BarlineSpec) :
    IgnoresPlaces fun (s : Passage τ) (position : Position) => s.addBarline b position :=
  .of_comm fun _ _ => by simp [placeless, addBarline, Part.place, mark]

theorem goBack_sameButPlaces (h : SameButPlaces s s') (move : Control.Move τ) :
    SameButPlaces (s.goBack move) (s'.goBack move) := by
  cases move with
  | toMark => exact mapCursor_sameButPlaces h _
  | «by» amount => exact mapCursor_sameButPlaces h _

theorem goForward_sameButPlaces (h : SameButPlaces s s') (move : Control.Move τ) :
    SameButPlaces (s.goForward move) (s'.goForward move) := by
  cases move with
  | toMark => exact mapCursor_sameButPlaces h _
  | «by» amount => exact mapCursor_sameButPlaces h _

omit [TimeValue τ] in
theorem accept_sameButPlaces {α : Type} (h : SameButPlaces s s') (position position' : Position)
    {reading reading' : Except GrammarFault α} (hreading : reading = reading')
    {use use' : α → Passage τ} (huse : ∀ value, SameButPlaces (use value) (use' value)) :
    SameButPlaces (s.accept position reading use) (s'.accept position' reading' use') := by
  subst hreading
  cases reading with
  | ok value => exact huse value
  | error fault => exact ignoresPlaces_reject h rfl

/-- One child of a block of music. -/
theorem ignoresPlaces_read (settings : Settings) :
    IgnoresPlaces fun (s : Passage τ) (child : Node) => read settings s child := by
  refine .of_nodes (fun s s' hs _ _ _ _ => ignoresPlaces_reject hs rfl) ?_
  intro s s' hs name children children' position position' hchildren
  have hchild := Node.sameButPlaces_element name hchildren position position'
  cases name with
  | note => exact addSingle_sameButPlaces settings hs true hchildren position position'
  | rest => exact addSingle_sameButPlaces settings hs false hchildren position position'
  | chord => exact addChord_sameButPlaces settings hs hchildren position position'
  | clef =>
      exact accept_sameButPlaces hs position position'
        (Node.eq_of_sameButPlaces (Control.readFirst_placeless · _ _) hchild)
        fun clef => ignoresPlaces_addSymbol _ hs rfl
  | key =>
      exact accept_sameButPlaces hs position position'
        (Node.eq_of_sameButPlaces (Control.readFirst_placeless · _ _) hchild)
        fun key => ignoresPlaces_addKey key hs rfl
  | time =>
      exact accept_sameButPlaces hs position position'
        (Node.eq_of_sameButPlaces Control.readMeter_placeless hchild)
        fun meter => ignoresPlaces_addSymbol _ hs rfl
  | volta =>
      exact accept_sameButPlaces hs position position'
        (Node.eq_of_sameButPlaces Control.readVolta_placeless hchild)
        fun (ending, span) => ignoresPlaces_addSymbol _ hs rfl
  | goBack =>
      exact accept_sameButPlaces hs position position'
        (Node.eq_of_sameButPlaces (Control.readMove_placeless · "start" .goBackShape) hchild)
        fun move => goBack_sameButPlaces hs move
  | goForward =>
      exact accept_sameButPlaces hs position position'
        (Node.eq_of_sameButPlaces (Control.readMove_placeless · "end" .goForwardShape) hchild)
        fun move => goForward_sameButPlaces hs move
  | barline =>
      have hread : (Control.readBarline settings (.element .barline children position)).mapError
          Rejection.placeless =
            (Control.readBarline settings (.element .barline children' position')).mapError
              Rejection.placeless := by
        rw [← Control.readBarline_placeless, show Node.placeless _ = Node.placeless _ from hchild,
          Control.readBarline_placeless]
      unfold read
      dsimp only
      generalize Control.readBarline settings (.element .barline children position) = reading
        at hread ⊢
      generalize Control.readBarline settings (.element .barline children' position') = reading'
        at hread ⊢
      cases reading with
      | ok b =>
          cases reading' with
          | ok b' =>
              obtain rfl : b = b' := Except.ok.inj hread
              exact ignoresPlaces_addBarline b hs rfl
          | error rejection' => cases hread
      | error rejection =>
          cases reading' with
          | ok b' => cases hread
          | error rejection' =>
              exact ignoresPlaces_reject hs (.singleton (Except.error.inj hread))
  | _ => exact ignoresPlaces_reject hs (Node.misplacedIn_sameButPlaces hchild .music).singleton

end Passage

/-! ## From instruments to scores -/

instance : HasPlaces (InstrumentState τ) where
  placeless s := { s with linking := placeless s.linking, part := placeless s.part }

instance : HasPlaces (Instrument τ) where
  placeless i := { i with timeline := placeless i.timeline }

instance : HasPlaces (Score τ) where
  placeless score :=
    { score with instruments := placeless score.instruments, notes := placeless score.notes }

instance : HasPlaces (ScoreState τ) where
  placeless s := ⟨placeless s.header, placeless s.linking⟩

instance : HasPlaces (ScoreAnalysis τ) where
  placeless s := ⟨placeless s.score, placeless s.diagnostics⟩

namespace InstrumentState

theorem sameButPlaces_iff {s s' : InstrumentState τ} : SameButPlaces s s' ↔
    SameButPlaces s.linking s'.linking ∧ SameButPlaces s.part s'.part ∧ s.name = s'.name ∧
      s.midi = s'.midi ∧ s.staves = s'.staves := InstrumentState.mk.injEq .. |>.to_iff

theorem finish_sameButPlaces {s s' : InstrumentState τ} (h : SameButPlaces s s') :
    SameButPlaces s.finish s'.finish :=
  .of_comm (f := finish) (fun _ => rfl) h

variable [TimeValue τ]

theorem addMusic_sameButPlaces (settings : Settings) {s s' : InstrumentState τ}
    (h : SameButPlaces s s') {children children' : List Node}
    (hchildren : SameButPlaces children children') :
    SameButPlaces (s.addMusic settings children) (s'.addMusic settings children') := by
  obtain ⟨hlinking, hpart, hrest⟩ := sameButPlaces_iff.mp h
  have hstart : SameButPlaces ({ linking := s.linking, part := s.part } : Passage τ)
      { linking := s'.linking, part := s'.part } :=
    Passage.sameButPlaces_iff.mpr ⟨hlinking, hpart, rfl⟩
  have hfold := (Passage.ignoresPlaces_read settings).foldl hstart hchildren
  obtain ⟨hlinking', hpart', -⟩ := Passage.sameButPlaces_iff.mp hfold
  exact sameButPlaces_iff.mpr ⟨hlinking', hpart', hrest⟩

omit [TimeValue τ] in
theorem ignoresPlaces_reject : IgnoresPlaces fun (s : InstrumentState τ)
    (rejections : List Rejection) => { s with linking := s.linking.reject rejections } := by
  intro s s' h rejections rejections' hrejections
  obtain ⟨hlinking, hrest⟩ := sameButPlaces_iff.mp h
  exact sameButPlaces_iff.mpr ⟨Linking.ignoresPlaces_reject hlinking hrejections, hrest⟩

/-- One child of an instrument. -/
theorem ignoresPlaces_read (settings : Settings) :
    IgnoresPlaces fun (s : InstrumentState τ) (child : Node) => read settings s child := by
  refine .of_nodes (fun s s' hs _ _ _ _ => ignoresPlaces_reject hs rfl) ?_
  intro s s' hs name children children' position position' hchildren
  have hchild := Node.sameButPlaces_element name hchildren position position'
  obtain ⟨hlinking, hpart, hname, hmidi, hstaves⟩ := sameButPlaces_iff.mp hs
  cases name with
  | instrumentName =>
      have hread := Node.eq_of_sameButPlaces Node.string?_placeless hchild
      unfold read
      dsimp only
      rw [hread]
      split
      · exact sameButPlaces_iff.mpr ⟨hlinking, hpart, rfl, hmidi, hstaves⟩
      · exact ignoresPlaces_reject hs rfl
  | midi =>
      have hread := Node.eq_of_sameButPlaces (readMidi_placeless s'.midi) hchild
      unfold read
      dsimp only
      rw [hmidi, hread]
      split
      · exact sameButPlaces_iff.mpr ⟨hlinking, hpart, hname, rfl, hstaves⟩
      · exact ignoresPlaces_reject hs rfl
  | staves =>
      have hread := Node.eq_of_sameButPlaces (f := fun n => n.atoms.head?.bind (Node.count? 1 16))
        (fun n => by simp [Option.bind_map]) hchild
      unfold read
      dsimp only at hread ⊢
      rw [hread]
      split
      · exact sameButPlaces_iff.mpr ⟨hlinking, hpart, hname, hmidi, rfl⟩
      · exact ignoresPlaces_reject hs rfl
  | music => exact addMusic_sameButPlaces settings hs hchildren
  | _ => exact ignoresPlaces_reject hs (Node.misplacedIn_sameButPlaces hchild .instrument).singleton

end InstrumentState

namespace ScoreState

theorem sameButPlaces_iff {s s' : ScoreState τ} : SameButPlaces s s' ↔
    SameButPlaces s.header s'.header ∧ SameButPlaces s.linking s'.linking :=
  ScoreState.mk.injEq .. |>.to_iff

variable [TimeValue τ]

theorem addInstrument_sameButPlaces (settings : Settings) {s s' : ScoreState τ}
    (h : SameButPlaces s s') {children children' : List Node}
    (hchildren : SameButPlaces children children') :
    SameButPlaces (s.addInstrument settings children) (s'.addInstrument settings children') := by
  obtain ⟨hheader, hlinking⟩ := sameButPlaces_iff.mp h
  have hstart : SameButPlaces (InstrumentState.start settings s.linking)
      (InstrumentState.start settings s'.linking) :=
    InstrumentState.sameButPlaces_iff.mpr ⟨hlinking, rfl, rfl, rfl, rfl⟩
  have hfold := (InstrumentState.ignoresPlaces_read settings).foldl hstart hchildren
  have hadd : IgnoresPlaces fun (header : Score τ) (instrument : Instrument τ) =>
      { header with instruments := header.instruments ++ [instrument] } :=
    .of_comm fun _ _ => by simp [placeless]
  exact sameButPlaces_iff.mpr ⟨hadd hheader (InstrumentState.finish_sameButPlaces hfold),
    (InstrumentState.sameButPlaces_iff.mp hfold).1⟩

/-- The texts of two atoms, the name and the value of an option. -/
def pair? (node : Node) : Option (String × String) :=
  match node.atoms with
  | [name, value] => some (name.text, value.text)
  | _ => none

omit [TimeValue τ] in
theorem pair?_placeless (n : Node) : pair? n.placeless = pair? n := by
  unfold pair?
  rw [n.atoms_placeless]
  rcases n.atoms with _ | ⟨name, _ | ⟨value, _ | ⟨other, rest⟩⟩⟩ <;> simp

theorem read_option (settings : Settings) (s : ScoreState τ) (children : List Node)
    (position : Position) : read settings s (.element .option children position) =
      match pair? (.element .option children position) with
      | some pair =>
        { s with header := { s.header with
            options := Keyed.insert pair.1 pair.2 s.header.options } }
      | none => s.reject .optionShape (.element .option children position) := by
  unfold read pair?
  rcases (Node.element .option children position).atoms with
    _ | ⟨name, _ | ⟨value, _ | ⟨other, rest⟩⟩⟩ <;> rfl

omit [TimeValue τ] in
theorem ignoresPlaces_reject : IgnoresPlaces fun (s : ScoreState τ)
    (rejections : List Rejection) => { s with linking := s.linking.reject rejections } := by
  intro s s' h rejections rejections' hrejections
  obtain ⟨hheader, hlinking⟩ := sameButPlaces_iff.mp h
  exact sameButPlaces_iff.mpr ⟨hheader, Linking.ignoresPlaces_reject hlinking hrejections⟩

/-- One child of a score. -/
theorem ignoresPlaces_read (settings : Settings) :
    IgnoresPlaces fun (s : ScoreState τ) (child : Node) => read settings s child := by
  refine .of_nodes (fun s s' hs _ _ _ _ => ignoresPlaces_reject hs rfl) ?_
  intro s s' hs name children children' position position' hchildren
  have hchild := Node.sameButPlaces_element name hchildren position position'
  obtain ⟨hheader, hlinking⟩ := sameButPlaces_iff.mp hs
  cases name with
  | version =>
      have hread := Node.eq_of_sameButPlaces (f := fun n =>
        n.atoms.head?.bind fun atom => ScoreVersion.read? atom.text.toList)
        (fun n => by simp [Option.bind_map]) hchild
      unfold read
      dsimp only at hread ⊢
      rw [hread]
      split
      · next version _ =>
        exact sameButPlaces_iff.mpr ⟨.of_comm
          (f := fun header : Score τ => { header with version }) (fun _ => rfl) hheader, hlinking⟩
      · exact ignoresPlaces_reject hs rfl
  | option =>
      have hread := Node.eq_of_sameButPlaces pair?_placeless hchild
      show SameButPlaces (read settings s _) (read settings s' _)
      rw [read_option, read_option, hread]
      cases pair? (.element .option children' position') with
      | some pair =>
          obtain ⟨hversion, htitle, hoptions, hinstruments, hnotes, hrelations⟩ :=
            Score.mk.inj hheader
          refine sameButPlaces_iff.mpr ⟨?_, hlinking⟩
          dsimp only
          rw [hoptions]
          exact .of_comm (f := fun header : Score τ => { header with
            options := Keyed.insert pair.1 pair.2 s'.header.options }) (fun _ => rfl) hheader
      | none => exact ignoresPlaces_reject hs rfl
  | title =>
      have hread := Node.eq_of_sameButPlaces Node.string?_placeless hchild
      unfold read
      dsimp only
      rw [hread]
      split
      · next title _ =>
        exact sameButPlaces_iff.mpr ⟨.of_comm
          (f := fun header : Score τ => { header with title := some title }) (fun _ => rfl) hheader,
          hlinking⟩
      · exact ignoresPlaces_reject hs rfl
  | «instrument» => exact addInstrument_sameButPlaces settings hs hchildren
  | _ => exact ignoresPlaces_reject hs (Node.misplacedIn_sameButPlaces hchild .score).singleton

end ScoreState

theorem analyseScore_sameButPlaces [TimeValue τ] (settings : Settings)
    {children children' : List Node}
    (h : SameButPlaces children children') :
    SameButPlaces (analyseScore settings children : ScoreAnalysis τ)
      (analyseScore settings children') := by
  have hstart : SameButPlaces ({} : ScoreState τ) {} := rfl
  have hfold := (ScoreState.ignoresPlaces_read settings).foldl hstart h
  obtain ⟨hheader, hlinking⟩ := ScoreState.sameButPlaces_iff.mp hfold
  obtain ⟨hnotes, hrelations, -, -, -, -, -, -, hdiagnostics⟩ :=
    Linking.mk.inj (Linking.finish_sameButPlaces hlinking)
  obtain ⟨hversion, htitle, hoptions, hinstruments, -, -⟩ := Score.mk.inj hheader
  exact (ScoreAnalysis.mk.injEq ..).to_iff.mpr ⟨(Score.mk.injEq ..).to_iff.mpr
    ⟨hversion, htitle, hoptions, hinstruments, hnotes, hrelations⟩, hdiagnostics⟩

/-! ## Documents -/

instance : HasPlaces (ContentItem τ) where
  placeless
    | .score score => .score (placeless score)
    | .paragraph text => .paragraph text

instance : HasPlaces (Document τ) where
  placeless d := { d with content := placeless d.content }

instance : HasPlaces (Analysis τ) where
  placeless a := ⟨placeless a.document, placeless a.diagnostics⟩

namespace Analysis

variable {a a' : Analysis τ}

theorem ignoresPlaces_report :
    IgnoresPlaces fun (a : Analysis τ) (found : List Diagnostic) => a.report found :=
  .of_comm fun _ _ => by simp [placeless, report]

theorem ignoresPlaces_add :
    IgnoresPlaces fun (a : Analysis τ) (item : ContentItem τ) => a.add item :=
  .of_comm fun _ _ => by simp [placeless, add]

theorem addScore_sameButPlaces (h : SameButPlaces a a') {s s' : ScoreAnalysis τ}
    (hs : SameButPlaces s s') : SameButPlaces (a.addScore s) (a'.addScore s') := by
  obtain ⟨hscore, hdiagnostics⟩ := (ScoreAnalysis.mk.injEq ..).to_iff.mp hs
  have hitem : SameButPlaces (ContentItem.score s.score) (.score s'.score) :=
    congrArg ContentItem.score hscore
  exact ignoresPlaces_report (ignoresPlaces_add h hitem) hdiagnostics

theorem retitle?_placeless (title : String) (items : List (ContentItem τ)) :
    retitle? title (placeless items) = placeless (retitle? title items) := by
  induction items with
  | nil => rfl
  | cons item rest ih =>
      show retitle? title (placeless item :: placeless rest) = _
      unfold retitle?
      rw [ih]
      cases retitle? title rest with
      | some rest => rfl
      | none => cases item <;> rfl

theorem ignoresPlaces_addTitle :
    IgnoresPlaces fun (a : Analysis τ) (child : Node) => a.addTitle child := by
  intro a a' h child child' hchild
  obtain ⟨hdocument, hdiagnostics⟩ := (Analysis.mk.injEq ..).to_iff.mp h
  obtain ⟨hversion, hcontent⟩ := (Document.mk.injEq ..).to_iff.mp hdocument
  have hread := Node.eq_of_sameButPlaces Node.string?_placeless hchild
  unfold addTitle
  dsimp only
  rw [hread]
  cases child'.string? with
  | none => exact ignoresPlaces_report h rfl
  | some title =>
      have hretitle : placeless (retitle? title a.document.content) =
          placeless (retitle? title a'.document.content) := by
        rw [← retitle?_placeless, show placeless _ = placeless _ from hcontent, retitle?_placeless]
      dsimp only
      generalize retitle? title a.document.content = content at hretitle ⊢
      generalize retitle? title a'.document.content = content' at hretitle ⊢
      cases content <;> cases content'
      · exact ignoresPlaces_report h rfl
      · cases hretitle
      · cases hretitle
      · exact (Analysis.mk.injEq ..).to_iff.mpr ⟨(Document.mk.injEq ..).to_iff.mpr
          ⟨hversion, Option.some.inj hretitle⟩, hdiagnostics⟩

theorem paragraphText_sameButPlaces {children children' : List Node}
    (h : SameButPlaces children children') : paragraphText children = paragraphText children' := by
  have hplaceless (children : List Node) :
      paragraphText (children.map Node.placeless) = paragraphText children := by
    simp [paragraphText, List.filter_map, Function.comp_def]
  rw [← hplaceless, show children.map Node.placeless = _ from h, ← hplaceless children']
  rfl

variable [TimeValue τ]

theorem ignoresPlaces_readItem (settings : Settings) :
    IgnoresPlaces fun (a : Analysis τ) (child : Node) => readItem settings a child := by
  refine .of_nodes (fun a a' h _ _ _ _ => ignoresPlaces_report h rfl) ?_
  intro a a' h name children children' position position' hchildren
  have hchild := Node.sameButPlaces_element name hchildren position position'
  cases name with
  | score => exact addScore_sameButPlaces h (analyseScore_sameButPlaces settings hchildren)
  | paragraph =>
      exact ignoresPlaces_add h
        (congrArg ContentItem.paragraph (paragraphText_sameButPlaces hchildren))
  | title => exact ignoresPlaces_addTitle h hchild
  | _ => exact ignoresPlaces_report h rfl

theorem ignoresPlaces_read (settings : Settings) :
    IgnoresPlaces fun (a : Analysis τ) (child : Node) => read settings a child := by
  refine .of_nodes (fun a a' h _ _ _ _ => ignoresPlaces_report h rfl) ?_
  intro a a' h name children children' position position' hchildren
  have hchild := Node.sameButPlaces_element name hchildren position position'
  cases name with
  | version =>
      have hread := Node.eq_of_sameButPlaces (f := fun n => n.atoms.head?.map Node.text)
        (fun n => by simp [Function.comp_def]) hchild
      obtain ⟨hdocument, hdiagnostics⟩ := (Analysis.mk.injEq ..).to_iff.mp h
      obtain ⟨-, hcontent⟩ := (Document.mk.injEq ..).to_iff.mp hdocument
      unfold read
      dsimp only at hread ⊢
      generalize (Node.element .version children position).atoms.head? = version at hread ⊢
      generalize (Node.element .version children' position').atoms.head? = version' at hread ⊢
      cases version <;> cases version'
      · exact ignoresPlaces_report h rfl
      · cases hread
      · cases hread
      · exact (Analysis.mk.injEq ..).to_iff.mpr ⟨(Document.mk.injEq ..).to_iff.mpr
          ⟨Option.some.inj hread, hcontent⟩, hdiagnostics⟩
  | content => exact (ignoresPlaces_readItem settings).foldl h hchildren
  | _ => exact ignoresPlaces_report h rfl

end Analysis

theorem analyse?_sameButPlaces [TimeValue τ] (settings : Settings) {tree tree' : Node}
    (h : SameButPlaces tree tree') :
    SameButPlaces (analyse? settings tree : Option (Analysis τ)) (analyse? settings tree') := by
  have hempty : SameButPlaces (Analysis.empty : Analysis τ) .empty := rfl
  refine IgnoresPlaces.of_nodes (f := fun (_ : Nat) tree =>
    (analyse? settings tree : Option (Analysis τ))) ?_ ?_ (s := 0) rfl h
  · exact fun _ _ _ _ _ _ _ => rfl
  · intro _ _ _ name children children' position position' hchildren
    cases name with
    | document =>
        exact congrArg some ((Analysis.ignoresPlaces_read settings).foldl hempty hchildren)
    | score =>
        exact congrArg some (Analysis.addScore_sameButPlaces hempty
          (analyseScore_sameButPlaces settings hchildren))
    | _ => rfl

end ScorePlayback
