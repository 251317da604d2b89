import ScorePlayback.Proofs.Analysis.LegacyOptions

/-! # Switching off the legacy syntax

Where the legacy syntax is off, legacy options are reported and leave no other trace: what is
analysed is the tree without them, for which it does not matter whether the legacy syntax is on. -/

namespace ScorePlayback

open Reporting (behind)

/-! ## Notes, rests and chords -/

namespace Passage

variable {τ : Type} [TimeValue τ] {settings : Settings} (legacySyntax : Bool)

/-- Once a note has been read, the legacy syntax is not looked at. -/
theorem placeNote_legacySyntax (s : Passage τ) (reading : NoteReading) (position : Position)
    (inChord : Bool) :
    s.placeNote { settings with legacySyntax } reading position inChord =
      s.placeNote settings reading position inChord := rfl

theorem omitsAll_addNote (hsettings : settings.legacySyntax = false) (s : Passage τ) (isNote : Bool)
    (items : List Node) (position : Position) (inChord : Bool) :
    OmitsAll (disabledIn settings [⟨isNote, items, position⟩])
      (s.addNote settings isNote items position inChord)
      (s.addNote { settings with legacySyntax } isNote
        (NoteOption.dropLegacy isNote (items.map Node.withoutLegacy)) position inChord) := by
  have hreads := NoteReading.readsMore_read legacySyntax isNote hsettings s.inherited.display items
  unfold addNote
  generalize hread : NoteReading.read settings s.inherited.display isNote items = reading
    at hreads ⊢
  generalize NoteReading.read { settings with legacySyntax } s.inherited.display isNote
    (NoteOption.dropLegacy isNote (items.map Node.withoutLegacy)) = reading' at hreads ⊢
  rw [disabledIn, List.flatMap_singleton]
  cases hreads with
  | error fault =>
      rw [WrittenNote.disabledOptions_of_error hread]
      exact .refl _
  | ok h =>
      rw [WrittenNote.disabledOptions_of_read hread]
      obtain ⟨found, found', r, rfl, rfl, hmerges⟩ := h
      let duration := (s.realize r.spec position inChord).duration
      have hplace : Unaware fun s : Passage τ =>
          (s.placeNote settings r position inChord, some duration) := fun found s =>
        congrArg (·, some duration) (placeNote_behind settings found s r position inChord)
      dsimp only
      rw [placeNote_legacySyntax, placeNote_rejections, placeNote_rejections]
      exact (omitsAll_reject hmerges s).map hplace

theorem omitsAll_addSingle (hsettings : settings.legacySyntax = false) (s : Passage τ)
    (isNote : Bool) (items : List Node) (position : Position) :
    OmitsAll (disabledIn settings [⟨isNote, items, position⟩])
      (s.addSingle settings isNote items position)
      (s.addSingle { settings with legacySyntax } isNote
        (NoteOption.dropLegacy isNote (items.map Node.withoutLegacy)) position) := by
  have hadvance : Unaware fun result : Passage τ × Option τ =>
      result.2.elim result.1 fun duration => result.1.mapCursor (·.advance duration) := by
    rintro found ⟨s, duration⟩
    cases duration <;> rfl
  have haddSingle (settings : Settings) (items : List Node) :
      s.addSingle settings isNote items position =
        (s.addNote settings isNote items position false).2.elim
          (s.addNote settings isNote items position false).1 fun duration =>
            (s.addNote settings isNote items position false).1.mapCursor (·.advance duration) := by
    unfold addSingle
    dsimp only
    split <;> simp [*]
  rw [haddSingle, haddSingle]
  exact (omitsAll_addNote legacySyntax hsettings s isNote items position false).map hadvance

theorem omitsAll_addChordNote (hsettings : settings.legacySyntax = false)
    (state : Passage τ × Option τ) (child : Node) :
    OmitsAll (disabledIn settings child.chordNotes) (addChordNote settings state child)
      (addChordNote { settings with legacySyntax } state child.withoutLegacy) := by
  cases child with
  | atom kind text position =>
      rw [Node.withoutLegacy]
      exact .refl _
  | element name children position =>
      rw [Node.withoutLegacy_element]
      cases name with
      | note =>
          have hfirst : Unaware fun result : Passage τ × Option τ =>
              (result.1, state.2 <|> result.2) := fun _ _ => rfl
          exact (omitsAll_addNote legacySyntax hsettings state.1 true children position
            state.2.isSome).map hfirst
      | _ => exact .refl _

theorem omitsAll_addChord (hsettings : settings.legacySyntax = false) (s : Passage τ)
    (children : List Node) (position : Position) :
    OmitsAll (disabledIn settings (children.flatMap Node.chordNotes))
      (s.addChord settings children position)
      (s.addChord { settings with legacySyntax } (children.map Node.withoutLegacy) position) := by
  have hunaware (settings : Settings) (child : Node) :
      Unaware fun state : Passage τ × Option τ => addChordNote settings state child :=
    fun found state => addChordNote_behind settings found state child
  have hfold := OmitsAll.foldl_refl (hunaware settings) (hunaware { settings with legacySyntax })
    (fun child state => omitsAll_addChordNote legacySyntax hsettings state child) children (s, none)
  have hfinish : Unaware fun result : Passage τ × Option τ =>
      result.2.elim (result.1.reject [⟨.emptyChord, position⟩]) fun duration =>
        result.1.mapCursor (·.advance duration) := by
    rintro found ⟨s, duration⟩
    cases duration with
    | none => exact reject_behind found s _
    | some duration => rfl
  have haddChord (settings : Settings) (children : List Node) :
      s.addChord settings children position =
        (children.foldl (addChordNote settings) (s, none)).2.elim
          ((children.foldl (addChordNote settings) (s, none)).1.reject [⟨.emptyChord, position⟩])
          fun duration => (children.foldl (addChordNote settings) (s, none)).1.mapCursor
            (·.advance duration) := by
    unfold addChord
    dsimp only
    split <;> simp [*]
  rw [haddChord, haddChord, disabledIn_flatMap]
  exact hfold.map hfinish

end Passage

/-! ## Other elements -/

namespace Control

theorem readBarlinePart_withoutLegacy (spec : BarlineSpec) (part : Node) :
    readBarlinePart spec part.withoutLegacy = readBarlinePart spec part := by
  cases part with
  | atom kind text position => rw [Node.withoutLegacy]
  | element name children position =>
      rw [Node.withoutLegacy_element]
      cases name with
      | times => simp [readBarlinePart, Node.kind, Node.position, ElementName.dropLegacy]
      | _ => rfl

theorem readBarline_withoutLegacy (settings : Settings) (legacySyntax : Bool)
    (children : List Node) (position : Position) :
    readBarline { settings with legacySyntax }
        (.element .barline (children.map Node.withoutLegacy) position) =
      readBarline settings (.element .barline children position) := by
  simp only [readBarline, Node.children, List.foldlM_map, readBarlinePart_withoutLegacy]

end Control

namespace Passage

variable {τ : Type} [TimeValue τ] {settings : Settings} (legacySyntax : Bool)

theorem omitsAll_read (hsettings : settings.legacySyntax = false) (s : Passage τ) (child : Node) :
    OmitsAll (disabledIn settings child.musicNotes) (read settings s child)
      (read { settings with legacySyntax } s child.withoutLegacy) := by
  cases child with
  | atom kind text position =>
      rw [Node.withoutLegacy]
      exact .refl _
  | element name children position =>
      rw [Node.withoutLegacy_element]
      cases name with
      | note => exact omitsAll_addSingle legacySyntax hsettings s true children position
      | rest => exact omitsAll_addSingle legacySyntax hsettings s false children position
      | chord => exact omitsAll_addChord legacySyntax hsettings s children position
      | barline =>
          simp only [read, ElementName.dropLegacy, Control.readBarline_withoutLegacy]
          exact .refl _
      | clef | key | time | volta | goBack | goForward =>
          simp only [read, ElementName.dropLegacy, Control.readClef, Control.readKey,
            Control.readFirst, Control.readMeter, Control.readVolta, Control.readMove,
            Node.atoms_map_withoutLegacy]
          exact .refl _
      | _ => exact .refl _

end Passage

/-! ## Instruments, scores and documents -/

section

variable {τ : Type} [TimeValue τ] {settings : Settings} (legacySyntax : Bool)

theorem InstrumentState.omitsAll_read (hsettings : settings.legacySyntax = false)
    (s : InstrumentState τ) (child : Node) :
    OmitsAll (disabledIn settings child.instrumentNotes)
      (read settings s child) (read { settings with legacySyntax } s child.withoutLegacy) := by
  cases child with
  | atom kind text position =>
      rw [Node.withoutLegacy]
      exact .refl _
  | element name children position =>
      rw [Node.withoutLegacy_element]
      cases name with
      | music =>
          have hunaware (settings : Settings) (child : Node) :
              Unaware fun s : Passage τ => Passage.read settings s child :=
            fun found s => Passage.read_behind settings found s child
          have hfold := OmitsAll.foldl_refl (hunaware settings)
            (hunaware { settings with legacySyntax })
            (fun child s => Passage.omitsAll_read legacySyntax hsettings s child) children
            { linking := s.linking, part := s.part }
          have hback : Unaware fun passage : Passage τ =>
              { s with linking := passage.linking, part := passage.part } := fun _ _ => rfl
          rw [Node.instrumentNotes, disabledIn_flatMap]
          exact (hfold.map hback :)
      | instrumentName | midi | staves =>
          simp only [read, readMidi, ElementName.dropLegacy, Node.atoms_map_withoutLegacy,
            Node.string?_map_withoutLegacy]
          exact .refl _
      | _ => exact .refl _

theorem ScoreState.omitsAll_read (hsettings : settings.legacySyntax = false) (s : ScoreState τ)
    (child : Node) :
    OmitsAll (disabledIn settings child.scoreNotes)
      (read settings s child) (read { settings with legacySyntax } s child.withoutLegacy) := by
  cases child with
  | atom kind text position =>
      rw [Node.withoutLegacy]
      exact .refl _
  | element name children position =>
      rw [Node.withoutLegacy_element]
      cases name with
      | instrument =>
          have hunaware (settings : Settings) (child : Node) :
              Unaware fun s : InstrumentState τ => InstrumentState.read settings s child :=
            fun found s => InstrumentState.read_behind settings found s child
          have hfold := OmitsAll.foldl_refl (hunaware settings)
            (hunaware { settings with legacySyntax })
            (fun child s => InstrumentState.omitsAll_read legacySyntax hsettings s child) children
            (.start settings s.linking)
          have hback : Unaware fun state : InstrumentState τ => (⟨{ s.header with
              instruments := s.header.instruments ++ [state.finish] }, state.linking⟩ :
                ScoreState τ) := fun _ _ => rfl
          rw [Node.scoreNotes, disabledIn_flatMap]
          exact (hfold.map hback :)
      | version | option | title =>
          simp only [read, ElementName.dropLegacy, Node.atoms_map_withoutLegacy,
            Node.string?_map_withoutLegacy]
          exact .refl _
      | _ => exact .refl _

theorem omitsAll_analyseScore (hsettings : settings.legacySyntax = false) (children : List Node) :
    OmitsAll (disabledIn settings (children.flatMap Node.scoreNotes))
      (analyseScore settings children : ScoreAnalysis τ)
      (analyseScore { settings with legacySyntax } (children.map Node.withoutLegacy)) := by
  have hunaware (settings : Settings) (child : Node) :
      Unaware fun s : ScoreState τ => ScoreState.read settings s child :=
    fun found s => ScoreState.read_behind settings found s child
  have hfold := OmitsAll.foldl_refl (hunaware settings) (hunaware { settings with legacySyntax })
    (fun child s => ScoreState.omitsAll_read legacySyntax hsettings s child) children
    ({} : ScoreState τ)
  have hfinish : Unaware fun state : ScoreState τ =>
      (⟨{ state.header with
            notes := state.linking.finish.notes
            relations := state.linking.finish.relations },
        state.linking.finish.diagnostics⟩ : ScoreAnalysis τ) := fun found state =>
    congrArg (fun l : Linking τ =>
      (⟨{ state.header with notes := l.notes, relations := l.relations },
        l.diagnostics⟩ : ScoreAnalysis τ)) (Linking.report_behind found state.linking _)
  rw [disabledIn_flatMap]
  exact hfold.map hfinish

omit [TimeValue τ] in
theorem Analysis.omitsAll_addScore {own : List Diagnostic} {s s' : ScoreAnalysis τ}
    (h : OmitsAll own s s') (a : Analysis τ) : OmitsAll own (a.addScore s) (a.addScore s') := by
  obtain ⟨found, found', t, rfl, rfl, hmerges⟩ := h
  have haddScore (found : List Diagnostic) : a.addScore (behind found t) =
      behind (a.diagnostics ++ found) ({ a with diagnostics := [] }.addScore t) := by
    simp [behind, addScore, add, report]
  exact ⟨_, _, _, haddScore found, haddScore found', (Merges.nil_left _).append hmerges⟩

theorem paragraphText_withoutLegacy (children : List Node) :
    Analysis.paragraphText (children.map Node.withoutLegacy) = Analysis.paragraphText children := by
  simp [Analysis.paragraphText, List.filter_map, Function.comp_def]

theorem Analysis.omitsAll_readItem (hsettings : settings.legacySyntax = false) (a : Analysis τ)
    (child : Node) :
    OmitsAll (disabledIn settings (DocumentPart.item child).scoreNotes) (readItem settings a child)
      (readItem { settings with legacySyntax } a child.withoutLegacy) := by
  cases child with
  | atom kind text position =>
      rw [Node.withoutLegacy]
      exact .refl _
  | element name children position =>
      rw [Node.withoutLegacy_element]
      cases name with
      | score =>
          have hnotes : (DocumentPart.item (.element .score children position)).scoreNotes =
              children.flatMap Node.scoreNotes := by
            simp [DocumentPart.scoreNotes, DocumentPart.score?, Node.kind, Node.children]
          rw [hnotes]
          exact omitsAll_addScore (omitsAll_analyseScore legacySyntax hsettings children) a
      | paragraph =>
          simp only [readItem, ElementName.dropLegacy, paragraphText_withoutLegacy]
          exact .refl _
      | title =>
          simp only [readItem, addTitle, ElementName.dropLegacy, Node.string?_map_withoutLegacy]
          exact .refl _
      | _ => exact .refl _

theorem Analysis.omitsAll_read (hsettings : settings.legacySyntax = false) (a : Analysis τ)
    (child : Node) :
    OmitsAll (disabledIn settings ((DocumentPart.ofChild child).flatMap DocumentPart.scoreNotes))
      (read settings a child) (read { settings with legacySyntax } a child.withoutLegacy) := by
  cases child with
  | atom kind text position =>
      rw [Node.withoutLegacy]
      exact .refl _
  | element name children position =>
      rw [Node.withoutLegacy_element]
      cases name with
      | content =>
          have hunaware (settings : Settings) (item : Node) :
              Unaware fun a : Analysis τ => readItem settings a item :=
            fun found a => readItem_behind settings found a item
          have hfold := OmitsAll.foldl_refl (hunaware settings)
            (hunaware { settings with legacySyntax })
            (fun item a => omitsAll_readItem legacySyntax hsettings a item) children a
          rw [DocumentPart.ofChild, List.flatMap_map, disabledIn_flatMap]
          exact hfold
      | version =>
          simp only [read, ElementName.dropLegacy, Node.atoms_map_withoutLegacy]
          exact .refl _
      | _ => exact .refl _

/-- Two analyses of a score or a document. -/
theorem exists_omitsAll_analyse (hsettings : settings.legacySyntax = false) {tree : Node}
    (htree : tree.kind = .element .document ∨ tree.kind = .element .score) :
    ∃ analysis plain : Analysis τ, analyse settings tree = .ok analysis ∧
      analyse { settings with legacySyntax } tree.withoutLegacy = .ok plain ∧
      OmitsAll (disabledIn settings tree.documentNotes) analysis plain := by
  cases tree with
  | atom kind text position => rcases htree with h | h <;> cases h
  | element name children position =>
      rw [Node.withoutLegacy_element, Node.documentNotes_eq]
      rcases htree with h | h
      · obtain rfl : name = .document := NodeKind.element.inj h
        have hunaware (settings : Settings) (child : Node) :
            Unaware fun a : Analysis τ => Analysis.read settings a child :=
          fun found a => Analysis.read_behind settings found a child
        have hfold := OmitsAll.foldl_refl (hunaware settings)
          (hunaware { settings with legacySyntax })
          (fun child a => Analysis.omitsAll_read legacySyntax hsettings a child) children .empty
        refine ⟨_, _, rfl, rfl, ?_⟩
        rw [Node.parts, documentParts, List.flatMap_assoc, disabledIn_flatMap]
        exact hfold
      · obtain rfl : name = .score := NodeKind.element.inj h
        have hitem := Analysis.omitsAll_readItem (τ := τ) legacySyntax hsettings .empty
          (.element .score children position)
        rw [Node.withoutLegacy_element] at hitem
        have hparts : (Node.element .score children position).parts =
            [.item (.element .score children position)] := rfl
        refine ⟨_, _, rfl, rfl, ?_⟩
        rw [hparts, List.flatMap_singleton]
        exact hitem

/-! ## Three analyses -/

omit [TimeValue τ] in
theorem Analysis.eq_of_omitsAll_nil {a a' : Analysis τ} (h : OmitsAll [] a a') : a = a' := by
  obtain ⟨found, found', t, rfl, rfl, hmerges⟩ := h
  rw [hmerges.eq_of_nil_left]

/-- Where the legacy syntax is off, the document is that of the tree without legacy options, for
which the legacy syntax may be on as well. Apart from its problems only the legacy options of notes
and rests that are accepted are reported, each of them once. -/
theorem merges_withoutLegacy_of_analyse (hsettings : settings.legacySyntax = false) {tree : Node}
    (htree : tree.kind = .element .document ∨ tree.kind = .element .score) :
    ∃ analysis plain : Analysis τ, analyse settings tree = .ok analysis ∧
      analyse settings tree.withoutLegacy = .ok plain ∧
      analyse { settings with legacySyntax := true } tree.withoutLegacy = .ok plain ∧
      analysis.document = plain.document ∧
      Merges (disabledIn settings tree.documentNotes) plain.diagnostics analysis.diagnostics := by
  have hoff : { settings with legacySyntax := false } = settings := by rw [← hsettings]
  obtain ⟨analysis, plain, hanalysis, hplain, homits⟩ :=
    exists_omitsAll_analyse (τ := τ) false hsettings htree
  -- without legacy options nothing is left that one of the two settings could report
  obtain ⟨plain', legacy, hplain', hlegacy, hnothing⟩ :=
    exists_omitsAll_analyse (τ := τ) true hsettings (tree.kind_withoutLegacy.symm ▸ htree)
  rw [disabledIn_of_isPlain settings tree.isPlain_of_mem_documentNotes] at hnothing
  rw [hoff] at hplain
  rw [tree.withoutLegacy_withoutLegacy, ← Analysis.eq_of_omitsAll_nil hnothing] at hlegacy
  obtain rfl : plain' = plain := Except.ok.inj (hplain'.symm.trans hplain)
  refine ⟨analysis, plain', hanalysis, hplain, hlegacy, ?_⟩
  obtain ⟨found, found', t, rfl, rfl, hmerges⟩ := homits
  exact ⟨rfl, by simpa [behind] using hmerges.append (Merges.nil_left t.diagnostics)⟩

end

/-- A long note with two legacy options, a rest with one, a note that cannot be read, and a note
with a legacy option in front of another one. -/
def legacyOptionsInScore : Node :=
  let here : Position := ⟨1, 1⟩
  let word (text : String) : Node := .atom .label text here
  .element .score [.element .instrument [.element .music
    [.element .note [word "c4", word "l", word "l", word "g+"] here,
      .element .rest [word "q", word "l"] here,
      .element .note [word "l", word "q", word "l"] here,
      .element .note [word "d4", word "q", word "g-", word "v2"] here] here] here] here

theorem merges_withoutLegacy_legacyOptionsInScore :
    let settings : Settings := { legacySyntax := false }
    settings.legacySyntax = false ∧ legacyOptionsInScore.kind = .element .score ∧
    (disabledIn settings legacyOptionsInScore.documentNotes).map Diagnostic.message =
      ["legacy option 'l' is disabled", "legacy option 'g+' is disabled",
        "legacy option 'l' is disabled", "legacy option 'g-' is disabled"] ∧
    ∃ analysis plain : Analysis Rat, analyse settings legacyOptionsInScore = .ok analysis ∧
      analyse settings legacyOptionsInScore.withoutLegacy = .ok plain ∧
      analyse { settings with legacySyntax := true } legacyOptionsInScore.withoutLegacy =
        .ok plain ∧
      analysis.document = plain.document ∧
      Merges (disabledIn settings legacyOptionsInScore.documentNotes) plain.diagnostics
        analysis.diagnostics :=
  ⟨rfl, rfl, by decide +kernel, merges_withoutLegacy_of_analyse rfl (.inr rfl)⟩

end ScorePlayback
