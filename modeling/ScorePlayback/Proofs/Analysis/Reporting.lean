import ScorePlayback.Compile

/-! # Problems that are reported are not looked at again

Whatever is read adds to the problems found so far and does not depend on them. So if something
only reports its own problems, nothing else changes without it. -/

namespace ScorePlayback

/-! ## States that report -/

/-- A state that has reported some things: the same state, if other reports stood in front of its
own. -/
class Reporting (δ : outParam Type) (σ : Type) where
  behind : List δ → σ → σ

open Reporting (behind)

section

variable {δ σ ρ κ : Type} [Reporting δ σ] [Reporting δ ρ]

/-- A step that does not depend on what has been reported. -/
def Unaware (f : σ → ρ) : Prop := ∀ found s, f (behind found s) = behind found (f s)

/-- Somewhere the first state has some more reports. Otherwise they are the same. -/
def Omits (own : List δ) (s s' : σ) : Prop :=
  ∃ front t, s = behind (front ++ own) t ∧ s' = behind front t

theorem Unaware.foldl {step : σ → κ → σ} (hstep : ∀ x, Unaware (step · x)) (xs : List κ) :
    Unaware fun s => xs.foldl step s :=
  fun found _ => List.foldl_hom (behind found) fun s x => hstep x found s

namespace Omits

variable {own : List δ} {s s' : σ}

theorem map {f : σ → ρ} (hf : Unaware f) (h : Omits own s s') : Omits own (f s) (f s') := by
  obtain ⟨front, t, rfl, rfl⟩ := h
  exact ⟨front, f t, hf _ t, hf _ t⟩

theorem foldl_replace {step : σ → κ → σ} (hstep : ∀ x, Unaware (step · x)) {x y : κ}
    (h : ∀ s, Omits own (step s x) (step s y)) (before after : List κ) (s : σ) :
    Omits own ((before ++ x :: after).foldl step s) ((before ++ y :: after).foldl step s) := by
  simp only [List.foldl_append, List.foldl_cons]
  exact (h _).map (Unaware.foldl hstep after)

theorem foldl_erase {step : σ → κ → σ} (hstep : ∀ x, Unaware (step · x)) {x : κ}
    (h : ∀ s, Omits own (step s x) s) (before after : List κ) (s : σ) :
    Omits own ((before ++ x :: after).foldl step s) ((before ++ after).foldl step s) := by
  simp only [List.foldl_append, List.foldl_cons]
  exact (h _).map (Unaware.foldl hstep after)

end Omits

end

/-! ## Links -/

variable {τ : Type}

instance : Reporting Diagnostic (Linking τ) where
  behind found l := { l with diagnostics := found ++ l.diagnostics }

theorem Linking.omits_report (own : List Diagnostic) (l : Linking τ) : Omits own (l.report own) l :=
  ⟨l.diagnostics, { l with diagnostics := [] }, by simp [behind, report], by simp [behind]⟩

namespace Linking

variable (settings : Settings) (front : List Diagnostic) (l : Linking τ)

theorem report_behind (found : List Diagnostic) :
    (behind front l).report found = behind front (l.report found) := by
  simp [behind, report]

theorem addClosed_behind {π : Type} (closed : Option (ClosedRelation π)) :
    (behind front l).addClosed closed = behind front (l.addClosed closed) := by
  cases closed <;> rfl

theorem addPlainBeam_behind (members : List Nat) :
    (behind front l).addPlainBeam settings members =
      behind front (l.addPlainBeam settings members) := by
  unfold addPlainBeam beamAutomatically
  split <;> rfl

theorem addBeam_behind (parts : List (Nat × List BeamSegment)) :
    (behind front l).addBeam settings parts = behind front (l.addBeam settings parts) := by
  have hwritten : (behind front l).isWritten parts = l.isWritten parts := rfl
  unfold addBeam
  rw [hwritten]
  split
  · rfl
  · exact addPlainBeam_behind settings front l (parts.map Prod.fst)

theorem applyMarker_behind (note : Nat) (position : Position) (m : Marker) :
    (behind front l).applyMarker settings note position m =
      behind front (l.applyMarker settings note position m) := by
  have hmark {π : Type} (l : Linking τ) (r : Resolution (Registry π) (ClosedRelation π)) :
      ((behind front l).report r.diagnostics).addClosed r.closed =
        behind front ((l.report r.diagnostics).addClosed r.closed) := by
    rw [report_behind, addClosed_behind]
  cases m with
  | tie key role =>
      let r := l.ties.mark .tie l.pitchOf ⟨key, role, note, position, ()⟩
      exact hmark { l with ties := r.state } r
  | slur key role =>
      let r := l.slurs.mark .slur l.pitchOf ⟨key, role, note, position, ()⟩
      exact hmark { l with slurs := r.state } r
  | beam key role segments =>
      let r := l.beams.mark .beam l.pitchOf ⟨key, role, note, position, segments⟩
      have hreport := report_behind front { l with beams := r.state } r.diagnostics
      have hclosed : ((behind front l).beams.mark .beam (behind front l).pitchOf
        ⟨key, role, note, position, segments⟩).closed = r.closed := rfl
      unfold applyMarker
      dsimp only
      rw [hclosed]
      cases r.closed with
      | none => exact hreport
      | some c =>
          exact (congrArg (addBeam settings _) hreport).trans (addBeam_behind settings front _ _)
  | tupletStart key spec =>
      let r := l.tuplets.mark .tuplet l.pitchOf ⟨key, .starts, note, position, some spec⟩
      exact hmark { l with tuplets := r.state } r
  | tupletEnd key =>
      let r := l.tuplets.mark .tuplet l.pitchOf ⟨key, .ends, note, position, none⟩
      exact hmark { l with tuplets := r.state } r

theorem applyMarkers_behind (note : Nat) (position : Position) (inChord : Bool)
    (markers : List Marker) :
    (behind front l).applyMarkers settings note position inChord markers =
      behind front (l.applyMarkers settings note position inChord markers) := by
  have hfold : markers.foldl (applyMarker settings note position) (behind front l) =
      behind front (markers.foldl (applyMarker settings note position) l) :=
    List.foldl_hom (behind front) fun l m => applyMarker_behind settings front l note position m
  unfold applyMarkers
  rw [hfold]
  split <;> rfl

theorem closeLegacyTie_behind [TimeValue τ] (note : Nat) (time : τ) :
    (behind front l).closeLegacyTie note time = behind front (l.closeLegacyTie note time) := by
  let r := l.legacyTie.offer l.notes note time
  have hreport := report_behind front { l with legacyTie := r.state } r.diagnostics
  have hclosed : ((behind front l).legacyTie.offer (behind front l).notes note time).closed =
    r.closed := rfl
  unfold closeLegacyTie
  dsimp only
  rw [hclosed]
  cases r.closed with
  | none => exact hreport
  | some pair => exact congrArg (addRelation · ⟨.tie, [pair.1, pair.2], .tie⟩) hreport

theorem startLegacyTie_behind (tie : PendingTie τ) :
    (behind front l).startLegacyTie tie = behind front (l.startLegacyTie tie) :=
  report_behind front { l with legacyTie := (l.legacyTie.start tie).state } _

theorem applyLegacyBeam_behind (note : Nat) (position : Position) (inChord : Bool)
    (mark : Option BeamMark) :
    (behind front l).applyLegacyBeam settings note position inChord mark =
      behind front (l.applyLegacyBeam settings note position inChord mark) := by
  rcases mark with _ | _ | _
  · unfold applyLegacyBeam
    dsimp only
    split <;> rfl
  · rfl
  · let r := l.legacyBeams.leave note position
    have hreport := report_behind front { l with legacyBeams := r.state } r.diagnostics
    have hclosed : ((behind front l).legacyBeams.leave note position).closed = r.closed := rfl
    unfold applyLegacyBeam
    dsimp only
    rw [hclosed]
    cases r.closed with
    | none => exact hreport
    | some members =>
        exact (congrArg (addPlainBeam settings members) hreport).trans
          (addPlainBeam_behind settings front _ members)

end Linking

/-! ## Music -/

instance : Reporting Diagnostic (Passage τ) where
  behind found s := { s with linking := behind found s.linking }

/-- Only the state reports. -/
instance {δ σ α : Type} [Reporting δ σ] : Reporting δ (σ × α) where
  behind found result := (behind found result.1, result.2)

theorem Passage.omits_reject (rejections : List Rejection) (s : Passage τ) :
    Omits (rejections.map Rejection.diagnostic) (s.reject rejections) s := by
  obtain ⟨front, l, hown, hwithout⟩ := s.linking.omits_report (rejections.map Rejection.diagnostic)
  refine ⟨front, { s with linking := l }, ?_, ?_⟩
  · exact congrArg (fun l => { s with linking := l }) hown
  · exact congrArg (fun l => { s with linking := l }) hwithout

namespace Passage

variable (settings : Settings) (front : List Diagnostic) (s : Passage τ)

theorem reject_behind (rejections : List Rejection) :
    (behind front s).reject rejections = behind front (s.reject rejections) :=
  congrArg (fun l => { s with linking := l }) (Linking.report_behind front s.linking _)

variable [TimeValue τ]

theorem placeNote_behind (reading : NoteReading) (position : Position) (inChord : Bool) :
    (behind front s).placeNote settings reading position inChord =
      behind front (s.placeNote settings reading position inChord) := by
  have hlinking : (behind front s).linking = behind front s.linking := rfl
  have hnotes : (behind front s.linking).notes = s.linking.notes := rfl
  have hpart : (behind front s).part = s.part := rfl
  have hrealize : (behind front s).realize reading.spec position inChord =
    s.realize reading.spec position inChord := rfl
  have hadd (l : Linking τ) (note : NoteRest τ) :
    (behind front l).addNote note = behind front (l.addNote note) := rfl
  unfold placeNote
  simp only [hlinking, hnotes, hpart, hrealize, Linking.reject, Linking.report_behind, hadd,
    Linking.closeLegacyTie_behind, ← apply_ite (behind front), Linking.startLegacyTie_behind,
    Linking.applyLegacyBeam_behind, Linking.applyMarkers_behind]
  rfl

theorem addNote_behind (isNote : Bool) (items : List Node) (position : Position)
    (inChord : Bool) :
    (behind front s).addNote settings isNote items position inChord =
      behind front (s.addNote settings isNote items position inChord) := by
  have hinherited : (behind front s).inherited = s.inherited := rfl
  unfold addNote
  rw [hinherited]
  split
  · next reading hreading =>
    exact congrArg (·, _) (placeNote_behind settings front s reading position inChord)
  · exact congrArg (·, none) (reject_behind front s _)

theorem addSingle_behind (isNote : Bool) (items : List Node) (position : Position) :
    (behind front s).addSingle settings isNote items position =
      behind front (s.addSingle settings isNote items position) := by
  unfold addSingle
  rw [addNote_behind]
  generalize s.addNote settings isNote items position false = result
  obtain ⟨s', duration⟩ := result
  cases duration <;> rfl

theorem addChordNote_behind (state : Passage τ × Option τ) (child : Node) :
    addChordNote settings (behind front state) child =
      behind front (addChordNote settings state child) := by
  obtain ⟨s, first⟩ := state
  show addChordNote settings (behind front s, first) child = _
  unfold addChordNote
  dsimp only
  split
  · rw [addNote_behind]
    rfl
  · exact congrArg (·, first) (reject_behind front s _)

theorem addChord_behind (children : List Node) (position : Position) :
    (behind front s).addChord settings children position =
      behind front (s.addChord settings children position) := by
  have hfold : children.foldl (addChordNote settings) (behind front s, none) =
      behind front (children.foldl (addChordNote settings) (s, none)) :=
    Unaware.foldl (fun child front state => addChordNote_behind settings front state child)
      children front (s, none)
  unfold addChord
  rw [hfold]
  generalize children.foldl (addChordNote settings) (s, none) = result
  obtain ⟨s', first⟩ := result
  cases first with
  | none => exact reject_behind front s' _
  | some duration => rfl

omit [TimeValue τ] in
theorem accept_behind {α : Type} (position : Position) (reading : Except GrammarFault α)
    (use : Passage τ → α → Passage τ)
    (huse : ∀ value, use (behind front s) value = behind front (use s value)) :
    (behind front s).accept position reading (use (behind front s)) =
      behind front (s.accept position reading (use s)) := by
  cases reading with
  | ok value => exact huse value
  | error fault => exact reject_behind front s _

/-- What an element of music does not depend on the problems found so far. -/
theorem read_behind (child : Node) :
    read settings (behind front s) child = behind front (read settings s child) := by
  unfold read
  split
  · exact addSingle_behind settings front s true _ _
  · exact addSingle_behind settings front s false _ _
  · exact addChord_behind settings front s _ _
  · exact accept_behind front s _ _ (fun s clef => s.addSymbol (.clef clef) _) fun _ => rfl
  · exact accept_behind front s _ _ (fun s key => s.addKey key _) fun _ => rfl
  · exact accept_behind front s _ _ (fun s meter => s.addSymbol (.meter meter) _) fun _ => rfl
  · split
    · rfl
    · exact reject_behind front s _
  · exact accept_behind front s _ _
      (fun s (bracket : Nat × Nat) => s.addSymbol (.volta bracket.1 bracket.2) _) fun _ => rfl
  · exact accept_behind front s _ _ goBack fun move => by cases move <;> rfl
  · exact accept_behind front s _ _ goForward fun move => by cases move <;> rfl
  · exact reject_behind front s _

end Passage

/-! ## Instruments, scores and documents -/

instance : Reporting Diagnostic (InstrumentState τ) where
  behind found s := { s with linking := behind found s.linking }

instance : Reporting Diagnostic (ScoreState τ) where
  behind found s := { s with linking := behind found s.linking }

instance : Reporting Diagnostic (ScoreAnalysis τ) where
  behind found s := { s with diagnostics := found ++ s.diagnostics }

instance : Reporting Diagnostic (Analysis τ) where
  behind found a := { a with diagnostics := found ++ a.diagnostics }

section

variable [TimeValue τ] (settings : Settings) (front : List Diagnostic)

namespace InstrumentState

variable (s : InstrumentState τ)

omit [TimeValue τ] in
theorem report_behind (found : List Diagnostic) :
    { behind front s with linking := (behind front s).linking.report found } =
      behind front { s with linking := s.linking.report found } :=
  congrArg (fun l => { s with linking := l }) (Linking.report_behind front s.linking _)

theorem addMusic_behind (children : List Node) :
    (behind front s).addMusic settings children = behind front (s.addMusic settings children) := by
  have hfold : children.foldl (Passage.read settings)
      (behind front { linking := s.linking, part := s.part }) =
        behind front (children.foldl (Passage.read settings) ⟨s.linking, s.part, {}⟩) :=
    List.foldl_hom (behind front) fun s child => Passage.read_behind settings front s child
  exact congrArg (fun passage : Passage τ =>
    { s with linking := passage.linking, part := passage.part }) hfold

theorem read_behind (child : Node) :
    read settings (behind front s) child = behind front (read settings s child) := by
  unfold read
  split
  · split
    · rfl
    · exact report_behind front s _
  · have hmidi : (behind front s).midi = s.midi := rfl
    rw [hmidi]
    split
    · rfl
    · exact report_behind front s _
  · split
    · rfl
    · exact report_behind front s _
  · exact addMusic_behind settings front s _
  · exact report_behind front s _

end InstrumentState

namespace ScoreState

variable (s : ScoreState τ)

omit [TimeValue τ] in
theorem report_behind (found : List Diagnostic) :
    { behind front s with linking := (behind front s).linking.report found } =
      behind front { s with linking := s.linking.report found } :=
  congrArg (fun l => { s with linking := l }) (Linking.report_behind front s.linking _)

theorem addInstrument_behind (children : List Node) :
    (behind front s).addInstrument settings children =
      behind front (s.addInstrument settings children) := by
  have hfold : children.foldl (InstrumentState.read settings)
      (behind front (.start settings s.linking)) =
        behind front (children.foldl (InstrumentState.read settings) (.start settings s.linking)) :=
    List.foldl_hom (behind front) fun s child => InstrumentState.read_behind settings front s child
  exact congrArg (fun state : InstrumentState τ => (⟨{ s.header with
    instruments := s.header.instruments ++ [state.finish] }, state.linking⟩ : ScoreState τ)) hfold

theorem read_behind (child : Node) :
    read settings (behind front s) child = behind front (read settings s child) := by
  unfold read
  split
  · split
    · rfl
    · exact report_behind front s _
  · split
    · rfl
    · exact report_behind front s _
  · split
    · rfl
    · exact report_behind front s _
  · exact addInstrument_behind settings front s _
  · exact report_behind front s _

end ScoreState

namespace Analysis

variable (a : Analysis τ)

omit [TimeValue τ] in
theorem report_behind (found : List Diagnostic) :
    (behind front a).report found = behind front (a.report found) := by
  simp [behind, report]

omit [TimeValue τ] in
theorem addTitle_behind (child : Node) :
    (behind front a).addTitle child = behind front (a.addTitle child) := by
  have hdocument : (behind front a).document = a.document := rfl
  unfold addTitle
  rw [hdocument]
  split
  · exact report_behind front a _
  · split
    · rfl
    · exact report_behind front a _

theorem readItem_behind (child : Node) :
    readItem settings (behind front a) child = behind front (readItem settings a child) := by
  unfold readItem
  split
  · exact report_behind front (a.add _) _
  · rfl
  · exact addTitle_behind front a _
  · exact report_behind front a _

theorem read_behind (child : Node) :
    read settings (behind front a) child = behind front (read settings a child) := by
  unfold read
  split
  · split
    · rfl
    · exact report_behind front a _
  · exact Unaware.foldl (fun item front a => readItem_behind settings front a item) _ front a
  · exact report_behind front a _

end Analysis

end

end ScorePlayback
