import ScorePlayback.Analysis.Passage
import ScorePlayback.Proofs.Relation.History

/-! # Errors of grammar

Only what is written wrongly is an error of grammar: elements and options that are rejected. What is
wrong with the relations between notes is not. -/

namespace ScorePlayback

def grammarErrors (found : List Diagnostic) : List Diagnostic :=
  found.filter (·.kind = .grammarError)

@[simp] theorem grammarErrors_append (found more : List Diagnostic) :
    grammarErrors (found ++ more) = grammarErrors found ++ grammarErrors more :=
  List.filter_append ..

theorem grammarErrors_of_ne {found : List Diagnostic} (h : ∀ d ∈ found, d.kind ≠ .grammarError) :
    grammarErrors found = [] :=
  List.filter_eq_nil_iff.mpr fun d hd hkind => h d hd (of_decide_eq_true hkind)

theorem grammarErrors_rejections (rejections : List Rejection) :
    grammarErrors (rejections.map Rejection.diagnostic) = rejections.map Rejection.diagnostic :=
  List.filter_eq_self.mpr (List.forall_mem_map.mpr fun _ _ => rfl)

/-! ## Relations -/

/-- A problem with a relation, a legacy one or another. -/
inductive Diagnostic.IsOfRelation : Diagnostic → Prop where
  | relation (fault : RelationFault) (position : Position) :
      IsOfRelation (fault.diagnostic position)
  | legacy (fault : LegacyFault) (position : Position) : IsOfRelation (fault.diagnostic position)

theorem Diagnostic.IsOfRelation.kind_ne {d : Diagnostic} (h : d.IsOfRelation) :
    d.kind ≠ .grammarError := by
  cases h with
  | relation fault position =>
      cases fault <;> simp [RelationFault.diagnostic, RelationFault.kind]
  | legacy fault position => cases fault <;> simp [LegacyFault.diagnostic, LegacyFault.kind]

namespace Registry

variable {π : Type} (rules : RelationRules π)

theorem Marked.isOfRelation {rules : RelationRules π} {pitchOf : Nat → Option Pitch}
    {r : Registry π} {e : Endpoint π} {told : Resolution (Registry π) (ClosedRelation π)}
    (h : Marked rules pitchOf r e told) : ∀ d ∈ told.diagnostics, d.IsOfRelation := by
  cases h with
  | starts | continues => exact nofun
  | startsAgain | continuesNone | endsNone =>
      exact List.forall_mem_singleton.mpr (.relation _ e.position)
  | ends => exact List.forall_mem_map.mpr fun fault _ => .relation fault e.position

theorem isOfRelation_mark (pitchOf : Nat → Option Pitch) (r : Registry π) (e : Endpoint π) :
    ∀ d ∈ (r.mark rules pitchOf e).diagnostics, d.IsOfRelation :=
  (marked_mark rules pitchOf r e).isOfRelation

theorem isOfRelation_finish (r : Registry π) : ∀ d ∈ r.finish rules, d.IsOfRelation :=
  List.forall_mem_map.mpr fun entry _ => .relation _ entry.2.start.position

end Registry

namespace LegacyTie

variable {τ : Type}

theorem isOfRelation_start (t : LegacyTie τ) (tie : PendingTie τ) :
    ∀ d ∈ (t.start tie).diagnostics, d.IsOfRelation := by
  unfold start
  cases t.pending with
  | none => exact nofun
  | some previous => exact List.forall_mem_singleton.mpr (.legacy .tieReplaced previous.position)

theorem isOfRelation_join (notes : List (NoteRest τ)) (tie : PendingTie τ) (note : Nat)
    (candidate : NoteRest τ) :
    ∀ d ∈ (join notes tie note candidate).diagnostics, d.IsOfRelation := by
  unfold join
  split
  · next start next _ _ =>
    split
    · exact nofun
    · exact List.forall_mem_singleton.mpr (.legacy (.tieMisses start next) tie.position)
  · exact nofun

theorem isOfRelation_offer [TimeValue τ] (t : LegacyTie τ) (notes : List (NoteRest τ)) (note : Nat)
    (time : τ) : ∀ d ∈ (t.offer notes note time).diagnostics, d.IsOfRelation := by
  unfold offer
  split
  · split
    · exact isOfRelation_join notes _ note _
    · exact nofun
  · exact nofun

theorem isOfRelation_finish (t : LegacyTie τ) : ∀ d ∈ t.finish, d.IsOfRelation :=
  List.forall_mem_map.mpr fun tie _ => .legacy .tieAlone tie.position

end LegacyTie

namespace LegacyBeams

theorem isOfRelation_leave (b : LegacyBeams) (note : Nat) (position : Position) :
    ∀ d ∈ (b.leave note position).diagnostics, d.IsOfRelation := by
  unfold leave
  split
  · exact List.forall_mem_singleton.mpr (.legacy .beamNotOpen position)
  · exact nofun

theorem isOfRelation_finish (b : LegacyBeams) : ∀ d ∈ b.finish, d.IsOfRelation :=
  List.forall_mem_map.mpr fun beam _ =>
    .legacy (.beamNeverClosed beam.members.length) beam.position

end LegacyBeams

/-! ## Links -/

namespace Linking

variable {τ : Type}

/-- Nothing is wrong with the grammar between these links. -/
def Grammatical (l l' : Linking τ) : Prop :=
  grammarErrors l'.diagnostics = grammarErrors l.diagnostics

/-- Between these links only problems with relations are reported. -/
def ReportsRelations (l l' : Linking τ) : Prop :=
  ∃ found, l'.diagnostics = l.diagnostics ++ found ∧ ∀ d ∈ found, d.IsOfRelation

namespace ReportsRelations

variable {l l' : Linking τ}

theorem refl (l : Linking τ) : ReportsRelations l l := ⟨[], (List.append_nil _).symm, nofun⟩

theorem grammatical (h : ReportsRelations l l') : Grammatical l l' := by
  obtain ⟨found, hl, hfound⟩ := h
  rw [Grammatical, hl, grammarErrors_append, grammarErrors_of_ne fun d hd => (hfound d hd).kind_ne,
    List.append_nil]

/-- Nothing is taken back. -/
theorem nothing_reported (h : ReportsRelations l l') (hclean : l'.diagnostics = []) :
    l.diagnostics = [] := by
  obtain ⟨found, hl, -⟩ := h
  exact (List.append_eq_nil_iff.mp (hl.symm.trans hclean)).1

theorem report (h : ReportsRelations l l') {found : List Diagnostic}
    (hfound : ∀ d ∈ found, d.IsOfRelation) {l'' : Linking τ}
    (hl : l''.diagnostics = l'.diagnostics ++ found) : ReportsRelations l l'' := by
  obtain ⟨front, hfront, hrelations⟩ := h
  refine ⟨front ++ found, ?_, List.forall_mem_append.mpr ⟨hrelations, hfound⟩⟩
  rw [hl, hfront, List.append_assoc]

theorem addClosed {π : Type} (h : ReportsRelations l l') (closed : Option (ClosedRelation π)) :
    ReportsRelations l (l'.addClosed closed) := by
  cases closed with
  | none => exact h
  | some c => exact h

theorem beamAutomatically (h : ReportsRelations l l') (settings : Settings) (members : List Nat) :
    ReportsRelations l (l'.beamAutomatically settings members) := by
  unfold Linking.beamAutomatically
  split <;> exact h

theorem addBeam (h : ReportsRelations l l') (settings : Settings)
    (parts : List (Nat × List BeamSegment)) : ReportsRelations l (l'.addBeam settings parts) := by
  unfold Linking.addBeam
  split
  · exact h
  · exact h.beamAutomatically settings _

theorem addPlainBeam (h : ReportsRelations l l') (settings : Settings) (members : List Nat) :
    ReportsRelations l (l'.addPlainBeam settings members) := h.beamAutomatically settings members

theorem applyMarker (h : ReportsRelations l l') (settings : Settings) (note : Nat)
    (position : Position) (m : Marker) :
    ReportsRelations l (l'.applyMarker settings note position m) := by
  cases m with
  | tie key role =>
      let e : Endpoint Unit := ⟨key, role, note, position, ()⟩
      exact (h.report (Registry.isOfRelation_mark .tie l'.pitchOf l'.ties e) rfl).addClosed _
  | slur key role =>
      let e : Endpoint Unit := ⟨key, role, note, position, ()⟩
      exact (h.report (Registry.isOfRelation_mark .slur l'.pitchOf l'.slurs e) rfl).addClosed _
  | tupletStart key spec =>
      let e : Endpoint (Option TupletSpec) := ⟨key, .starts, note, position, some spec⟩
      exact (h.report (Registry.isOfRelation_mark .tuplet l'.pitchOf l'.tuplets e) rfl).addClosed _
  | tupletEnd key =>
      let e : Endpoint (Option TupletSpec) := ⟨key, .ends, note, position, none⟩
      exact (h.report (Registry.isOfRelation_mark .tuplet l'.pitchOf l'.tuplets e) rfl).addClosed _
  | beam key role segments =>
      let e : Endpoint (List BeamSegment) := ⟨key, role, note, position, segments⟩
      have hfound := Registry.isOfRelation_mark .beam l'.pitchOf l'.beams e
      unfold Linking.applyMarker
      dsimp only
      split
      · exact addBeam (h.report hfound rfl) settings _
      · exact h.report hfound rfl

theorem foldl_applyMarker (h : ReportsRelations l l') (settings : Settings) (note : Nat)
    (position : Position) (markers : List Marker) :
    ReportsRelations l (markers.foldl (Linking.applyMarker settings note position) l') :=
  List.foldlRecOn (motive := ReportsRelations l) markers _ h
    fun _ h m _ => h.applyMarker settings note position m

theorem applyMarkers (h : ReportsRelations l l') (settings : Settings) (note : Nat)
    (position : Position) (inChord : Bool) (markers : List Marker) :
    ReportsRelations l (l'.applyMarkers settings note position inChord markers) := by
  unfold Linking.applyMarkers
  dsimp only
  split <;> exact h.foldl_applyMarker settings note position markers

theorem closeLegacyTie [TimeValue τ] (h : ReportsRelations l l') (note : Nat) (time : τ) :
    ReportsRelations l (l'.closeLegacyTie note time) := by
  have hfound := l'.legacyTie.isOfRelation_offer l'.notes note time
  unfold Linking.closeLegacyTie
  dsimp only
  split <;> exact h.report hfound rfl

theorem startLegacyTie (h : ReportsRelations l l') (tie : PendingTie τ) :
    ReportsRelations l (l'.startLegacyTie tie) := h.report (l'.legacyTie.isOfRelation_start tie) rfl

theorem applyLegacyBeam (h : ReportsRelations l l') (settings : Settings) (note : Nat)
    (position : Position) (inChord : Bool) (mark : Option BeamMark) :
    ReportsRelations l (l'.applyLegacyBeam settings note position inChord mark) := by
  unfold Linking.applyLegacyBeam
  split
  · exact h
  · have hfound := l'.legacyBeams.isOfRelation_leave note position
    dsimp only
    split
    · exact addPlainBeam (h.report hfound rfl) settings _
    · exact h.report hfound rfl
  · split <;> exact h

theorem finish (h : ReportsRelations l l') : ReportsRelations l l'.finish := by
  refine h.report ?_ rfl
  simp only [List.forall_mem_append, Registry.close]
  exact ⟨⟨⟨⟨⟨l'.ties.isOfRelation_finish _, l'.slurs.isOfRelation_finish _⟩,
    l'.beams.isOfRelation_finish _⟩, l'.tuplets.isOfRelation_finish _⟩,
    l'.legacyTie.isOfRelation_finish⟩, l'.legacyBeams.isOfRelation_finish⟩

end ReportsRelations

end Linking

/-! ## Notes -/

namespace Passage

variable {τ : Type} [TimeValue τ]

/-- Behind the faults of its options, a note that is placed is only told of relations. -/
theorem reportsRelations_placeNote (settings : Settings) (s : Passage τ) (reading : NoteReading)
    (position : Position) (inChord : Bool) :
    (s.linking.reject reading.rejections).ReportsRelations
      (s.placeNote settings reading position inChord).linking := by
  let added := (s.linking.reject reading.rejections).addNote
    (s.realize reading.spec position inChord)
  have hadded : (s.linking.reject reading.rejections).ReportsRelations added := .refl _
  have hclose (c : Bool) (note : Nat) (time : τ) :
      (s.linking.reject reading.rejections).ReportsRelations
        (if c then added.closeLegacyTie note time else added) := by
    split
    · exact hadded.closeLegacyTie note time
    · exact hadded
  unfold placeNote
  refine Linking.ReportsRelations.applyMarkers ?_ settings _ position inChord _
  refine Linking.ReportsRelations.applyLegacyBeam ?_ settings _ position inChord _
  split
  · exact (hclose _ _ _).startLegacyTie _
  · exact hclose _ _ _

/-- A note that is placed adds the errors of its options. -/
theorem grammarErrors_placeNote (settings : Settings) (s : Passage τ) (reading : NoteReading)
    (position : Position) (inChord : Bool) :
    grammarErrors (s.placeNote settings reading position inChord).linking.diagnostics =
      grammarErrors s.linking.diagnostics ++ reading.rejections.map Rejection.diagnostic := by
  rw [(s.reportsRelations_placeNote settings reading position inChord).grammatical,
    Linking.reject, Linking.report, grammarErrors_append, grammarErrors_rejections]

end Passage

end ScorePlayback
