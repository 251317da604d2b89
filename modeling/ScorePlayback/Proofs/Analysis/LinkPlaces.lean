import ScorePlayback.Proofs.Analysis.LinkSteps
import ScorePlayback.Proofs.Relation.Places

/-! # Links at other positions

Two notes that are the same but for positions do the same to the links of a score, but for
positions. -/

namespace ScorePlayback

open HasPlaces (placeless)

variable {τ : Type}

instance : HasPlaces (Linking τ) where
  placeless l :=
    { notes := placeless l.notes
      relations := l.relations
      ties := placeless l.ties
      slurs := placeless l.slurs
      beams := placeless l.beams
      tuplets := placeless l.tuplets
      legacyTie := placeless l.legacyTie
      legacyBeams := placeless l.legacyBeams
      diagnostics := placeless l.diagnostics }

instance : HasPlaces Rejection where
  placeless := Rejection.placeless

namespace Linking

variable {l l' : Linking τ}

theorem ignoresPlaces_report :
    IgnoresPlaces fun (l : Linking τ) (found : List Diagnostic) => l.report found :=
  .of_comm fun l found => by simp [placeless, report]

theorem ignoresPlaces_reject :
    IgnoresPlaces fun (l : Linking τ) (rejections : List Rejection) => l.reject rejections := by
  intro l l' h rejections rejections' hrejections
  have hdiagnostics (rejections : List Rejection) : placeless (rejections.map Rejection.diagnostic) =
      placeless ((placeless rejections).map Rejection.diagnostic) := by
    simp [placeless, Rejection.diagnostic, GrammarFault.diagnostic]
  refine ignoresPlaces_report h ?_
  show placeless _ = placeless _
  rw [hdiagnostics, show placeless rejections = placeless rejections' from hrejections,
    ← hdiagnostics]

theorem ignoresPlaces_addNote :
    IgnoresPlaces fun (l : Linking τ) (note : NoteRest τ) => l.addNote note :=
  .of_comm fun l note => by simp [placeless, addNote]

theorem placeless_addRelation (r : Relation) (l : Linking τ) :
    placeless (l.addRelation r) = (placeless l).addRelation r := by
  have hnotes : r.parts.foldl (fun notes part =>
      notes.modify part (NoteRest.link l.relations.length)) (placeless l.notes) =
        placeless (r.parts.foldl (fun notes part =>
          notes.modify part (NoteRest.link l.relations.length)) l.notes) :=
    List.foldl_hom placeless fun notes part =>
      (map_modify (f := NoteRest.link _) (g := placeless) (fun _ => rfl) notes part).symm
  exact congrArg (fun notes => { placeless l with relations := l.relations ++ [r], notes })
    hnotes.symm

theorem ignoresPlaces_addClosed {π : Type} :
    IgnoresPlaces fun (l : Linking τ) (closed : Option (ClosedRelation π)) => l.addClosed closed :=
  .of_comm fun l closed => by
    cases closed with
    | none => rfl
    | some c => exact placeless_addRelation c.relation l

theorem pitchOf_placeless (l : Linking τ) : (placeless l).pitchOf = l.pitchOf := by
  funext note
  simp only [pitchOf, placeless, List.getElem?_map, Option.bind_map]
  rfl

theorem pitchOf_of_sameButPlaces (h : SameButPlaces l l') : l.pitchOf = l'.pitchOf := by
  rw [← pitchOf_placeless, show placeless l = placeless l' from h, pitchOf_placeless]

/-! ### What is open -/

theorem ignoresPlaces_setTies :
    IgnoresPlaces fun (l : Linking τ) (ties : Registry Unit) => { l with ties } :=
  .of_comm fun _ _ => rfl

theorem ignoresPlaces_setSlurs :
    IgnoresPlaces fun (l : Linking τ) (slurs : Registry Unit) => { l with slurs } :=
  .of_comm fun _ _ => rfl

theorem ignoresPlaces_setBeams :
    IgnoresPlaces fun (l : Linking τ) (beams : Registry (List BeamSegment)) => { l with beams } :=
  .of_comm fun _ _ => rfl

theorem ignoresPlaces_setTuplets : IgnoresPlaces fun (l : Linking τ)
    (tuplets : Registry (Option TupletSpec)) => { l with tuplets } :=
  .of_comm fun _ _ => rfl

theorem ignoresPlaces_setLegacyTie :
    IgnoresPlaces fun (l : Linking τ) (legacyTie : LegacyTie τ) => { l with legacyTie } :=
  .of_comm fun _ _ => rfl

theorem ignoresPlaces_setLegacyBeams :
    IgnoresPlaces fun (l : Linking τ) (legacyBeams : LegacyBeams) => { l with legacyBeams } :=
  .of_comm fun _ _ => rfl

/-! ### Beams -/

theorem placeless_writeBeam (parts : List (Nat × List BeamSegment)) (l : Linking τ) :
    placeless (l.writeBeam parts) = (placeless l).writeBeam parts := by
  have hnotes : parts.foldl (fun notes part => setBeam notes part.1 part.2) (placeless l.notes) =
      placeless (parts.foldl (fun notes part => setBeam notes part.1 part.2) l.notes) :=
    List.foldl_hom placeless fun notes part =>
      (map_modify (f := fun n : NoteRest τ => { n with beam := part.2 }) (g := placeless)
        (fun _ => rfl) notes part.1).symm
  exact congrArg (fun notes => { placeless l with notes }) hnotes.symm

theorem automaticSegments_placeless (members : List Nat) (l : Linking τ) :
    (placeless l).automaticSegments members = l.automaticSegments members := by
  have hhead (part : Nat) :
      (((placeless l).notes[part]?.filter fun n => n.pitch.isSome).map fun n =>
        (part, n.written.value)) =
          (l.notes[part]?.filter fun n => n.pitch.isSome).map fun n => (part, n.written.value) := by
    simp only [placeless, List.getElem?_map, Option.filter_map, Option.map_map]
    rfl
  simp only [automaticSegments, hhead]

theorem placeless_beamAutomatically (settings : Settings) (members : List Nat) (l : Linking τ) :
    placeless (l.beamAutomatically settings members) =
      (placeless l).beamAutomatically settings members := by
  unfold beamAutomatically
  rw [automaticSegments_placeless]
  split
  · exact placeless_writeBeam _ l
  · rfl

theorem placeless_addBeam (settings : Settings) (parts : List (Nat × List BeamSegment))
    (l : Linking τ) :
    placeless (l.addBeam settings parts) = (placeless l).addBeam settings parts := by
  have hwritten : (placeless l).isWritten parts = l.isWritten parts := by
    simp only [isWritten, isNote, pitchOf_placeless]
  unfold addBeam
  rw [placeless_addRelation, hwritten]
  split
  · rw [placeless_writeBeam]
  · rw [placeless_beamAutomatically]

theorem placeless_addPlainBeam (settings : Settings) (members : List Nat) (l : Linking τ) :
    placeless (l.addPlainBeam settings members) = (placeless l).addPlainBeam settings members := by
  rw [addPlainBeam, placeless_addRelation, placeless_beamAutomatically, addPlainBeam]

/-! ### Markers and legacy marks -/

/-- What is done with a beam that has ended. -/
theorem addBeam_endpoints_sameButPlaces (settings : Settings) (h : SameButPlaces l l')
    {c c' : ClosedRelation (List BeamSegment)} (hc : SameButPlaces c c') :
    SameButPlaces (l.addBeam settings (c.endpoints.map fun e => (e.note, e.payload)))
      (l'.addBeam settings (c'.endpoints.map fun e => (e.note, e.payload))) := by
  have hparts (c : ClosedRelation (List BeamSegment)) :
      (placeless c).endpoints.map (fun e => (e.note, e.payload)) =
        c.endpoints.map fun e => (e.note, e.payload) := by
    simp [placeless, Function.comp_def]
  rw [← hparts c, show placeless c = placeless c' from hc, hparts c']
  exact .of_comm (placeless_addBeam settings _) h

theorem ignoresPlaces_applyMarker (settings : Settings) (note : Nat) (m : Marker) :
    IgnoresPlaces fun (l : Linking τ) (position : Position) =>
      l.applyMarker settings note position m := by
  intro l l' h position position' _
  unfold applyMarker
  dsimp only
  rw [pitchOf_of_sameButPlaces h]
  cases m with
  | tie key role =>
      have hmark := Registry.agree_mark .tie l'.pitchOf (fun _ => rfl) (congrArg Linking.ties h)
        (.endpoint key role note position position' ())
      have hset := ignoresPlaces_setTies h hmark.state
      exact ignoresPlaces_addClosed (ignoresPlaces_report hset hmark.diagnostics) hmark.closed
  | slur key role =>
      have hmark := Registry.agree_mark .slur l'.pitchOf (fun _ => rfl) (congrArg Linking.slurs h)
        (.endpoint key role note position position' ())
      have hset := ignoresPlaces_setSlurs h hmark.state
      exact ignoresPlaces_addClosed (ignoresPlaces_report hset hmark.diagnostics) hmark.closed
  | beam key role segments =>
      have hmark := Registry.agree_mark .beam l'.pitchOf (fun _ => rfl) (congrArg Linking.beams h)
        (.endpoint key role note position position' segments)
      dsimp only
      generalize l.beams.mark .beam l'.pitchOf ⟨key, role, note, position, segments⟩ = r at hmark ⊢
      generalize l'.beams.mark .beam l'.pitchOf ⟨key, role, note, position', segments⟩ = r'
        at hmark ⊢
      obtain ⟨state, closed, diagnostics⟩ := r
      obtain ⟨state', closed', diagnostics'⟩ := r'
      have hreported := ignoresPlaces_report (ignoresPlaces_setBeams h hmark.state)
        hmark.diagnostics
      cases closed <;> cases closed'
      · exact hreported
      · cases hmark.closed
      · cases hmark.closed
      · exact addBeam_endpoints_sameButPlaces settings hreported (Option.some.inj hmark.closed)
  | tupletStart key spec =>
      have hmark := Registry.agree_mark .tuplet l'.pitchOf (fun _ => rfl)
        (congrArg Linking.tuplets h) (.endpoint key .starts note position position' (some spec))
      have hset := ignoresPlaces_setTuplets h hmark.state
      exact ignoresPlaces_addClosed (ignoresPlaces_report hset hmark.diagnostics) hmark.closed
  | tupletEnd key =>
      have hmark := Registry.agree_mark .tuplet l'.pitchOf (fun _ => rfl)
        (congrArg Linking.tuplets h) (.endpoint key .ends note position position' none)
      have hset := ignoresPlaces_setTuplets h hmark.state
      exact ignoresPlaces_addClosed (ignoresPlaces_report hset hmark.diagnostics) hmark.closed

theorem ignoresPlaces_applyMarkers (settings : Settings) (note : Nat) (inChord : Bool)
    (markers : List Marker) : IgnoresPlaces fun (l : Linking τ) (position : Position) =>
      l.applyMarkers settings note position inChord markers := by
  intro l l' h position position' _
  have hfold : SameButPlaces (markers.foldl (applyMarker settings note position) l)
      (markers.foldl (applyMarker settings note position') l') :=
    List.foldl_rel h fun m _ _ _ hl => ignoresPlaces_applyMarker settings note m hl rfl
  unfold applyMarkers
  dsimp only
  split
  · exact hfold
  · have htuplets : SameButPlaces
        ((markers.foldl (applyMarker settings note position) l).tuplets.continueAll .tuplet note
          position)
        ((markers.foldl (applyMarker settings note position') l').tuplets.continueAll .tuplet note
          position') := by
      show placeless _ = placeless _
      rw [Registry.placeless_continueAll, Registry.placeless_continueAll,
        show placeless _ = placeless _ from congrArg Linking.tuplets hfold]
    exact ignoresPlaces_setTuplets hfold htuplets

theorem ignoresPlaces_startLegacyTie :
    IgnoresPlaces fun (l : Linking τ) (tie : PendingTie τ) => l.startLegacyTie tie := by
  intro l l' h tie tie' htie
  have hstart := LegacyTie.agree_start (congrArg Linking.legacyTie h) htie
  exact ignoresPlaces_report (ignoresPlaces_setLegacyTie h hstart.state) hstart.diagnostics

theorem closeLegacyTie_sameButPlaces [TimeValue τ] (note : Nat) (time : τ)
    (h : SameButPlaces l l') :
    SameButPlaces (l.closeLegacyTie note time) (l'.closeLegacyTie note time) := by
  have hoffer := LegacyTie.agree_offer (congrArg Linking.legacyTie h) (congrArg Linking.notes h)
    note time
  unfold closeLegacyTie
  dsimp only
  generalize l.legacyTie.offer l.notes note time = r at hoffer ⊢
  generalize l'.legacyTie.offer l'.notes note time = r' at hoffer ⊢
  obtain ⟨state, closed, diagnostics⟩ := r
  obtain ⟨state', closed', diagnostics'⟩ := r'
  obtain rfl : closed = closed' := by simpa [SameButPlaces, placeless] using hoffer.closed
  have hreported := ignoresPlaces_report (ignoresPlaces_setLegacyTie h hoffer.state)
    hoffer.diagnostics
  cases closed with
  | none => exact hreported
  | some notes => exact .of_comm (placeless_addRelation _) hreported

theorem ignoresPlaces_applyLegacyBeam (settings : Settings) (note : Nat) (inChord : Bool)
    (mark : Option BeamMark) : IgnoresPlaces fun (l : Linking τ) (position : Position) =>
      l.applyLegacyBeam settings note position inChord mark := by
  intro l l' h position position' _
  have hbeams : placeless l.legacyBeams = placeless l'.legacyBeams :=
    congrArg Linking.legacyBeams h
  cases mark with
  | none =>
      unfold applyLegacyBeam
      dsimp only
      split
      · exact h
      · exact ignoresPlaces_setLegacyBeams h
          (.of_comm (f := (LegacyBeams.add · note)) (LegacyBeams.placeless_add · note) hbeams)
  | some mark =>
      cases mark with
      | enter =>
          have henter : placeless (l.legacyBeams.enter note position) =
              placeless (l'.legacyBeams.enter note position') := by
            rw [LegacyBeams.placeless_enter, hbeams, LegacyBeams.placeless_enter]
          exact ignoresPlaces_setLegacyBeams h henter
      | leave =>
          have hleave := LegacyBeams.agree_leave hbeams note position position'
          unfold applyLegacyBeam
          dsimp only
          generalize l.legacyBeams.leave note position = r at hleave ⊢
          generalize l'.legacyBeams.leave note position' = r' at hleave ⊢
          obtain ⟨state, closed, diagnostics⟩ := r
          obtain ⟨state', closed', diagnostics'⟩ := r'
          obtain rfl : closed = closed' := by simpa [SameButPlaces, placeless] using hleave.closed
          have hreported := ignoresPlaces_report (ignoresPlaces_setLegacyBeams h hleave.state)
            hleave.diagnostics
          cases closed with
          | none => exact hreported
          | some members => exact .of_comm (placeless_addPlainBeam settings members) hreported

theorem finish_sameButPlaces (h : SameButPlaces l l') : SameButPlaces l.finish l'.finish := by
  obtain ⟨hnotes, hrelations, hties, hslurs, hbeams, htuplets, hlegacyTie, hlegacyBeams,
    hdiagnostics⟩ := Linking.mk.inj h
  have hregistries := ignoresPlaces_append (ignoresPlaces_append (ignoresPlaces_append
    (Registry.finish_sameButPlaces .tie hties) (Registry.finish_sameButPlaces .slur hslurs))
    (Registry.finish_sameButPlaces .beam hbeams)) (Registry.finish_sameButPlaces .tuplet htuplets)
  have hfound := ignoresPlaces_append (ignoresPlaces_append hregistries
    (LegacyTie.finish_sameButPlaces hlegacyTie)) (LegacyBeams.finish_sameButPlaces hlegacyBeams)
  refine ignoresPlaces_report ?_ hfound
  exact (Linking.mk.injEq ..).to_iff.mpr
    ⟨hnotes, hrelations, rfl, rfl, rfl, rfl, rfl, rfl, hdiagnostics⟩

end Linking

end ScorePlayback
