import ScorePlayback.Proofs.Analysis.MusicBlocks
import ScorePlayback.Proofs.Analysis.WrittenContext

/-! # What notes inherit

A note that does not say its voice or its staff has those that were written last in its block of
music, and a tuplet is shown as the block has last said. Each block begins without all of this. -/

namespace ScorePlayback

/-! ## Blocks -/

/-- A note or rest that has been placed, behind others of its block of music. -/
structure Placing where
  earlier : List WrittenNote
  note : WrittenNote
  /-- Whether it follows another note of its chord. -/
  inChord : Bool

namespace Placing

/-- The voice that is written last in the block, up to the note. -/
def voice (p : Placing) : Nat := (lastOf WrittenNote.voice? (p.earlier ++ [p.note])).getD 1

/-- The staff that is written last in the block, up to the note. -/
def staff (p : Placing) : Nat := (lastOf WrittenNote.staff? (p.earlier ++ [p.note])).getD 1

/-- The markers for tuplets on the note. -/
def tuplets (p : Placing) : List Marker :=
  tupletMarkers (p.earlier.flatMap WrittenNote.tupletStarts) p.note.options

/-- The notes of a block, behind some that have been placed. -/
def behind (earlier : List WrittenNote) : List (WrittenNote × Bool) → List Placing
  | [] => []
  | (w, inChord) :: rest => ⟨earlier, w, inChord⟩ :: behind (earlier ++ [w]) rest

/-- The notes of some blocks. Each block begins afresh. -/
def ofBlocks (blocks : List (List (WrittenNote × Bool))) : List Placing :=
  blocks.flatMap (behind [])

theorem behind_concat (earlier : List WrittenNote) (placed : List (WrittenNote × Bool))
    (w : WrittenNote) (inChord : Bool) : behind earlier (placed ++ [(w, inChord)]) =
      behind earlier placed ++ [⟨earlier ++ placed.map Prod.fst, w, inChord⟩] := by
  induction placed generalizing earlier with
  | nil => simp [behind]
  | cons first rest ih =>
      rw [List.cons_append, behind, ih, behind, List.map_cons, List.cons_append, List.append_assoc]
      rfl

end Placing

/-- What a note behind some others of its block inherits. -/
def Inherited.behind (earlier : List WrittenNote) : Inherited :=
  ⟨(lastOf WrittenNote.voice? earlier).getD 1, (lastOf WrittenNote.staff? earlier).getD 1,
    .written (earlier.flatMap WrittenNote.tupletStarts)⟩

/-! ### What is placed -/

section

variable {τ : Type} [TimeValue τ] {settings : Settings} {s : Passage τ} {earlier : List WrittenNote}
  {w : WrittenNote} {reading : NoteReading}

omit [TimeValue τ] in
theorem Passage.isBehind_of_read (h : s.inherited = .behind earlier)
    (hread : NoteReading.read settings s.inherited.display w.isNote w.items = .ok reading) :
    reading.IsBehind (earlier.flatMap WrittenNote.tupletStarts) w.options := by
  rw [h] at hread
  exact NoteReading.isBehind_of_read hread

theorem Passage.numbers_realize (h : s.inherited = .behind earlier)
    (hreading : reading.IsBehind (earlier.flatMap WrittenNote.tupletStarts) w.options)
    (position : Position) (inChord : Bool) :
    (s.realize reading.spec position inChord).voice = Placing.voice ⟨earlier, w, inChord⟩ ∧
      (s.realize reading.spec position inChord).staff = Placing.staff ⟨earlier, w, inChord⟩ := by
  rw [Placing.voice, Placing.staff, lastOf_concat, lastOf_concat, Option.getD_or, Option.getD_or,
    WrittenNote.voice?, WrittenNote.staff?, ← hreading.voice, ← hreading.staff, realize, h]
  exact ⟨rfl, rfl⟩

/-- The notes behind inherit from the one that is placed. -/
theorem Passage.inherited_placeNote (h : s.inherited = .behind earlier)
    (hreading : reading.IsBehind (earlier.flatMap WrittenNote.tupletStarts) w.options)
    (position : Position) (inChord : Bool) :
    (s.placeNote settings reading position inChord).inherited = .behind (earlier ++ [w]) := by
  have hdisplay : reading.display =
      .written ((earlier ++ [w]).flatMap WrittenNote.tupletStarts) := by
    rw [hreading.display, List.flatMap_append, List.flatMap_singleton]
    rfl
  obtain ⟨hvoice, hstaff⟩ := numbers_realize h hreading position inChord
  show Inherited.mk (s.realize reading.spec position inChord).voice
    (s.realize reading.spec position inChord).staff reading.display = _
  rw [hvoice, hstaff, hdisplay]
  rfl

end

/-! ## Tuplets -/

/-- What the start of a tuplet says of it. -/
def Marker.spec? : Marker → Option TupletSpec
  | .tupletStart _ spec => some spec
  | _ => none

/-- What a marker for a tuplet on a note tells the registry. -/
def Marker.tupletCall (note : Nat) (position : Position) (m : Marker) :
    RegistryCall (Option TupletSpec) :=
  .mark ⟨m.key, m.role, note, position, m.spec?⟩ fun _ => none

/-- The tuplet with some markers. The first one says what it is. -/
def Relation.ofTuplet (endpoints : List (Endpoint (Option TupletSpec))) : Relation :=
  ⟨.tuplet, endpoints.map Endpoint.note,
    .tuplet ((endpoints.head?.bind Endpoint.payload).getD RelationRules.triplet)⟩

namespace Placing

/-- What the note with a number tells the registry of tuplets. -/
def calls (number : Nat) (p : Placing) : List (RegistryCall (Option TupletSpec)) :=
  p.tuplets.map (Marker.tupletCall number p.note.position) ++
    if p.tuplets.isEmpty && !p.inChord then [.continueAll number p.note.position] else []

def callsOf (placings : List Placing) : List (RegistryCall (Option TupletSpec)) :=
  placings.zipIdx.flatMap fun (p, number) => p.calls number

theorem callsOf_concat (placings : List Placing) (p : Placing) :
    callsOf (placings ++ [p]) = callsOf placings ++ p.calls placings.length := by
  simp [callsOf, List.zipIdx_append]

end Placing

theorem Registry.state_mark {π : Type} (rules : RelationRules π)
    (pitchOf pitchOf' : Nat → Option Pitch) (r : Registry π) (e : Endpoint π) :
    (r.mark rules pitchOf e).state = (r.mark rules pitchOf' e).state := by
  unfold mark
  cases e.role with
  | ends =>
      simp only [markEnd]
      split <;> rfl
  | _ => rfl

namespace Linking

variable {τ : Type}

/-- The tuplets that are open, and those that have ended, are what some calls make of them. -/
structure HasTuplets (calls : List (RegistryCall (Option TupletSpec))) (l : Linking τ) : Prop where
  opened : l.tuplets = Registry.after .tuplet calls
  ended : l.relations.filter (·.kind = .tuplet) =
    (RegistryCall.endedAfter none [] calls).map Relation.ofTuplet

namespace HasTuplets

variable {calls : List (RegistryCall (Option TupletSpec))} {l l' : Linking τ}

theorem initial : ({} : Linking τ).HasTuplets [] := ⟨rfl, rfl⟩

/-- Relations of other kinds do not matter. -/
theorem other (h : l.HasTuplets calls) (htuplets : l'.tuplets = l.tuplets) {new : List Relation}
    (hrelations : l'.relations = l.relations ++ new) (hnew : ∀ r ∈ new, r.kind ≠ .tuplet) :
    l'.HasTuplets calls where
  opened := htuplets.trans h.opened
  ended := by
    have hnone : new.filter (·.kind = .tuplet) = [] :=
      List.filter_eq_nil_iff.mpr fun r hr htuplet => hnew r hr (of_decide_eq_true htuplet)
    rw [hrelations, List.filter_append, hnone, List.append_nil, h.ended]

theorem unmarked (h : l.HasTuplets calls) (htuplets : l'.tuplets = l.tuplets)
    (hl : Unmarked l l') : l'.HasTuplets calls := by
  obtain ⟨new, hrelations, hkinds⟩ := hl.relations
  refine h.other htuplets hrelations fun r hr htuplet => ?_
  rcases hkinds r hr with hkind | hkind
  · cases htuplet.symm.trans hkind
  · cases htuplet.symm.trans hkind

/-- A marker ends the tuplet that has been left open under its key. -/
theorem mark (h : l.HasTuplets calls) (e : Endpoint (Option TupletSpec))
    (htuplets : l'.tuplets = (l.tuplets.mark .tuplet l.pitchOf e).state)
    (hrelations : l'.relations = l.relations ++
      ((l.tuplets.mark .tuplet l.pitchOf e).closed.map ClosedRelation.relation).toList) :
    l'.HasTuplets (calls ++ [.mark e fun _ => none]) where
  opened := by
    rw [htuplets, h.opened, Registry.after_concat]
    exact Registry.state_mark ..
  ended := by
    have hclosed : (l.tuplets.mark .tuplet l.pitchOf e).closed.map ClosedRelation.relation =
        ((RegistryCall.mark e fun _ => none).ended? none calls).map Relation.ofTuplet := by
      rw [Registry.closed_mark, h.opened, Registry.find?_after, RegistryCall.ended?]
      split
      · rw [Option.map_map, Option.map_map]
        rfl
      · rfl
    rw [hrelations, hclosed, List.filter_append, h.ended, RegistryCall.endedAfter_concat,
      List.map_append, ← Option.toList_map]
    refine congrArg _ (List.filter_eq_self.mpr fun r hr => ?_)
    obtain ⟨endpoints, -, rfl⟩ := Option.map_eq_some_iff.mp (Option.mem_toList.mp hr)
    rfl

theorem continueAll (h : l.HasTuplets calls) (note : Nat) (position : Position) :
    HasTuplets (calls ++ [.continueAll note position])
      { l with tuplets := l.tuplets.continueAll .tuplet note position } where
  opened := by
    rw [Registry.after_concat, ← h.opened]
    rfl
  ended := by
    rw [RegistryCall.endedAfter_concat, RegistryCall.ended?, Option.toList_none, List.append_nil]
    exact h.ended

/-! ### The markers of a note -/

variable {settings : Settings} {note : Nat} {position : Position}

theorem applyMarker (h : l.HasTuplets calls) (m : Marker) :
    (l.applyMarker settings note position m).HasTuplets
      (calls ++ ([m].filter Marker.isTuplet).map (Marker.tupletCall note position)) := by
  have hother (hm : m.isTuplet = false) :
      (l.applyMarker settings note position m).HasTuplets
        (calls ++ ([m].filter Marker.isTuplet).map (Marker.tupletCall note position)) := by
    obtain ⟨new, hrelations, hkind, -⟩ := closesOwn_applyMarker settings note position l m
    rw [List.filter_cons_of_neg (by simp [hm]), List.filter_nil, List.map_nil, List.append_nil]
    refine h.other (tuplets_applyMarker settings note position l hm) hrelations ?_
    intro r hr htuplet
    have hself := Marker.isTuplet_of_kind ((hkind r (Option.mem_toList.mp hr)).symm.trans htuplet)
    simp [hm] at hself
  cases m with
  | tie key role => exact hother rfl
  | slur key role => exact hother rfl
  | beam key role segments => exact hother rfl
  | tupletStart key spec =>
      exact h.mark ⟨key, .starts, note, position, some spec⟩ (tuplets_addClosed _ _)
        (relations_addClosed _ _)
  | tupletEnd key =>
      exact h.mark ⟨key, .ends, note, position, none⟩ (tuplets_addClosed _ _)
        (relations_addClosed _ _)

theorem foldl_applyMarker (h : l.HasTuplets calls) (markers : List Marker) :
    (markers.foldl (Linking.applyMarker settings note position) l).HasTuplets
      (calls ++ (markers.filter Marker.isTuplet).map (Marker.tupletCall note position)) := by
  induction markers generalizing l calls with
  | nil => simpa using h
  | cons m rest ih =>
      rw [List.foldl_cons, ← List.singleton_append, List.filter_append, List.map_append,
        ← List.append_assoc]
      exact ih (h.applyMarker m)

theorem applyMarkers (h : l.HasTuplets calls) {markers : List Marker} {p : Placing}
    (hmarkers : markers.filter Marker.isTuplet = p.tuplets) :
    (l.applyMarkers settings note p.note.position p.inChord markers).HasTuplets
      (calls ++ p.calls note) := by
  have hfold : (markers.foldl (Linking.applyMarker settings note p.note.position) l).HasTuplets
      (calls ++ p.tuplets.map (Marker.tupletCall note p.note.position)) :=
    hmarkers ▸ h.foldl_applyMarker markers
  have hany : p.tuplets.isEmpty = !markers.any Marker.isTuplet := by
    rw [← hmarkers, Bool.eq_iff_iff]
    simp
  unfold Linking.applyMarkers Placing.calls
  rw [hany, ← Bool.not_or, ← List.append_assoc]
  cases markers.any Marker.isTuplet || p.inChord with
  | true =>
      rw [Bool.not_true, if_neg Bool.false_ne_true, List.append_nil]
      exact hfold
  | false => exact hfold.continueAll note p.note.position

end HasTuplets

end Linking

/-! ## Scores -/

variable {τ : Type}

/-- A note is of the written one, with the voice and the staff that the block gives it. -/
structure NoteRest.Inherits (settings : Settings) (n : NoteRest τ) (p : Placing) : Prop where
  isOf : n.IsOf settings p.note
  voice : n.voice = p.voice
  staff : n.staff = p.staff

/-- What a note has of its own text, and what it may have inherited. -/
def NoteRest.asPlaced (n : NoteRest τ) :
    (Position × WrittenDuration × Bool × Option (Step × Int × Option Int)) × Nat × Nat :=
  (n.asWritten, n.voice, n.staff)

theorem NoteRest.keeps_asPlaced : Keeps (asPlaced : NoteRest τ → _) :=
  ⟨fun _ => rfl, fun _ _ => rfl⟩

/-- The notes and the tuplets of a score are as the notes of its blocks say. -/
structure Linking.Inherits (settings : Settings) (placings : List Placing) (l : Linking τ) :
    Prop where
  notes : List.Forall₂ (fun text p => p.note.ReadsAs settings text.1 ∧ text.2 = (p.voice, p.staff))
    (l.notes.map NoteRest.asPlaced) placings
  tuplets : l.HasTuplets (Placing.callsOf placings)

namespace Linking.Inherits

variable {settings : Settings} {placings : List Placing} {l : Linking τ}

theorem initial : ({} : Linking τ).Inherits settings [] := ⟨.nil, .initial⟩

theorem report (h : l.Inherits settings placings) (found : List Diagnostic) :
    (l.report found).Inherits settings placings := ⟨h.notes, h.tuplets.opened, h.tuplets.ended⟩

theorem placeNote [TimeValue τ] {s : Passage τ} (h : s.linking.Inherits settings placings)
    {earlier : List WrittenNote} (hinherited : s.inherited = .behind earlier) {w : WrittenNote}
    {reading : NoteReading}
    (hread : NoteReading.read settings s.inherited.display w.isNote w.items = .ok reading)
    (hreading : reading.IsBehind (earlier.flatMap WrittenNote.tupletStarts) w.options)
    (inChord : Bool) : (s.placeNote settings reading w.position inChord).linking.Inherits settings
      (placings ++ [⟨earlier, w, inChord⟩]) where
  notes := by
    rw [s.map_placeNote NoteRest.keeps_asPlaced settings (NoteReading.isWritten_of_read hread)]
    refine List.rel_append h.notes (.cons ⟨⟨_, reading, hread, ?_⟩, ?_⟩ .nil)
    · simp only [NoteRest.asPlaced, NoteRest.asWritten, Passage.realize, Option.map_map]
      rfl
    · obtain ⟨hvoice, hstaff⟩ := Passage.numbers_realize hinherited hreading w.position inChord
      exact Prod.ext hvoice hstaff
  tuplets := by
    have hlength : s.linking.notes.length = placings.length := by
      simpa using h.notes.length_eq
    have hbefore := h.tuplets.unmarked
      (s.tuplets_beforeMarkers settings reading w.position inChord)
      (s.unmarked_beforeMarkers settings reading w.position inChord)
    rw [Passage.linking_placeNote, Placing.callsOf_concat, ← hlength]
    exact hbefore.applyMarkers hreading.tuplets

end Linking.Inherits

section

variable [TimeValue τ] {settings : Settings}

/-- Inside a block each note inherits from all notes in front of it. -/
theorem Passage.Leads.inherits {start s : Passage τ} {placed : List (WrittenNote × Bool)}
    (h : Leads settings start placed s) (hstart : start.inherited = {}) {placings : List Placing}
    (hplacings : start.linking.Inherits settings placings) :
    s.linking.Inherits settings (placings ++ Placing.behind [] placed) ∧
      s.inherited = .behind (placed.map Prod.fst) := by
  induction h with
  | nil =>
      rw [Placing.behind, List.append_nil]
      exact ⟨hplacings, hstart⟩
  | silent _ found hlinking hinherited ih =>
      rw [hlinking, hinherited]
      exact ⟨ih.1.report found, ih.2⟩
  | @note placed s _ w reading hread inChord ih =>
      obtain ⟨hnotes, hinherited⟩ := ih
      have hreading := Passage.isBehind_of_read hinherited hread
      rw [Placing.behind_concat, ← List.append_assoc, List.map_append]
      exact ⟨hnotes.placeNote hinherited hread hreading inChord,
        Passage.inherited_placeNote hinherited hreading w.position inChord⟩

/-- No block inherits from another one. -/
theorem Linking.Leads.inherits {l : Linking τ} {blocks : List (List (WrittenNote × Bool))}
    (h : Leads settings {} blocks l) : l.Inherits settings (Placing.ofBlocks blocks) := by
  induction h with
  | nil => exact .initial
  | silent _ found ih => exact ih.report found
  | block _ hinherited hplaced ih =>
      rw [Placing.ofBlocks, List.flatMap_append, List.flatMap_singleton]
      exact (hplaced.inherits hinherited ih).1

end

/-- The notes and rests that a score places, each behind those of its block. -/
def Node.placings (settings : Settings) (score : Node) : List Placing :=
  Placing.ofBlocks (score.blocks settings)

/-- Notes inherit within their blocks of music. Each note or rest that is accepted has the voice and
the staff that are written last in its block. The tuplets are those that the markers on these notes
end, and each is shown as is written last in the block, up to its start. -/
structure Score.InheritsInBlocks (settings : Settings) (score : Score τ) (element : Node) :
    Prop where
  notes : List.Forall₂ (NoteRest.Inherits settings) score.notes (element.placings settings)
  tuplets : score.relations.filter (·.kind = .tuplet) =
    (RegistryCall.endedAfter none [] (Placing.callsOf (element.placings settings))).map
      Relation.ofTuplet

/-- What a note or a tuplet does not say is what has been said last in its block of music, whatever
is rejected there. Nothing is inherited from another block or another instrument. -/
theorem inheritsInBlocks_of_compile [TimeValue τ] {settings : Settings} {source : String}
    {analysis : Analysis τ} (h : compile settings source = .ok analysis) :
    ∃ tree, parse source = .ok tree ∧
      List.Forall₂ (Score.InheritsInBlocks settings) analysis.document.scores
        tree.scoreElements := by
  obtain ⟨tree, htree, hanalyse⟩ := analyse_of_compile h
  refine ⟨tree, htree, forall₂_scores_of_analyse hanalyse fun titled _ => ?_⟩
  have hinherits := (ScoreState.leads_children (τ := τ) settings titled.1).inherits
  refine ⟨?_, hinherits.tuplets.ended⟩
  refine (List.forall₂_map_left_iff.mp hinherits.notes).imp fun n p hn => ?_
  exact ⟨NoteRest.isOf_of_reads hn.1, congrArg Prod.fst hn.2, congrArg Prod.snd hn.2⟩

/-- The note without a duration and the tuplet with an unknown option leave no trace. The second
block and the second instrument begin with voice 1, staff 1 and all of a tuplet shown. -/
theorem inheritsInBlocks_threeBlocks :
    let source := "(score (instrument (musicData (n c4 q v2 p3 (t + 3 2 noBracket)) (n d4 v4 q) " ++
      "(chord (n e4 q (t 1 + 3 2 noNumber wrong)) (n g4 q v3 v9 p0 (t -))) (r q p2 (t + 3 2 " ++
      "bracket noNumber)) (n c4 q (t -) (t + 5 4)) (n c4 q v1 (t -))) (musicData " ++
      "(n c4 q (t + 3 2)) (n c4 q (t -)))) (instrument (musicData (r q))))"
    ∃ analysis : Analysis Rat, compile {} source = .ok analysis ∧
      (analysis.document.scores.map fun score =>
        (score.notes.map fun n => (n.voice, n.staff), score.relations.map Relation.data)) =
          [([(2, 3), (2, 3), (9, 3), (9, 2), (9, 2), (1, 2), (1, 1), (1, 1), (1, 1)],
            [.tuplet ⟨3, 2, false, true⟩, .tuplet ⟨3, 2, true, false⟩, .tuplet ⟨5, 4, true, false⟩,
              .tuplet ⟨3, 2, true, true⟩])] ∧
      ∃ tree, parse source = .ok tree ∧
        List.Forall₂ (Score.InheritsInBlocks {}) analysis.document.scores tree.scoreElements := by
  intro source
  have hsource : source = String.ofList _ :=
    (congrArg (· ++ _) ((congrArg (· ++ _) String.ofList_append.symm).trans
      String.ofList_append.symm)).trans String.ofList_append.symm
  have ⟨analysis, h, hinherits⟩ : ∃ analysis : Analysis Rat, compile {} source = .ok analysis ∧
      (analysis.document.scores.map fun score =>
        (score.notes.map fun n => (n.voice, n.staff), score.relations.map Relation.data)) =
          [([(2, 3), (2, 3), (9, 3), (9, 2), (9, 2), (1, 2), (1, 1), (1, 1), (1, 1)],
            [.tuplet ⟨3, 2, false, true⟩, .tuplet ⟨3, 2, true, false⟩, .tuplet ⟨5, 4, true, false⟩,
              .tuplet ⟨3, 2, true, true⟩])] :=
    exists_compile_of_characters hsource (by decide +kernel)
  exact ⟨analysis, h, hinherits, inheritsInBlocks_of_compile h⟩

end ScorePlayback
