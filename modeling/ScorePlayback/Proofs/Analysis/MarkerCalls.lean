import ScorePlayback.Proofs.Analysis.DistinctNotes
import ScorePlayback.Proofs.Analysis.WrittenMarkers
import ScorePlayback.Proofs.Relation.History

/-! # Relations follow the markers of the text

What the registries of a score are told can be read off the notes that are placed, as they are
written. The relations of the score are those that end with it, apart from legacy ties and beams. -/

namespace ScorePlayback

/-! ## What a text tells the registries -/

/-- What a marker tells the registry of a kind. It is kept as it is written. -/
def Node.call? (settings : Settings) (kind : RelationKind) (isNote : Bool) (note : Nat)
    (position : Position) (item : Node) : Option (RegistryCall (Option Node)) :=
  (item.address? settings isNote).bind fun (found, key, role) =>
    if found = kind then some (.mark ⟨key, role, note, position, some item⟩ fun _ => none)
    else none

namespace WrittenNote

def marksTuplet (settings : Settings) (w : WrittenNote) : Bool :=
  (w.items.filterMap (Node.address? settings w.isNote)).any fun address => address.1 = .tuplet

/-- Whether a marker is for tuplets can be seen in the text. -/
theorem any_isTuplet {settings : Settings} {w : WrittenNote} {markers : List Marker}
    (hitems : markers.map Marker.address =
      w.items.filterMap (Node.address? settings w.isNote)) :
    markers.any Marker.isTuplet = w.marksTuplet settings := by
  rw [marksTuplet, ← hitems, List.any_map]
  congr 1
  funext m
  cases m <;> rfl

/-- What a note tells the registry of a kind: all its markers, and that it goes on with every open
tuplet, unless it has a marker for tuplets or follows another note of its chord. -/
def calls (settings : Settings) (kind : RelationKind) (note : Nat) (w : WrittenNote)
    (inChord : Bool) : List (RegistryCall (Option Node)) :=
  w.items.filterMap (Node.call? settings kind w.isNote note w.position) ++
    if kind = .tuplet && !(w.marksTuplet settings || inChord)
    then [.continueAll note w.position] else []

/-- What all notes tell it, with what they say about their chords. -/
def callsOf (settings : Settings) (kind : RelationKind) (placed : List (WrittenNote × Bool)) :
    List (RegistryCall (Option Node)) :=
  placed.zipIdx.flatMap fun ((w, inChord), note) => w.calls settings kind note inChord

theorem callsOf_concat (settings : Settings) (kind : RelationKind)
    (placed : List (WrittenNote × Bool)) (w : WrittenNote) (inChord : Bool) :
    callsOf settings kind (placed ++ [(w, inChord)]) =
      callsOf settings kind placed ++ w.calls settings kind placed.length inChord := by
  simp [callsOf, List.zipIdx_append]

end WrittenNote

/-- The note that is placed, and whether it follows another one of its chord. -/
def LogEntry.placing? : LogEntry → Option (WrittenNote × Bool)
  | .placed w inChord => some (w, inChord)
  | .rejected _ => none

theorem LogEntry.map_fst_placing (log : List LogEntry) :
    (log.filterMap placing?).map Prod.fst = log.filterMap placed? := by
  rw [List.map_filterMap]
  refine List.filterMap_congr fun entry _ => ?_
  cases entry <;> rfl

/-! ## What becomes of the relations -/

/-- The notes of the relations of a kind. -/
def partsOf (kind : RelationKind) (relations : List Relation) : List (List Nat) :=
  (relations.filter fun r => r.kind = kind).map Relation.parts

theorem partsOf_append (kind : RelationKind) (relations more : List Relation) :
    partsOf kind (relations ++ more) = partsOf kind relations ++ partsOf kind more := by
  simp [partsOf]

/-- The notes of the relations that some calls end. -/
def endedParts (calls : List (RegistryCall (Option Node))) : List (List Nat) :=
  (RegistryCall.endedAfter none [] calls).map (List.map Endpoint.note)

theorem endedParts_concat (calls : List (RegistryCall (Option Node)))
    (call : RegistryCall (Option Node)) : endedParts (calls ++ [call]) =
      endedParts calls ++ ((call.ended? none calls).map (List.map Endpoint.note)).toList := by
  rw [endedParts, RegistryCall.endedAfter_concat, List.map_append, Option.toList_map]
  rfl

/-- The notes of the relation that a marker of a note ends. -/
def JoinedNotes.closing? (joined : JoinedNotes) (note key : Nat) (role : Role) :
    Option (List Nat) :=
  if role = .ends then (Keyed.find? key joined).map (· ++ [note]) else none

/-- The rules for markers that are kept as they are written. A note can join without one. -/
def RelationRules.written : RelationRules (Option Node) where
  kind := .slur
  implied := none
  objection := noObjection
  data _ := .slur

namespace Registry

variable {π : Type}

theorem parts_closed_mark (rules : RelationRules π) (pitchOf : Nat → Option Pitch) (r : Registry π)
    (e : Endpoint π) : (r.mark rules pitchOf e).closed.map (·.relation.parts) =
      r.joined.closing? e.note e.key e.role := by
  rw [closed_mark, JoinedNotes.closing?, joined, Keyed.find?_map]
  split
  · rw [Option.map_map, Option.map_map]
    refine Option.map_congr fun o _ => ?_
    simp [closing]
  · rfl

theorem parts_ended? (history : List (RegistryCall (Option Node))) (e : Endpoint (Option Node))
    (pitchOf : Nat → Option Pitch) :
    ((RegistryCall.mark e pitchOf).ended? none history).map (List.map Endpoint.note) =
      (after .written history).joined.closing? e.note e.key e.role := by
  rw [RegistryCall.ended?, JoinedNotes.closing?, joined, Keyed.find?_map, find?_after]
  split
  · rw [Option.map_map, Option.map_map]
    refine Option.map_congr fun o _ => ?_
    simp
  · rfl

end Registry

namespace Linking

variable {τ : Type} {l l' : Linking τ}

theorem relations_addClosed {π : Type} (l : Linking τ) (closed : Option (ClosedRelation π)) :
    (l.addClosed closed).relations =
      l.relations ++ (closed.map ClosedRelation.relation).toList := by
  cases closed with
  | none => exact (List.append_nil _).symm
  | some c => rfl

theorem relations_addBeam (settings : Settings) (parts : List (Nat × List BeamSegment))
    (l : Linking τ) : (l.addBeam settings parts).relations =
      l.relations ++ [⟨.beam, parts.map Prod.fst, .beam⟩] := by
  unfold addBeam addRelation beamAutomatically
  dsimp only
  repeat' split
  all_goals rfl

/-- A marker of a note adds the relation that it ends, if there is one. -/
def ClosesOwn (note : Nat) (m : Marker) (l l' : Linking τ) : Prop :=
  ∃ new : Option Relation, l'.relations = l.relations ++ new.toList ∧
    (∀ r ∈ new, r.kind = m.kind) ∧
    new.map Relation.parts = (l.joined m.kind).closing? note m.key m.role

theorem closesOwn_of_mark {π : Type} {m : Marker} (rules : RelationRules π) (r : Registry π)
    (e : Endpoint π) (hjoined : l.joined m.kind = r.joined) (hkey : e.key = m.key)
    (hrole : e.role = m.role) (hkind : rules.kind = m.kind)
    (hrelations : l'.relations = l.relations ++
      ((r.mark rules l.pitchOf e).closed.map ClosedRelation.relation).toList) :
    ClosesOwn e.note m l l' := by
  refine ⟨_, hrelations, fun relation h => ?_, ?_⟩
  · obtain ⟨c, hc, rfl⟩ := Option.map_eq_some_iff.mp h
    obtain ⟨-, -, -, -, hrules⟩ := Registry.parts_of_closed hc
    exact hrules.trans hkind
  · rw [Option.map_map, hjoined, ← hkey, ← hrole, ← Registry.parts_closed_mark rules l.pitchOf]
    rfl

theorem closesOwn_applyMarker (settings : Settings) (note : Nat) (position : Position)
    (l : Linking τ) (m : Marker) : ClosesOwn note m l (l.applyMarker settings note position m) := by
  cases m with
  | tie key role =>
      exact closesOwn_of_mark .tie l.ties ⟨key, role, note, position, ()⟩ rfl rfl rfl
        rfl (relations_addClosed _ _)
  | slur key role =>
      exact closesOwn_of_mark .slur l.slurs ⟨key, role, note, position, ()⟩ rfl rfl rfl
        rfl (relations_addClosed _ _)
  | beam key role segments =>
      refine closesOwn_of_mark .beam l.beams ⟨key, role, note, position, segments⟩ rfl rfl rfl
        rfl ?_
      unfold applyMarker
      dsimp only
      split
      · next c hc =>
        obtain ⟨o, -, rfl⟩ := Registry.closed_of_mark hc
        rw [hc, relations_addBeam]
        simp [Registry.closing, RelationRules.beam, Function.comp_def, report]
      · next hnone =>
        rw [hnone]
        exact (List.append_nil _).symm
  | tupletStart key spec =>
      exact closesOwn_of_mark .tuplet l.tuplets ⟨key, .starts, note, position, some spec⟩ rfl rfl
        rfl rfl (relations_addClosed _ _)
  | tupletEnd key =>
      exact closesOwn_of_mark .tuplet l.tuplets ⟨key, .ends, note, position, none⟩ rfl rfl
        rfl rfl (relations_addClosed _ _)

theorem partsOf_of_closesOwn {note : Nat} {m : Marker} (h : ClosesOwn note m l l')
    (kind : RelationKind) : partsOf kind l'.relations = partsOf kind l.relations ++
      (if m.kind = kind then (l.joined m.kind).closing? note m.key m.role else none).toList := by
  obtain ⟨new, hrelations, hkind, hparts⟩ := h
  rw [hrelations, partsOf_append, ← hparts]
  refine congrArg _ ?_
  cases new with
  | none => simp [partsOf]
  | some r => by_cases hsame : m.kind = kind <;> simp [partsOf, hkind r rfl, hsame]

/-- What is not a marker leaves the open relations as they are, and adds legacy ties and beams at
most. -/
structure Unmarked (l l' : Linking τ) : Prop where
  joined : l'.joined = l.joined
  relations : ∃ new, l'.relations = l.relations ++ new ∧ ∀ r ∈ new, r.kind = .tie ∨ r.kind = .beam

namespace Unmarked

theorem of_relations (hjoined : l'.joined = l.joined) (h : l'.relations = l.relations) :
    Unmarked l l' := ⟨hjoined, [], by rw [h, List.append_nil], nofun⟩

theorem trans {l'' : Linking τ} (h : Unmarked l l') (h' : Unmarked l' l'') : Unmarked l l'' := by
  obtain ⟨new, hnew, hkind⟩ := h.relations
  obtain ⟨new', hnew', hkind'⟩ := h'.relations
  refine ⟨h'.joined.trans h.joined, new ++ new', ?_, List.forall_mem_append.mpr ⟨hkind, hkind'⟩⟩
  rw [hnew', hnew, List.append_assoc]

theorem addRelation (h : Unmarked l l') {r : Relation} (hr : r.kind = .tie ∨ r.kind = .beam) :
    Unmarked l (l'.addRelation r) :=
  h.trans ⟨rfl, [r], rfl, List.forall_mem_singleton.mpr hr⟩

theorem ite {p : Prop} [Decidable p] (h : Unmarked l l') : Unmarked l (if p then l' else l) := by
  split
  · exact h
  · exact .of_relations rfl rfl

theorem closeLegacyTie [TimeValue τ] (l : Linking τ) (note : Nat) (time : τ) :
    Unmarked l (l.closeLegacyTie note time) := by
  unfold Linking.closeLegacyTie
  dsimp only
  split
  · refine addRelation ?_ (.inl rfl)
    exact .of_relations rfl rfl
  · exact .of_relations rfl rfl

theorem addPlainBeam (h : Unmarked l l') (settings : Settings) (members : List Nat) :
    Unmarked l (l'.addPlainBeam settings members) := by
  refine .addRelation (h.trans ?_) (.inr rfl)
  unfold beamAutomatically
  split
  · exact .of_relations rfl rfl
  · exact .of_relations rfl rfl

theorem applyLegacyBeam (l : Linking τ) (settings : Settings) (note : Nat) (position : Position)
    (inChord : Bool) (mark : Option BeamMark) :
    Unmarked l (l.applyLegacyBeam settings note position inChord mark) := by
  unfold Linking.applyLegacyBeam
  split
  · exact .of_relations rfl rfl
  · dsimp only
    split
    · refine addPlainBeam ?_ settings _
      exact .of_relations rfl rfl
    · exact .of_relations rfl rfl
  · split
    · exact .of_relations rfl rfl
    · exact .of_relations rfl rfl

end Unmarked

/-! ## Links follow the text -/

/-- What is open is what some calls leave open, and the relations of the kind are those that the
calls end, apart from legacy ties and beams. -/
structure Follows (kind : RelationKind) (calls : List (RegistryCall (Option Node)))
    (l : Linking τ) : Prop where
  joined : l.joined kind = (Registry.after .written calls).joined
  ended : (endedParts calls).Sublist (partsOf kind l.relations)
  ended_eq : kind ≠ .tie → kind ≠ .beam → endedParts calls = partsOf kind l.relations

namespace Follows

variable {kind : RelationKind} {calls : List (RegistryCall (Option Node))} {settings : Settings}
  {isNote : Bool}

theorem initial : ({} : Linking τ).Follows kind [] := by
  refine ⟨?_, List.nil_sublist _, fun _ _ => rfl⟩
  cases kind <;> rfl

theorem unmarked (h : l.Follows kind calls) (hl : Unmarked l l') : l'.Follows kind calls := by
  obtain ⟨new, hrelations, hkinds⟩ := hl.relations
  refine ⟨hl.joined ▸ h.joined, ?_, fun htie hbeam => ?_⟩
  · rw [hrelations, partsOf_append]
    exact h.ended.trans (List.sublist_append_left _ _)
  · have hnone : partsOf kind new = [] := by
      rw [partsOf, List.map_eq_nil_iff, List.filter_eq_nil_iff]
      rintro r hr hkind
      obtain rfl : r.kind = kind := of_decide_eq_true hkind
      exact (hkinds r hr).elim htie hbeam
    rw [hrelations, partsOf_append, hnone, List.append_nil]
    exact h.ended_eq htie hbeam

theorem call {call : RegistryCall (Option Node)} (h : l.Follows kind calls)
    (hjoined : l'.joined kind = (Registry.after .written (calls ++ [call])).joined)
    (hparts : partsOf kind l'.relations = partsOf kind l.relations ++
      ((call.ended? none calls).map (List.map Endpoint.note)).toList) :
    l'.Follows kind (calls ++ [call]) := by
  refine ⟨hjoined, ?_, fun htie hbeam => ?_⟩
  · rw [endedParts_concat, hparts]
    exact h.ended.append_right _
  · rw [endedParts_concat, hparts, h.ended_eq htie hbeam]

/-- A marker tells the registry of its kind what it is written for. -/
theorem applyMarker {item : Node} {m : Marker} (h : l.Follows kind calls)
    (hitem : item.address? settings isNote = some m.address) (note : Nat) (position : Position) :
    (l.applyMarker settings note position m).Follows kind
      (calls ++ (item.call? settings kind isNote note position).toList) := by
  have hmarks : Marks note m l (l.applyMarker settings note position m) :=
    marks_applyMarker settings position l m
  have hparts := partsOf_of_closesOwn (closesOwn_applyMarker settings note position l m) kind
  rw [Node.call?, hitem]
  by_cases hkind : m.kind = kind
  · subst hkind
    simp only [Option.bind_some, Marker.address, if_true, Option.toList_some] at hparts ⊢
    refine h.call ?_ ?_
    · rw [hmarks.joined, h.joined, Registry.after_concat, Registry.tell, Registry.joined_mark]
    · rw [hparts, Registry.parts_ended?, h.joined]
  · simp only [Option.bind_some, Marker.address, hkind, if_false, Option.toList_none,
      List.append_nil] at hparts ⊢
    exact ⟨(hmarks.joined_of_ne kind hkind).trans h.joined, hparts ▸ h.ended,
      fun htie hbeam => (h.ended_eq htie hbeam).trans hparts.symm⟩

theorem foldl_applyMarker {items : List Node} {markers : List Marker} (h : l.Follows kind calls)
    (hitems : markers.map Marker.address = items.filterMap (Node.address? settings isNote))
    (note : Nat) (position : Position) :
    (markers.foldl (Linking.applyMarker settings note position) l).Follows kind
      (calls ++ items.filterMap (Node.call? settings kind isNote note position)) := by
  induction items generalizing markers l calls with
  | nil =>
      obtain rfl := List.map_eq_nil_iff.mp hitems
      rwa [List.filterMap_nil, List.append_nil]
  | cons item items ih =>
      cases haddress : item.address? settings isNote with
      | none =>
          rw [List.filterMap_cons_none haddress] at hitems
          rw [List.filterMap_cons_none (by rw [Node.call?, haddress]; rfl)]
          exact ih h hitems
      | some address =>
          rw [List.filterMap_cons_some haddress] at hitems
          obtain ⟨m, markers, rfl, rfl, hrest⟩ := List.map_eq_cons_iff.mp hitems
          rw [List.foldl_cons, List.filterMap_eq_flatMap_toList, List.flatMap_cons,
            ← List.filterMap_eq_flatMap_toList, ← List.append_assoc]
          exact ih (h.applyMarker haddress note position) hrest

theorem continueAll (h : l.Follows .tuplet calls) (note : Nat) (position : Position) :
    Follows .tuplet (calls ++ [.continueAll note position])
      { l with tuplets := l.tuplets.continueAll .tuplet note position } := by
  refine h.call ?_ (List.append_nil _).symm
  rw [Registry.after_concat, Registry.tell, Registry.joined_continueAll, ← h.joined]
  exact Registry.joined_continueAll ..

theorem applyMarkers {w : WrittenNote} {markers : List Marker} (h : l.Follows kind calls)
    (hitems : markers.map Marker.address =
      w.items.filterMap (Node.address? settings w.isNote)) (note : Nat) (inChord : Bool) :
    (l.applyMarkers settings note w.position inChord markers).Follows kind
      (calls ++ w.calls settings kind note inChord) := by
  have hfold := h.foldl_applyMarker hitems note w.position
  unfold Linking.applyMarkers WrittenNote.calls
  rw [WrittenNote.any_isTuplet hitems, ← List.append_assoc]
  dsimp only
  by_cases hother : (w.marksTuplet settings || inChord) = true
  · simpa only [hother, if_true, Bool.not_true, Bool.and_false, Bool.false_eq_true, if_false,
      List.append_nil] using hfold
  · simp only [hother, Bool.not_false, Bool.and_true]
    cases kind with
    | tuplet => exact hfold.continueAll note w.position
    | _ =>
        rw [if_neg (by decide), List.append_nil]
        exact ⟨hfold.joined, hfold.ended, hfold.ended_eq⟩

end Follows

end Linking

section

variable {τ : Type} [TimeValue τ] {kind : RelationKind}
  {calls : List (RegistryCall (Option Node))} {settings : Settings}

theorem Passage.unmarked_beforeMarkers (settings : Settings) (s : Passage τ)
    (reading : NoteReading) (position : Position) (inChord : Bool) :
    s.linking.Unmarked (s.beforeMarkers settings reading position inChord) := by
  unfold beforeMarkers
  dsimp only
  refine .trans ?_ (.applyLegacyBeam _ _ _ _ _ _)
  refine .trans ?_ (.ite (.of_relations rfl rfl))
  refine .trans ?_ (.ite (.closeLegacyTie _ _ _))
  exact .of_relations rfl rfl

theorem Passage.follows_placeNote {s : Passage τ} {w : WrittenNote} {reading : NoteReading}
    {display : TupletDisplay} (h : s.linking.Follows kind calls)
    (hread : NoteReading.read settings display w.isNote w.items = .ok reading) (inChord : Bool) :
    (s.placeNote settings reading w.position inChord).linking.Follows kind
      (calls ++ w.calls settings kind s.linking.notes.length inChord) := by
  have hbefore := s.unmarked_beforeMarkers settings reading w.position inChord
  exact (h.unmarked hbefore).applyMarkers (NoteReading.addresses_of_read hread) _ _

namespace Linking.Logs

variable {l : Linking τ} {log : List LogEntry}

theorem map_inChord (h : Logs settings {} log l) : l.notes.map NoteRest.inChord =
    (log.filterMap LogEntry.placing?).map Prod.snd := by
  induction h with
  | nil => rfl
  | rejected _ r ih =>
      rw [List.filterMap_append, List.filterMap_cons_none rfl, List.filterMap_nil, List.append_nil]
      exact ih
  | @placed log s _ w reading hread inChord ih =>
      rw [s.map_placeNote NoteRest.keeps_inChord settings (NoteReading.isWritten_of_read hread),
        List.filterMap_append, List.map_append, ih]
      rfl

/-- The registries are told what is written, note by note. -/
theorem follows (h : Logs settings {} log l) (kind : RelationKind) : l.Follows kind
    (WrittenNote.callsOf settings kind (log.filterMap LogEntry.placing?)) := by
  induction h with
  | nil => exact .initial
  | rejected _ r ih =>
      rw [List.filterMap_append, List.filterMap_cons_none rfl, List.filterMap_nil, List.append_nil]
      exact ih.unmarked (.of_relations rfl rfl)
  | @placed log s hlog w reading hread inChord ih =>
      have hlength : s.linking.notes.length = (log.filterMap LogEntry.placing?).length := by
        simpa using congrArg List.length hlog.map_inChord
      rw [List.filterMap_append,
        show [LogEntry.placed w inChord].filterMap LogEntry.placing? = [(w, inChord)] from rfl,
        WrittenNote.callsOf_concat, ← hlength]
      exact Passage.follows_placeNote ih hread inChord

end Linking.Logs

end

end ScorePlayback
