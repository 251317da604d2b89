import ScorePlayback.Proofs.Analysis.CrossLinks
import ScorePlayback.Proofs.Analysis.DocumentScores
import ScorePlayback.Proofs.Analysis.JoinedNotes

/-! # Relations of distinct notes

A note with several markers for one relation can be a part of it more than once. Nothing else makes
it so: if between two markers of a note for a relation one relation has ended or another one starts,
all relations join distinct notes. -/

namespace ScorePlayback

/-! ## Links -/

namespace Linking

variable {τ : Type}

def joined (l : Linking τ) : RelationKind → JoinedNotes
  | .tie => l.ties.joined
  | .slur => l.slurs.joined
  | .beam => l.beams.joined
  | .tuplet => l.tuplets.joined

theorem mem_unfinished_of_mem_joined {l : Linking τ} {kind : RelationKind} {e : Nat × List Nat}
    (h : e ∈ l.joined kind) : ⟨kind, e.2⟩ ∈ l.unfinished := by
  have hregistry {π : Type} {r : Registry π} (h : e ∈ r.joined) :
      ⟨kind, e.2⟩ ∈ r.unfinished kind := by
    obtain ⟨o, ho, rfl⟩ := List.mem_map.mp h
    exact List.mem_map.mpr ⟨o, ho, rfl⟩
  rw [mem_unfinished]
  cases kind with
  | tie => exact .inl (hregistry h)
  | slur => exact .inr (.inl (hregistry h))
  | beam => exact .inr (.inr (.inl (hregistry h)))
  | tuplet => exact .inr (.inr (.inr (.inl (hregistry h))))

/-- A relation is one of those that are open, and the note of the marker that ends it. -/
def Closes (note : Nat) (m : Marker) (l : Linking τ) (r : Relation) : Prop :=
  r.kind = m.kind ∧ m.role = .ends ∧
    ∃ parts, Keyed.find? m.key (l.joined m.kind) = some parts ∧ r.parts = parts ++ [note]

/-- What a marker of a note does to the open relations, and what it closes. -/
structure Marks (note : Nat) (m : Marker) (l l' : Linking τ) : Prop where
  joined : l'.joined m.kind = (l.joined m.kind).mark note m.key m.role
  joined_of_ne (kind : RelationKind) : m.kind ≠ kind → l'.joined kind = l.joined kind
  legacyBeams : l'.legacyBeams = l.legacyBeams
  relations : ∀ r ∈ l'.relations, r ∈ l.relations ∨ Closes note m l r

variable {note : Nat} {m : Marker} {l l' : Linking τ}

namespace Marks

theorem addRelation (h : Marks note m l l') {r : Relation} (hr : Closes note m l r) :
    Marks note m l (l'.addRelation r) where
  joined := h.joined
  joined_of_ne := h.joined_of_ne
  legacyBeams := h.legacyBeams
  relations := List.forall_mem_append.mpr ⟨h.relations, by simpa using .inr hr⟩

theorem addClosed {π : Type} (h : Marks note m l l') (closed : Option (ClosedRelation π))
    (hclosed : ∀ c ∈ closed, Closes note m l c.relation) :
    Marks note m l (l'.addClosed closed) := by
  cases closed with
  | none => exact h
  | some c => exact h.addRelation (hclosed c rfl)

theorem addBeam (h : Marks note m l l') (settings : Settings)
    {parts : List (Nat × List BeamSegment)}
    (hr : Closes note m l ⟨.beam, parts.map Prod.fst, .beam⟩) :
    Marks note m l (l'.addBeam settings parts) := by
  refine addRelation ?_ hr
  split
  · exact ⟨h.joined, h.joined_of_ne, h.legacyBeams, h.relations⟩
  · unfold beamAutomatically
    split
    · exact ⟨h.joined, h.joined_of_ne, h.legacyBeams, h.relations⟩
    · exact h

end Marks

section

variable {π : Type} (rules : RelationRules π) (r : Registry π) (e : Endpoint π)

/-- A marker is an endpoint for the registry of its kind. -/
theorem marks_state (hjoined : l.joined m.kind = r.joined) (hkey : e.key = m.key)
    (hrole : e.role = m.role)
    (hstate : l'.joined m.kind = (r.mark rules l.pitchOf e).state.joined)
    (hother : ∀ kind, m.kind ≠ kind → l'.joined kind = l.joined kind)
    (hbeams : l'.legacyBeams = l.legacyBeams) (hrelations : l'.relations = l.relations) :
    Marks e.note m l l' where
  joined := by rw [hstate, hjoined, Registry.joined_mark, hkey, hrole]
  joined_of_ne := hother
  legacyBeams := hbeams
  relations r hr := .inl (hrelations ▸ hr)

variable {rules r e}

theorem closes_of_closed {c : ClosedRelation π} (h : (r.mark rules l.pitchOf e).closed = some c)
    (hjoined : l.joined m.kind = r.joined) (hkey : e.key = m.key) (hrole : e.role = m.role)
    (hkind : rules.kind = m.kind) : Closes e.note m l c.relation := by
  obtain ⟨hends, parts, hparts, hc, hrules⟩ := Registry.parts_of_closed h
  refine ⟨hrules.trans hkind, hrole ▸ hends, parts, ?_, hc⟩
  rw [hjoined, ← hkey, hparts]

end

theorem marks_markTuplet (e : Endpoint (Option TupletSpec)) (hkind : m.kind = .tuplet)
    (hkey : e.key = m.key) (hrole : e.role = m.role) :
    let r := l.tuplets.mark .tuplet l.pitchOf e
    Marks e.note m l
      (({ l with tuplets := r.state }.report r.diagnostics).addClosed r.closed) := by
  intro r
  have hjoined : l.joined m.kind = l.tuplets.joined := by rw [hkind]; rfl
  have hmarks : Marks e.note m l ({ l with tuplets := r.state }.report r.diagnostics) := by
    refine marks_state .tuplet l.tuplets e hjoined hkey hrole (by rw [hkind]; rfl) ?_ rfl rfl
    rw [hkind]
    rintro (_ | _ | _ | _) hne
    exacts [rfl, rfl, rfl, absurd rfl hne]
  exact hmarks.addClosed _ fun c hc =>
    closes_of_closed hc hjoined hkey hrole hkind.symm

theorem marks_applyMarker (settings : Settings) (position : Position) (l : Linking τ) (m : Marker) :
    Marks note m l (l.applyMarker settings note position m) := by
  cases m with
  | tie key role =>
      let e : Endpoint Unit := ⟨key, role, note, position, ()⟩
      let r := l.ties.mark .tie l.pitchOf e
      have hmarks : Marks note (.tie key role) l
          ({ l with ties := r.state }.report r.diagnostics) := by
        refine marks_state .tie l.ties e rfl rfl rfl rfl ?_ rfl rfl
        rintro (_ | _ | _ | _) hne
        exacts [absurd rfl hne, rfl, rfl, rfl]
      exact hmarks.addClosed _ fun c hc => closes_of_closed hc rfl rfl rfl rfl
  | slur key role =>
      let e : Endpoint Unit := ⟨key, role, note, position, ()⟩
      let r := l.slurs.mark .slur l.pitchOf e
      have hmarks : Marks note (.slur key role) l
          ({ l with slurs := r.state }.report r.diagnostics) := by
        refine marks_state .slur l.slurs e rfl rfl rfl rfl ?_ rfl rfl
        rintro (_ | _ | _ | _) hne
        exacts [rfl, absurd rfl hne, rfl, rfl]
      exact hmarks.addClosed _ fun c hc => closes_of_closed hc rfl rfl rfl rfl
  | beam key role segments =>
      let e : Endpoint (List BeamSegment) := ⟨key, role, note, position, segments⟩
      let r := l.beams.mark .beam l.pitchOf e
      have hmarks : Marks note (.beam key role segments) l
          ({ l with beams := r.state }.report r.diagnostics) := by
        refine marks_state .beam l.beams e rfl rfl rfl rfl ?_ rfl rfl
        rintro (_ | _ | _ | _) hne
        exacts [rfl, rfl, absurd rfl hne, rfl]
      unfold applyMarker
      dsimp only
      split
      · next c hc =>
        have hr : Closes note (.beam key role segments) l c.relation :=
          closes_of_closed hc rfl rfl rfl rfl
        obtain ⟨o, -, rfl⟩ := Registry.closed_of_mark hc
        refine hmarks.addBeam settings ?_
        simpa [Registry.closing, RelationRules.beam, Function.comp_def] using hr
      · exact hmarks
  | tupletStart key spec =>
      exact marks_markTuplet ⟨key, .starts, note, position, some spec⟩ rfl rfl rfl
  | tupletEnd key => exact marks_markTuplet ⟨key, .ends, note, position, none⟩ rfl rfl rfl

/-! ## Distinct notes -/

/-- The relations of a kind have distinct notes, those that are open so far. -/
structure HasDistinctNotes (kind : RelationKind) (l : Linking τ) : Prop where
  joined : ∀ e ∈ l.joined kind, e.2.Nodup
  beams : ∀ beam ∈ l.legacyBeams.stack, beam.members.Nodup
  relations : ∀ r ∈ l.relations, r.kind = kind → r.parts.Nodup

/-- Besides, what is open has joined a note only if its markers leave it open. -/
structure JoinsOnce (kind : RelationKind) (note : Nat) (markers : List Marker) (l : Linking τ) :
    Prop extends HasDistinctNotes kind l where
  leaveOpen : ∀ e ∈ l.joined kind, note ∈ e.2 → Marker.LeaveOpen kind e.1 markers

theorem hasDistinctNotes_empty (kind : RelationKind) : HasDistinctNotes kind ({} : Linking τ) where
  joined := by cases kind <;> exact nofun
  beams := nofun
  relations := nofun

namespace JoinsOnce

variable {kind : RelationKind} {markers : List Marker}

theorem applyMarker (h : l.JoinsOnce kind note markers)
    (hm : Marker.JoinOnce kind (markers ++ [m])) (settings : Settings) (position : Position) :
    (l.applyMarker settings note position m).JoinsOnce kind note (markers ++ [m]) := by
  have hmarks : Marks note m l (l.applyMarker settings note position m) :=
    marks_applyMarker settings position l m
  have hjoined : (l.joined kind).AreDistinct kind note markers :=
    fun e he => ⟨h.joined e he, h.leaveOpen e he⟩
  have hjoined' : ((l.applyMarker settings note position m).joined kind).AreDistinct kind note
      (markers ++ [m]) := by
    by_cases hkind : m.kind = kind
    · subst hkind
      exact hmarks.joined ▸ hjoined.mark hm rfl
    · exact hmarks.joined_of_ne kind hkind ▸ hjoined.concat_of_ne hkind
  refine ⟨⟨fun e he => (hjoined' e he).1, hmarks.legacyBeams ▸ h.beams, fun r hr hkind => ?_⟩,
    fun e he => (hjoined' e he).2⟩
  rcases hmarks.relations r hr with hr | ⟨hsame, hends, parts, hparts, heq⟩
  · exact h.relations r hr hkind
  · obtain rfl : m.kind = kind := hsame.symm.trans hkind
    exact heq ▸ hjoined.nodup_concat hm rfl (by simp [hends]) hparts

theorem foldl_applyMarker (h : l.JoinsOnce kind note markers) (settings : Settings)
    (position : Position) {next : List Marker} (hm : Marker.JoinOnce kind (markers ++ next)) :
    (next.foldl (Linking.applyMarker settings note position) l).JoinsOnce kind note
      (markers ++ next) := by
  induction next generalizing markers l with
  | nil => rwa [List.append_nil]
  | cons m next ih =>
      rw [List.append_cons] at hm ⊢
      exact ih (h.applyMarker hm.of_append settings position) hm

/-- A note without markers for tuplets joins those that are open. -/
theorem continueAll (h : l.JoinsOnce kind note markers) (hm : ∀ m ∈ markers, m.isTuplet = false)
    (position : Position) :
    HasDistinctNotes kind { l with tuplets := l.tuplets.continueAll .tuplet note position } := by
  refine ⟨fun e he => ?_, h.beams, h.relations⟩
  cases kind with
  | tuplet =>
      replace he : e ∈ (l.tuplets.continueAll .tuplet note position).joined := he
      rw [Registry.joined_continueAll] at he
      obtain ⟨e, he', rfl⟩ := List.mem_map.mp he
      have hnot : note ∉ e.2 := by
        intro hmem
        -- only a marker for tuplets could have left the note in it
        obtain ⟨m, hlast, -⟩ := h.leaveOpen e he' hmem
        obtain ⟨hmem, hfor⟩ := List.mem_filter.mp (List.mem_of_getLast? hlast)
        have hkind : m.kind = .tuplet := by simpa using (Bool.and_eq_true_iff.mp hfor).1
        exact absurd (Marker.isTuplet_of_kind hkind) (by simp [hm m hmem])
      exact nodup_concat (h.joined e he') hnot
  | _ => exact h.joined e he

theorem applyMarkers (h : l.JoinsOnce kind note []) (hm : Marker.JoinOnce kind markers)
    (settings : Settings) (position : Position) (inChord : Bool) :
    (l.applyMarkers settings note position inChord markers).HasDistinctNotes kind := by
  have hfold := h.foldl_applyMarker settings position (List.nil_append markers ▸ hm)
  unfold Linking.applyMarkers
  dsimp only
  split
  · exact hfold.toHasDistinctNotes
  · next hother =>
    simp only [Bool.or_eq_true, List.any_eq_true, not_or, not_exists, not_and] at hother
    exact hfold.continueAll (fun m hmem => Bool.eq_false_iff.mpr (hother.1 m hmem)) position

/-! ### Legacy marks -/

theorem addRelation (h : l.JoinsOnce kind note markers) {r : Relation} (hr : r.parts.Nodup) :
    (l.addRelation r).JoinsOnce kind note markers :=
  ⟨⟨h.joined, h.beams,
    List.forall_mem_append.mpr ⟨h.relations, List.forall_mem_singleton.mpr fun _ => hr⟩⟩,
    h.leaveOpen⟩

theorem addPlainBeam (h : l.JoinsOnce kind note markers) (settings : Settings) {members : List Nat}
    (hmembers : members.Nodup) : (l.addPlainBeam settings members).JoinsOnce kind note markers := by
  refine addRelation ?_ hmembers
  unfold beamAutomatically
  split
  · exact ⟨⟨h.joined, h.beams, h.relations⟩, h.leaveOpen⟩
  · exact h

theorem closeLegacyTie [TimeValue τ] (h : l.JoinsOnce kind note markers)
    (hnot : ∀ u ∈ l.legacyTie.unfinished, note ∉ u.parts) (time : τ) :
    (l.closeLegacyTie note time).JoinsOnce kind note markers := by
  unfold Linking.closeLegacyTie
  dsimp only
  split
  · next first second hclosed =>
    refine addRelation ?_ ?_
    · exact ⟨⟨h.joined, h.beams, h.relations⟩, h.leaveOpen⟩
    · obtain ⟨-, u, hu, -, hparts⟩ := LegacyTie.endsOne_offer hclosed
      obtain ⟨tie, -, rfl⟩ := List.mem_map.mp hu
      have hne : note ∉ [tie.note] := hnot _ hu
      rw [hparts]
      exact nodup_concat (List.nodup_singleton _) hne
  · exact ⟨⟨h.joined, h.beams, h.relations⟩, h.leaveOpen⟩

theorem startLegacyTie (h : l.JoinsOnce kind note markers) (tie : PendingTie τ) :
    (l.startLegacyTie tie).JoinsOnce kind note markers :=
  ⟨⟨h.joined, h.beams, h.relations⟩, h.leaveOpen⟩

theorem applyLegacyBeam (h : l.JoinsOnce kind note markers)
    (hnot : ∀ beam ∈ l.legacyBeams.stack, note ∉ beam.members) (settings : Settings)
    (position : Position) (inChord : Bool) (mark : Option BeamMark) :
    (l.applyLegacyBeam settings note position inChord mark).JoinsOnce kind note markers := by
  have hbeam : ∀ beam ∈ l.legacyBeams.stack, (beam.add note).members.Nodup :=
    fun beam hmem => nodup_concat (h.beams beam hmem) (hnot beam hmem)
  have hadd : ∀ beam ∈ (l.legacyBeams.add note).stack, beam.members.Nodup :=
    List.forall_mem_map.mpr hbeam
  unfold Linking.applyLegacyBeam
  split
  · exact ⟨⟨h.joined, List.forall_mem_cons.mpr ⟨List.nodup_singleton _, hadd⟩, h.relations⟩,
      h.leaveOpen⟩
  · obtain ⟨hstate, hclosed⟩ := LegacyBeams.nodup_leave h.beams hbeam position
    dsimp only
    split
    · next members hmembers =>
      refine addPlainBeam ?_ settings (hclosed members hmembers)
      exact ⟨⟨h.joined, hstate, h.relations⟩, h.leaveOpen⟩
    · exact ⟨⟨h.joined, hstate, h.relations⟩, h.leaveOpen⟩
  · split
    · exact h
    · exact ⟨⟨h.joined, hadd, h.relations⟩, h.leaveOpen⟩

end JoinsOnce

theorem legacyBeams_closeLegacyTie [TimeValue τ] (l : Linking τ) (time : τ) :
    (l.closeLegacyTie note time).legacyBeams = l.legacyBeams := by
  unfold closeLegacyTie
  dsimp only
  split <;> rfl

end Linking

/-! ## Scores -/

section

variable {τ : Type} [TimeValue τ] {kind : RelationKind}

omit [TimeValue τ] in
/-- Whatever is open when a note is read does not have the note yet. -/
theorem Linking.HasDistinctNotes.joinsOnce {l : Linking τ} (h : l.HasDistinctNotes kind)
    (hbelow : ∀ u ∈ l.unfinished, ∀ part ∈ u.parts, part < l.notes.length) :
    l.JoinsOnce kind l.notes.length [] := by
  refine ⟨h, fun e he hmem => ?_⟩
  exact absurd (hbelow _ (mem_unfinished_of_mem_joined he) _ hmem) (Nat.lt_irrefl _)

theorem Passage.hasDistinctNotes_placeNote (settings : Settings) {s : Passage τ}
    (h : s.linking.HasDistinctNotes kind)
    (hbelow : ∀ u ∈ s.linking.unfinished, ∀ part ∈ u.parts, part < s.linking.notes.length)
    {reading : NoteReading} (hm : Marker.JoinOnce kind reading.spec.markers) (position : Position)
    (inChord : Bool) :
    (s.placeNote settings reading position inChord).linking.HasDistinctNotes kind := by
  have hnot {u : Unfinished} (hu : u ∈ s.linking.unfinished) : s.linking.notes.length ∉ u.parts :=
    fun hmem => absurd (hbelow u hu _ hmem) (Nat.lt_irrefl _)
  let added := (s.linking.reject reading.rejections).addNote
    (s.realize reading.spec position inChord)
  have hadded : added.JoinsOnce kind s.linking.notes.length [] :=
    ⟨⟨h.joined, h.beams, h.relations⟩, (h.joinsOnce hbelow).leaveOpen⟩
  have hclosed (c : Bool) (time : τ) :
      (if c then added.closeLegacyTie s.linking.notes.length time else added).JoinsOnce kind
        s.linking.notes.length [] := by
    split
    · refine hadded.closeLegacyTie (fun u hu => hnot ?_) time
      exact Linking.mem_unfinished.mpr (.inr (.inr (.inr (.inr (.inl hu)))))
    · exact hadded
  have hbeams (c : Bool) (time : τ) :
      (if c then added.closeLegacyTie s.linking.notes.length time else added).legacyBeams =
        s.linking.legacyBeams := by
    split
    · exact Linking.legacyBeams_closeLegacyTie added time
    · rfl
  unfold placeNote
  dsimp only
  refine Linking.JoinsOnce.applyMarkers ?_ hm settings position inChord
  refine Linking.JoinsOnce.applyLegacyBeam ?_ ?_ settings position inChord _
  · split
    · exact (hclosed _ _).startLegacyTie _
    · exact hclosed _ _
  · intro beam hbeam
    -- ties do not touch the beams, so these are the beams from before the note
    have hbeam : beam ∈ s.linking.legacyBeams.stack := by
      split at hbeam
      all_goals exact (hbeams _ _).subst (motive := fun b => beam ∈ b.stack) hbeam
    refine hnot (u := ⟨.beam, beam.members⟩) (Linking.mem_unfinished.mpr ?_)
    exact .inr (.inr (.inr (.inr (.inr (List.mem_map_of_mem hbeam)))))

/-- The relations of a kind have distinct notes if no note joins one more than once. -/
theorem isReadingLawOf_hasDistinctNotes (settings : Settings) (kind : RelationKind) :
    IsReadingLawOf settings
      (fun reading => reading.IsWritten ∧ Marker.JoinOnce kind reading.spec.markers)
      fun _ (l : Linking τ) _ => l.IsLinked ∧ l.HasDistinctNotes kind where
  report found h := ⟨h.1.report found, h.2.joined, h.2.beams, h.2.relations⟩
  object _ h := h
  note := fun {_ s reading} position inChord hreading h => by
    refine ⟨s.isLinked_placeNote settings h.1 hreading.1 position inChord, ?_⟩
    refine s.hasDistinctNotes_placeNote settings h.2 ?_ hreading.2 position inChord
    exact fun u hu => (h.1.parts.unfinished u hu).2.below
  complete h := h

/-- If no note joins a relation of a kind more than once, all relations of this kind join two or
more distinct notes, from the first to the last one. -/
theorem parts_increase_of_analyse {settings : Settings} {tree : Node} {analysis : Analysis τ}
    (h : analyse settings tree = .ok analysis)
    (hm : tree.Admits settings fun reading => Marker.JoinOnce kind reading.spec.markers)
    {score : Score τ} (hs : score ∈ analysis.document.scores) :
    ∀ r ∈ score.relations, r.kind = kind → 2 ≤ r.parts.length ∧ r.parts.Pairwise (· < ·) := by
  obtain ⟨node, title, hnode, rfl⟩ := exists_element_of_analyse h hs
  have hchildren : ∀ child ∈ node.children, child.Admits settings fun reading =>
      reading.IsWritten ∧ Marker.JoinOnce kind reading.spec.markers := by
    intro child hchild isNote items position hitem display reading hreading
    have hwithin := (hitem.trans (Node.isWithin_of_mem_children hchild)).trans hnode
    exact ⟨NoteReading.isWritten_of_read hreading, hm _ _ _ hwithin _ _ hreading⟩
  have hinitial : IsReadingLaw.Obeyed (fun _ (l : Linking τ) _ =>
      l.IsLinked ∧ l.HasDistinctNotes kind) ({} : ScoreState τ) :=
    ⟨Linking.isLinked_empty, Linking.hasDistinctNotes_empty kind⟩
  have hlaw := (isReadingLawOf_hasDistinctNotes settings kind).foldl_readScore hinitial hchildren
  intro r hr hkind
  obtain ⟨hlength, -, hascend⟩ := hlaw.1.parts.relations r hr
  refine ⟨hlength, ?_⟩
  have hnodup := hlaw.2.relations r hr hkind
  exact (hascend.and hnodup).imp fun h => Nat.lt_of_le_of_ne h.1 h.2

end

/-- What a note with relation markers is written with. -/
def markedItems (markers : List (RelationKind × String)) : List Node :=
  let here : Position := ⟨1, 1⟩
  let word (text : String) : Node := .atom .label text here
  let name (kind : RelationKind) : ElementName :=
    match kind with
    | .tie => .tie
    | .slur => .slur
    | .beam => .beam
    | .tuplet => .tuplet
  word "c4" :: word "q" :: markers.map fun (kind, role) => .element (name kind) [word role] here

/-- Notes with relation markers. -/
def markedNotes (markers : List (List (RelationKind × String))) : Node :=
  let here : Position := ⟨1, 1⟩
  .element .score [.element .instrument [.element .music
    (markers.map fun own => .element .note (markedItems own) here) here] here] here

theorem admits_markedNotes {admitted : NoteReading → Prop}
    {markers : List (List (RelationKind × String))}
    (h : ∀ own ∈ markers, ∀ display reading,
      NoteReading.read {} display true (markedItems own) = .ok reading → admitted reading) :
    (markedNotes markers).Admits {} admitted := by
  refine Node.admits_element_of_ne nofun nofun (List.forall_mem_singleton.mpr ?_)
  refine Node.admits_element_of_ne nofun nofun (List.forall_mem_singleton.mpr ?_)
  refine Node.admits_element_of_ne nofun nofun (List.forall_mem_map.mpr fun own hown => ?_)
  have hatom (text : String) (position : Position) :
      (Node.atom .label text position).Admits {} admitted := Node.admits_atom _ _ _ _ _
  refine Node.admits_element ?_ fun isNote hnote => ?_
  · refine List.forall_mem_cons.mpr ⟨hatom _ _, List.forall_mem_cons.mpr ⟨hatom _ _, ?_⟩⟩
    refine List.forall_mem_map.mpr fun (kind, role) _ => ?_
    refine Node.admits_element_of_ne ?_ ?_ (List.forall_mem_singleton.mpr (hatom _ _))
    · cases kind <;> nofun
    · cases kind <;> nofun
  · cases isNote with
    | true => exact h own hown
    | false => cases hnote

/-- A note may end a tie and start another one. -/
theorem parts_increase_tiedThrice :
    ∃ analysis : Analysis Rat,
      analyse {} (markedNotes [[(.tie, "start")], [(.tie, "stop"), (.tie, "start")],
        [(.tie, "stop")]]) = .ok analysis ∧
      ∃ score ∈ analysis.document.scores,
        score.relations = [⟨.tie, [0, 1], .tie⟩, ⟨.tie, [1, 2], .tie⟩] ∧
        ∀ r ∈ score.relations, r.kind = .tie → 2 ≤ r.parts.length ∧ r.parts.Pairwise (· < ·) := by
  have h : (analyse {} (markedNotes [[(.tie, "start")], [(.tie, "stop"), (.tie, "start")],
    [(.tie, "stop")]]) : Except CompileError (Analysis Rat)) = .ok _ := rfl
  have hmarkers : ∀ own ∈ [[(RelationKind.tie, "start")], [(.tie, "stop"), (.tie, "start")],
      [(.tie, "stop")]], ∀ display reading,
      NoteReading.read {} display true (markedItems own) = .ok reading →
        Marker.JoinOnce .tie reading.spec.markers := by
    simp only [List.forall_mem_cons]
    refine ⟨?_, ?_, ?_, nofun⟩
    · rintro display _ ⟨⟩
      show Marker.JoinOnce .tie [.tie 0 .starts]
      decide
    · rintro display _ ⟨⟩
      show Marker.JoinOnce .tie [.tie 0 .ends, .tie 0 .starts]
      decide
    · rintro display _ ⟨⟩
      show Marker.JoinOnce .tie [.tie 0 .ends]
      decide
  exact ⟨_, h, _, List.mem_singleton.mpr rfl, by decide +kernel,
    parts_increase_of_analyse h (admits_markedNotes hmarkers) (List.mem_singleton.mpr rfl)⟩

/-- A note that is marked twice for one slur or tie is part of it twice. -/
theorem not_parts_increase_markedTwice :
    ∃ analysis analysis' : Analysis Rat,
      analyse {} (markedNotes [[(.slur, "start"), (.slur, "continue")], [(.slur, "stop")]]) =
        .ok analysis ∧
      analyse {} (markedNotes [[(.tie, "start"), (.tie, "stop")]]) = .ok analysis' ∧
      analysis.document.scores.map Score.relations = [[⟨.slur, [0, 0, 1], .slur⟩]] ∧
      analysis'.document.scores.map Score.relations = [[⟨.tie, [0, 0], .tie⟩]] ∧
      analysis.diagnostics = [] ∧ analysis'.diagnostics = [] :=
  ⟨_, _, rfl, rfl, by decide +kernel, by decide +kernel, by decide +kernel, by decide +kernel⟩

end ScorePlayback
