import ScorePlayback.Proofs.Analysis.MatchedMarkers

/-! # The notes inside a tuplet

A tuplet is marked at its first and at its last note. Of the notes between them those are members
that have no marker for tuplets at all, whatever other tuplets are open there, and of each chord
only the first note. -/

namespace ScorePlayback

/-! ## Notes between two others -/

/-- A note goes on with every open tuplet, unless it has a marker for tuplets or follows another
note of its chord. -/
def WrittenNote.goesOn (settings : Settings) (w : WrittenNote) (inChord : Bool) : Bool :=
  !(w.marksTuplet settings || inChord)

/-- The notes behind one and before another that go on with every open tuplet. -/
def membersBetween (settings : Settings) (placed : List (WrittenNote × Bool)) (first last : Nat) :
    List Nat :=
  (List.range last).filter fun note =>
    first < note && placed[note]?.any fun (w, inChord) => w.goesOn settings inChord

section

variable {settings : Settings} {placed : List (WrittenNote × Bool)}

theorem mem_membersBetween {first last note : Nat} :
    note ∈ membersBetween settings placed first last ↔ first < note ∧ note < last ∧
      ∃ p ∈ placed[note]?, p.1.marksTuplet settings = false ∧ p.2 = false := by
  simp [membersBetween, WrittenNote.goesOn, Option.any_eq_true, and_left_comm]

/-- There is nothing between a note and itself, or the next one. -/
theorem membersBetween_eq_nil {first last : Nat} (h : last ≤ first + 1) :
    membersBetween settings placed first last = [] := by
  refine List.filter_eq_nil_iff.mpr fun note hnote => ?_
  have hle : note ≤ first := Nat.le_of_lt_succ ((List.mem_range.mp hnote).trans_le h)
  simp [hle]

theorem membersBetween_append {first last : Nat} (h : last ≤ placed.length)
    (more : List (WrittenNote × Bool)) :
    membersBetween settings (placed ++ more) first last =
      membersBetween settings placed first last := by
  refine List.filter_congr fun note hnote => ?_
  rw [List.getElem?_append_left ((List.mem_range.mp hnote).trans_le h)]

theorem membersBetween_succ {first last : Nat} (h : first < last) {w : WrittenNote}
    {inChord : Bool} (hlast : placed[last]? = some (w, inChord)) :
    membersBetween settings placed first (last + 1) =
      membersBetween settings placed first last ++
        if w.goesOn settings inChord then [last] else [] := by
  rw [membersBetween, List.range_succ, List.filter_append, ← membersBetween, List.filter_singleton]
  simp [h, hlast]

end

/-! ## Notes that tuplets have so far -/

namespace Linking

variable {τ : Type} {settings : Settings} {placed : List (WrittenNote × Bool)}

/-- Tuplets have started before the note `past`. Those that are open have all their members up to
the note `reached`, those that have ended have all of them and their last note. -/
structure Fills (settings : Settings) (placed : List (WrittenNote × Bool)) (past reached : Nat)
    (l : Linking τ) : Prop where
  opened : ∀ e ∈ l.joined .tuplet, ∃ first < past,
    e.2 = first :: membersBetween settings placed first reached
  ended : ∀ r ∈ l.relations, r.kind = .tuplet → ∃ first last, first ≤ last ∧ last < past ∧
    r.parts = first :: membersBetween settings placed first last ++ [last]

namespace Fills

variable {past note : Nat} {l l' : Linking τ}

theorem mono (h : l.Fills settings placed past note) {later : Nat} (hle : past ≤ later) :
    l.Fills settings placed later note := by
  refine ⟨fun e he => ?_, fun r hr htuplet => ?_⟩
  · obtain ⟨first, hfirst, hparts⟩ := h.opened e he
    exact ⟨first, hfirst.trans_le hle, hparts⟩
  · obtain ⟨first, last, hfirst, hlast, hparts⟩ := h.ended r hr htuplet
    exact ⟨first, last, hfirst, hlast.trans_le hle, hparts⟩

theorem unmarked (h : l.Fills settings placed past note) (hl : Unmarked l l') :
    l'.Fills settings placed past note := by
  obtain ⟨new, hrelations, hkinds⟩ := hl.relations
  refine ⟨hl.joined ▸ h.opened, fun r hr htuplet => ?_⟩
  rcases List.mem_append.mp (hrelations ▸ hr) with hr | hr
  · exact h.ended r hr htuplet
  · rcases hkinds r hr with htie | hbeam
    · simp [htuplet] at htie
    · simp [htuplet] at hbeam

/-- A note with a marker for tuplets becomes the first or the last note of one. -/
theorem applyMarker (h : l.Fills settings placed past note) (position : Position) {m : Marker}
    (hm : m.isTuplet = true → past = note + 1) :
    (l.applyMarker settings note position m).Fills settings placed past note := by
  have hmarks : Marks note m l (l.applyMarker settings note position m) :=
    marks_applyMarker settings position l m
  by_cases hkind : m.kind = .tuplet
  · have hpast := hm (Marker.isTuplet_of_kind hkind)
    refine ⟨?_, fun r hr htuplet => ?_⟩
    · rw [← hkind, hmarks.joined, hkind]
      intro e he
      cases hrole : m.role with
      | starts =>
          rw [hrole] at he
          rcases Keyed.mem_insert he with rfl | he
          · exact ⟨note, by omega, by rw [membersBetween_eq_nil note.le_succ]⟩
          · exact h.opened e he
      | continues => cases m <;> simp [Marker.role, Marker.kind] at hrole hkind
      | ends =>
          rw [hrole] at he
          exact h.opened e (List.mem_filter.mp he).1
    · rcases hmarks.relations r hr with hr | ⟨-, -, parts, hparts, heq⟩
      · exact h.ended r hr htuplet
      · obtain ⟨first, hfirst, rfl⟩ := h.opened _ (Keyed.mem_of_find? (hkind ▸ hparts))
        exact ⟨first, note, by omega, by omega, heq⟩
  · refine ⟨hmarks.joined_of_ne .tuplet hkind ▸ h.opened, fun r hr htuplet => ?_⟩
    rcases hmarks.relations r hr with hr | ⟨hsame, -⟩
    · exact h.ended r hr htuplet
    · exact absurd (hsame.symm.trans htuplet) hkind

theorem foldl_applyMarker (h : l.Fills settings placed past note) (position : Position)
    (markers : List Marker) (hmarkers : markers.any Marker.isTuplet = true → past = note + 1) :
    (markers.foldl (Linking.applyMarker settings note position) l).Fills settings placed past
      note :=
  List.foldlRecOn (motive := Fills settings placed past note) markers _ h
    fun _ h m hm => h.applyMarker position fun htuplet =>
      hmarkers (List.any_eq_true.mpr ⟨m, hm, htuplet⟩)

/-- Behind a note that goes on with all of them all open tuplets have it. -/
theorem continueAll (h : l.Fills settings placed note note) (position : Position)
    {w : WrittenNote} {inChord : Bool} (hnote : placed[note]? = some (w, inChord))
    (hgoes : w.goesOn settings inChord = true) :
    Fills settings placed (note + 1) (note + 1)
      { l with tuplets := l.tuplets.continueAll .tuplet note position } := by
  refine ⟨fun e he => ?_, fun r hr htuplet => ?_⟩
  · have hjoined : e ∈ (l.tuplets.continueAll .tuplet note position).joined := he
    rw [Registry.joined_continueAll] at hjoined
    obtain ⟨e, hopen, rfl⟩ := List.mem_map.mp hjoined
    obtain ⟨first, hfirst, hparts⟩ := h.opened e hopen
    refine ⟨first, hfirst.trans note.lt_succ_self, ?_⟩
    rw [membersBetween_succ hfirst hnote, hgoes, if_pos rfl, ← List.cons_append, ← hparts]
    rfl
  · exact (h.mono note.le_succ).ended r hr htuplet

/-- The other notes are not members of the tuplets that have been open before. -/
theorem pass (h : l.Fills settings placed (note + 1) note) {w : WrittenNote} {inChord : Bool}
    (hnote : placed[note]? = some (w, inChord)) (hgoes : w.goesOn settings inChord = false) :
    l.Fills settings placed (note + 1) (note + 1) := by
  refine ⟨fun e he => ?_, h.ended⟩
  obtain ⟨first, hfirst, hparts⟩ := h.opened e he
  refine ⟨first, hfirst, ?_⟩
  rcases (Nat.le_of_lt_succ hfirst).lt_or_eq with hlt | rfl
  · rw [membersBetween_succ hlt hnote, hgoes, if_neg Bool.false_ne_true, List.append_nil, ← hparts]
  · rw [hparts, membersBetween_eq_nil first.le_succ, membersBetween_eq_nil le_rfl]

theorem applyMarkers (h : l.Fills settings placed note note) {w : WrittenNote} {inChord : Bool}
    (hnote : placed[note]? = some (w, inChord)) {markers : List Marker}
    (hitems : markers.map Marker.address =
      w.items.filterMap (Node.address? settings w.isNote)) :
    (l.applyMarkers settings note w.position inChord markers).Fills settings placed (note + 1)
      (note + 1) := by
  have hgoes : w.goesOn settings inChord = !(markers.any Marker.isTuplet || inChord) := by
    rw [WrittenNote.goesOn, WrittenNote.any_isTuplet hitems]
  unfold Linking.applyMarkers
  dsimp only
  split
  · next hother =>
    have hfold := (h.mono note.le_succ).foldl_applyMarker w.position markers fun _ => rfl
    exact hfold.pass hnote (by rw [hgoes, hother]; rfl)
  · next hother =>
    have hfold := h.foldl_applyMarker w.position markers fun htuplet =>
      absurd (Bool.or_eq_true_iff.mpr (.inl htuplet)) hother
    exact hfold.continueAll w.position hnote (by rw [hgoes, Bool.eq_false_iff.mpr hother]; rfl)

/-- Another note has been placed. -/
theorem concat (h : l.Fills settings placed placed.length placed.length)
    (more : WrittenNote × Bool) :
    l.Fills settings (placed ++ [more]) placed.length placed.length := by
  refine ⟨fun e he => ?_, fun r hr htuplet => ?_⟩
  · obtain ⟨first, hfirst, hparts⟩ := h.opened e he
    exact ⟨first, hfirst, by rw [hparts, membersBetween_append le_rfl]⟩
  · obtain ⟨first, last, hle, hlast, hparts⟩ := h.ended r hr htuplet
    exact ⟨first, last, hle, hlast, by rw [hparts, membersBetween_append hlast.le]⟩

end Fills

theorem Logs.fills [TimeValue τ] {l : Linking τ} {log : List LogEntry}
    (h : Logs settings {} log l) :
    l.Fills settings (log.filterMap LogEntry.placing?) (log.filterMap LogEntry.placing?).length
      (log.filterMap LogEntry.placing?).length := by
  induction h with
  | nil => exact ⟨nofun, nofun⟩
  | rejected _ r ih =>
      rw [List.filterMap_append, List.filterMap_cons_none rfl, List.filterMap_nil, List.append_nil]
      exact ih.unmarked (.of_relations rfl rfl)
  | @placed log s hlog w reading hread inChord ih =>
      have hlength : s.linking.notes.length = (log.filterMap LogEntry.placing?).length := by
        simpa using congrArg List.length hlog.map_inChord
      have hbefore := s.unmarked_beforeMarkers settings reading w.position inChord
      rw [List.filterMap_append,
        show [LogEntry.placed w inChord].filterMap LogEntry.placing? = [(w, inChord)] from rfl,
        List.length_append, List.length_singleton, Passage.linking_placeNote, hlength]
      refine ((ih.concat (w, inChord)).unmarked hbefore).applyMarkers ?_
        (NoteReading.addresses_of_read hread)
      rw [List.getElem?_append_right le_rfl, Nat.sub_self]
      rfl

end Linking

/-! ## Scores -/

/-- The parts of a tuplet are its first note, all notes behind it that go on with every open tuplet,
and its last note. `placed` are the notes as they are written; it also says which of them follow
another one of their chord. -/
structure Score.HasMembers {τ : Type} (settings : Settings) (score : Score τ)
    (placed : List (WrittenNote × Bool)) : Prop where
  notes : List.Forall₂ (NoteRest.IsOf settings) score.notes (placed.map Prod.fst)
  inChord : score.notes.map NoteRest.inChord = placed.map Prod.snd
  parts : ∀ r ∈ score.relations, r.kind = .tuplet → ∃ first last, first ≤ last ∧
    last < placed.length ∧ r.parts = first :: membersBetween settings placed first last ++ [last]

/-- The notes inside a tuplet that are parts of it. -/
theorem Score.HasMembers.mem_parts_iff {τ : Type} {settings : Settings} {score : Score τ}
    {placed : List (WrittenNote × Bool)} (h : score.HasMembers settings placed) {r : Relation}
    (hr : r ∈ score.relations) (htuplet : r.kind = .tuplet) {first last note : Nat}
    (hfirst : r.parts.head? = some first) (hlast : r.parts.getLast? = some last)
    (hbehind : first < note) (hbefore : note < last) :
    note ∈ r.parts ↔ ∃ p ∈ placed[note]?, p.1.marksTuplet settings = false ∧ p.2 = false := by
  obtain ⟨first', last', -, -, hparts⟩ := h.parts r hr htuplet
  rw [hparts, List.getLast?_concat] at hlast
  rw [hparts] at hfirst ⊢
  obtain rfl : first' = first := Option.some.inj hfirst
  obtain rfl : last' = last := Option.some.inj hlast
  simp [mem_membersBetween, hbehind, hbefore, hbehind.ne', hbefore.ne]

/-- A note between the first and the last note of a tuplet is a part of it if it has no marker for
tuplets and does not follow another note of its chord, and otherwise it is not, whatever other
tuplets start or end there. -/
theorem hasMembers_of_compile {τ : Type} [TimeValue τ] {settings : Settings} {source : String}
    {analysis : Analysis τ} (h : compile settings source = .ok analysis) :
    ∃ tree, parse source = .ok tree ∧
      List.Forall₂ (fun (score : Score τ) element =>
        ∃ placed : List (WrittenNote × Bool), (placed.map Prod.fst).Sublist element.writtenNotes ∧
          score.HasMembers settings placed) analysis.document.scores tree.scoreElements := by
  obtain ⟨tree, htree, hanalyse⟩ := analyse_of_compile h
  refine ⟨tree, htree, forall₂_scores_of_analyse hanalyse fun titled _ => ?_⟩
  obtain ⟨log, hlog, hcovers⟩ := ScoreState.reads_children (τ := τ) settings titled.1.children
  have hplaced := LogEntry.map_fst_placing log
  refine ⟨log.filterMap LogEntry.placing?, hplaced ▸ hcovers.placed, ?_⟩
  exact ⟨hplaced ▸ hlog.forall₂_notes, hlog.map_inChord, hlog.fills.ended⟩

/-- Overlapping tuplets and a chord. Of the chord only the first note is a member, of both. -/
theorem hasMembers_overlappingTuplets :
    let source := "(score (instrument (musicData (n c4 q (t 1 + 3 2)) (n d4 q (t 2 + 5 4)) " ++
      "(chord (n e4 q) (n g4 q)) (n f4 q (t 1 -)) (r q) (n g4 q (t 2 -)))))"
    ∃ analysis : Analysis Rat, compile {} source = .ok analysis ∧
      (analysis.document.scores.map fun score => score.relations.map Relation.parts) =
        [[[0, 2, 4], [1, 2, 5, 6]]] ∧
      ∃ tree, parse source = .ok tree ∧
        List.Forall₂ (fun (score : Score Rat) element =>
          ∃ placed : List (WrittenNote × Bool), (placed.map Prod.fst).Sublist element.writtenNotes ∧
            score.HasMembers {} placed) analysis.document.scores tree.scoreElements := by
  intro source
  have ⟨analysis, h, hparts⟩ : ∃ analysis : Analysis Rat, compile {} source = .ok analysis ∧
      (analysis.document.scores.map fun score => score.relations.map Relation.parts) =
        [[[0, 2, 4], [1, 2, 5, 6]]] :=
    exists_compile_of_characters String.ofList_append.symm (by decide +kernel)
  exact ⟨analysis, h, hparts, hasMembers_of_compile h⟩

/-- The second and the fourth note of the outer tuplet are the ends of an inner one, and are not
among its parts. No chord is around. -/
theorem not_mem_parts_nestedTuplet :
    let source := "(score (vers 2.0) (instrument (musicData (n c4 q (t 1 + 3 2))" ++
      "(n d4 q (t 2 + 3 2))(n e4 q)(n f4 q (t 2 -))(n g4 q (t 1 -)))))"
    ∃ analysis : Analysis Rat, compile {} source = .ok analysis ∧ analysis.diagnostics = [] ∧
      ∃ score ∈ analysis.document.scores, score.notes.map NoteRest.inChord = List.replicate 5 false ∧
        ∃ r ∈ score.relations, r.kind = .tuplet ∧ r.parts.head? = some 0 ∧
          r.parts.getLast? = some 4 ∧ 1 ∉ r.parts ∧ 3 ∉ r.parts := by
  intro source
  have ⟨analysis, h, hclean, hscores⟩ : ∃ analysis : Analysis Rat,
      compile {} source = .ok analysis ∧ analysis.diagnostics = [] ∧
        (analysis.document.scores.map fun score =>
          (score.notes.map NoteRest.inChord, score.relations)) =
        [(List.replicate 5 false,
          [⟨.tuplet, [1, 2, 3], .tuplet ⟨3, 2, true, true⟩⟩,
            ⟨.tuplet, [0, 2, 4], .tuplet ⟨3, 2, true, true⟩⟩])] :=
    exists_compile_of_characters String.ofList_append.symm (by decide +kernel)
  obtain ⟨score, hscore, hpair⟩ := List.map_eq_singleton_iff.mp hscores
  obtain ⟨hflags, hrelations⟩ := Prod.mk.inj hpair
  refine ⟨analysis, h, hclean, score, hscore ▸ List.mem_singleton_self _, hflags,
    ⟨.tuplet, [0, 2, 4], .tuplet ⟨3, 2, true, true⟩⟩, ?_, rfl, rfl, rfl, by decide, by decide⟩
  rw [hrelations]
  exact List.mem_cons_of_mem _ List.mem_cons_self

end ScorePlayback
