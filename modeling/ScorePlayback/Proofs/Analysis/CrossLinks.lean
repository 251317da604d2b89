import Mathlib.Data.List.Induction
import ScorePlayback.Proofs.Analysis.CarriedRelations
import ScorePlayback.Time.Exact

/-! # Notes and relations link to each other

A relation has the numbers of its notes, and a note has the numbers of its relations. -/

namespace ScorePlayback

variable {τ : Type}

/-- The data that the relations of a kind have. -/
inductive RelationData.IsFor : RelationKind → RelationData → Prop where
  | tie : IsFor .tie .tie
  | slur : IsFor .slur .slur
  | beam : IsFor .beam .beam
  | tuplet (spec : TupletSpec) : IsFor .tuplet (.tuplet spec)

/-- A score in which each relation joins notes that exist, from the first to the last one, and each
note has the numbers of its relations, and of no others. -/
structure Score.IsLinked (score : Score τ) : Prop where
  parts_lt : ∀ r ∈ score.relations, ∀ part ∈ r.parts, part < score.notes.length
  two_le_length : ∀ r ∈ score.relations, 2 ≤ r.parts.length
  parts_ascend : ∀ r ∈ score.relations, r.parts.Pairwise (· ≤ ·)
  data_isFor : ∀ r ∈ score.relations, r.data.IsFor r.kind
  numbers_ascend : ∀ n ∈ score.notes, n.relations.Pairwise (· ≤ ·)
  /-- A number that no relation has is not among them. -/
  count_number : ∀ (note : Nat) (n : NoteRest τ), score.notes[note]? = some n →
    ∀ number, n.relations.count number =
      score.relations[number]?.elim 0 fun r => r.parts.count note

theorem RelationData.isFor_kind (data : RelationData) : data.IsFor data.kind := by
  cases data with
  | tie => exact .tie
  | slur => exact .slur
  | beam => exact .beam
  | tuplet spec => exact .tuplet spec

/-! ## The relations of a note -/

/-- The numbers of the relations with a note, one for each time that it is a part. -/
def numbersAt (relations : List Relation) (note : Nat) : List Nat :=
  relations.zipIdx.flatMap fun (r, number) => List.replicate (r.parts.count note) number

theorem numbersAt_concat (relations : List Relation) (r : Relation) (note : Nat) :
    numbersAt (relations ++ [r]) note =
      numbersAt relations note ++ List.replicate (r.parts.count note) relations.length := by
  simp [numbersAt, List.zipIdx_append]

theorem numbersAt_eq_nil {relations : List Relation} {note : Nat}
    (h : ∀ r ∈ relations, note ∉ r.parts) : numbersAt relations note = [] := by
  induction relations using List.reverseRecOn with
  | nil => rfl
  | append_singleton relations r ih =>
      obtain ⟨hrelations, hr⟩ := List.forall_mem_append.mp h
      have hcount : r.parts.count note = 0 := List.count_eq_zero.mpr (hr r (by simp))
      rw [numbersAt_concat, ih hrelations, hcount]
      rfl

theorem count_numbersAt (relations : List Relation) (note number : Nat) :
    (numbersAt relations note).count number =
      relations[number]?.elim 0 fun r => r.parts.count note := by
  induction relations using List.reverseRecOn with
  | nil => rfl
  | append_singleton relations r ih =>
      rw [numbersAt_concat, List.count_append, ih, List.count_replicate]
      rcases Nat.lt_trichotomy number relations.length with hlt | rfl | hgt
      · simp [List.getElem?_append_left hlt, hlt.ne']
      · simp
      · have hnone : (relations ++ [r])[number]? = none :=
          List.getElem?_eq_none (by rw [List.length_append]; exact hgt)
        simp [hnone, List.getElem?_eq_none hgt.le, hgt.ne]

theorem lt_length_of_mem_numbersAt {relations : List Relation} {note number : Nat}
    (h : number ∈ numbersAt relations note) : number < relations.length := by
  by_contra hge
  have hcount := count_numbersAt relations note number
  rw [List.getElem?_eq_none (Nat.le_of_not_lt hge)] at hcount
  exact List.count_eq_zero.mp hcount h

theorem pairwise_numbersAt (relations : List Relation) (note : Nat) :
    (numbersAt relations note).Pairwise (· ≤ ·) := by
  induction relations using List.reverseRecOn with
  | nil => exact .nil
  | append_singleton relations r ih =>
      rw [numbersAt_concat, List.pairwise_append]
      refine ⟨ih, List.pairwise_replicate.mpr (.inr (Nat.le_refl _)), ?_⟩
      intro number hnumber last hlast
      rw [List.eq_of_mem_replicate hlast]
      exact (lt_length_of_mem_numbersAt hnumber).le

/-! ## Links that are consistent -/

namespace Linking

/-- The notes have the numbers of their relations. -/
def NumbersRelations (l : Linking τ) : Prop :=
  ∀ note n, l.notes[note]? = some n → n.relations = numbersAt l.relations note

theorem getElem?_foldl_link (number : Nat) (parts : List Nat) (notes : List (NoteRest τ))
    (note : Nat) :
    (parts.foldl (fun notes part => notes.modify part (NoteRest.link number)) notes)[note]? =
      notes[note]?.map fun n =>
        { n with relations := n.relations ++ List.replicate (parts.count note) number } := by
  induction parts generalizing notes with
  | nil => simp
  | cons part parts ih =>
      rw [List.foldl_cons, ih, List.getElem?_modify]
      by_cases h : part = note
      · subst h
        cases notes[part]? with
        | none => rfl
        | some n => simp [NoteRest.link, List.replicate_succ]
      · cases notes[note]? with
        | none => simp
        | some n => simp [h]

namespace NumbersRelations

variable {l l' : Linking τ} {note : Nat}

theorem goesOn (hl : l.NumbersRelations) (h : GoesOn note l l') : l'.NumbersRelations := by
  intro part n hn
  have hsame : (l'.notes.map NoteRest.unbeamed)[part]? = some n.unbeamed := by simp [hn]
  rw [h.notes, List.getElem?_map] at hsame
  obtain ⟨n', hn', hbeam⟩ := Option.map_eq_some_iff.mp hsame
  have hrelations : n'.unbeamed.relations = n.unbeamed.relations := by rw [hbeam]
  rw [h.relations]
  exact hrelations.symm.trans (hl part n' hn')

theorem addRelation (hl : l.NumbersRelations) (r : Relation) :
    (l.addRelation r).NumbersRelations := by
  intro part n hn
  rw [notes_addRelation, getElem?_foldl_link] at hn
  obtain ⟨n', hn', rfl⟩ := Option.map_eq_some_iff.mp hn
  show n'.relations ++ _ = numbersAt (l.relations ++ [r]) part
  rw [hl part n' hn', numbersAt_concat]

theorem steps (hl : l.NumbersRelations) (h : Steps note l l') : l'.NumbersRelations := by
  induction h with
  | refl => exact hl
  | tail _ hstep ih =>
      rcases hstep with h | ⟨r, -, between, h, rfl⟩
      · exact ih.goesOn h
      · exact (ih.goesOn h).addRelation r

/-- No relation has a note that is only added now. -/
theorem addNote (hl : l.NumbersRelations)
    (hbelow : ∀ r ∈ l.relations, ∀ part ∈ r.parts, part < l.notes.length) {n : NoteRest τ}
    (hn : n.relations = []) : (l.addNote n).NumbersRelations := by
  intro part m hm
  show m.relations = numbersAt l.relations part
  rw [Linking.addNote, List.getElem?_append] at hm
  split at hm
  · exact hl part m hm
  · next hpart =>
    have hnone : ∀ r ∈ l.relations, part ∉ r.parts :=
      fun r hr hmem => hpart (hbelow r hr part hmem)
    obtain rfl : n = m := List.mem_singleton.mp (List.mem_of_getElem? hm) |>.symm
    rw [hn, numbersAt_eq_nil hnone]

end NumbersRelations

end Linking

/-! ## The data of a relation -/

/-- Each relation has data of its own kind. -/
def Linking.HasDataOfKinds (l : Linking τ) : Prop := ∀ r ∈ l.relations, r.data.kind = r.kind

theorem Linking.HasDataOfKinds.steps {l l' : Linking τ} {note : Nat} (hl : l.HasDataOfKinds)
    (h : Steps note l l') : l'.HasDataOfKinds := by
  induction h with
  | refl => exact hl
  | tail _ hstep ih =>
      rcases hstep with h | ⟨r, ⟨hdata, -⟩, between, h, rfl⟩
      · exact fun r hr => ih r (h.relations ▸ hr)
      · refine List.forall_mem_append.mpr ⟨fun r hr => ih r (h.relations ▸ hr), ?_⟩
        exact List.forall_mem_singleton.mpr hdata

/-! ## The parts of a relation -/

/-- The notes before a number that a relation has so far, from the first to the last one. -/
structure PartsAscend (bound : Nat) (parts : List Nat) : Prop where
  below : ∀ part ∈ parts, part < bound
  ascend : parts.Pairwise (· ≤ ·)

theorem PartsAscend.mono {bound bound' : Nat} {parts : List Nat} (h : PartsAscend bound parts)
    (hle : bound ≤ bound') : PartsAscend bound' parts :=
  ⟨fun part hpart => (h.below part hpart).trans_le hle, h.ascend⟩

theorem PartsAscend.concat {note : Nat} {parts : List Nat} (h : PartsAscend (note + 1) parts) :
    PartsAscend (note + 1) (parts ++ [note]) := by
  refine ⟨List.forall_mem_append.mpr ⟨h.below, by simp⟩, List.pairwise_append.mpr ?_⟩
  refine ⟨h.ascend, List.pairwise_singleton _ _, fun part hpart last hlast => ?_⟩
  rw [List.mem_singleton.mp hlast]
  exact Nat.le_of_lt_succ (h.below part hpart)

/-- A relation waits with one or more notes, and has two or more at the end. -/
def PartsAscendFrom (least bound : Nat) (_ : RelationKind) (parts : List Nat) : Prop :=
  least ≤ parts.length ∧ PartsAscend bound parts

theorem partsLaw_ascend (note : Nat) :
    Linking.PartsLaw note (PartsAscendFrom 1 (note + 1)) (PartsAscendFrom 2 (note + 1)) := by
  have hlength {least : Nat} {parts : List Nat} (h : least ≤ parts.length) :
      least + 1 ≤ (parts ++ [note]).length := by simpa using h
  refine ⟨fun _ => ⟨Nat.le_refl 1, by simp, List.pairwise_singleton _ _⟩, ?_, ?_⟩
  · exact fun _ h => ⟨Nat.le_of_succ_le (hlength h.1), h.2.concat⟩
  · exact fun h => ⟨hlength h.1, h.2.concat⟩

/-! ## Scores -/

section

variable [TimeValue τ]

/-- Links that are consistent so far. -/
structure Linking.IsLinked (l : Linking τ) : Prop where
  parts : l.ObeysParts (PartsAscendFrom 1 l.notes.length) (PartsAscendFrom 2 l.notes.length)
  data : l.HasDataOfKinds
  numbers : l.NumbersRelations

omit [TimeValue τ] in
theorem Linking.isLinked_empty : ({} : Linking τ).IsLinked :=
  ⟨⟨nofun, nofun⟩, nofun, fun note n hn => by simp at hn⟩

omit [TimeValue τ] in
theorem Linking.IsLinked.report {l : Linking τ} (h : l.IsLinked) (found : List Diagnostic) :
    (l.report found).IsLinked :=
  ⟨⟨h.parts.unfinished, h.parts.relations⟩, h.data, h.numbers⟩

theorem Passage.isLinked_placeNote (settings : Settings) {s : Passage τ} (h : s.linking.IsLinked)
    {reading : NoteReading} (hreading : reading.IsWritten) (position : Position) (inChord : Bool) :
    (s.placeNote settings reading position inChord).linking.IsLinked := by
  have hsteps := s.steps_placeNote settings hreading position inChord
  -- before its marks are read the note is part of nothing, and the bound has already moved
  have hparts : (s.linking.addNote (s.realize reading.spec position inChord)).ObeysParts
      (PartsAscendFrom 1 (s.linking.notes.length + 1))
      (PartsAscendFrom 2 (s.linking.notes.length + 1)) :=
    ⟨fun u hu => (h.parts.unfinished u hu).imp_right (·.mono (Nat.le_succ _)),
      fun r hr => (h.parts.relations r hr).imp_right (·.mono (Nat.le_succ _))⟩
  have hnumbers := h.numbers.addNote (fun r hr => (h.parts.relations r hr).2.below)
    (n := s.realize reading.spec position inChord) rfl
  have hdata : (s.linking.addNote (s.realize reading.spec position inChord)).HasDataOfKinds :=
    h.data
  refine ⟨?_, hdata.steps hsteps, hnumbers.steps hsteps⟩
  rw [hsteps.length, Linking.addNote, List.length_append, List.length_singleton]
  exact hparts.steps (partsLaw_ascend _) hsteps

theorem isScoreLaw_isLinked (settings : Settings) :
    IsScoreLaw settings fun _ (l : Linking τ) _ => l.IsLinked where
  initial := Linking.isLinked_empty
  report found h := h.report found
  object _ h := h
  note := fun position inChord hreading h =>
    Passage.isLinked_placeNote settings h hreading position inChord
  complete h := h

/-- The notes and relations of every analysed score link to each other. -/
theorem isLinked_of_analyse {settings : Settings} {tree : Node} {analysis : Analysis τ}
    (h : analyse settings tree = .ok analysis) {score : Score τ}
    (hs : score ∈ analysis.document.scores) : score.IsLinked := by
  obtain ⟨l, hl, hnotes, hrelations⟩ :=
    (isScoreLaw_isLinked settings).exists_linking_of_analyse h hs
  have hparts : ∀ r ∈ score.relations, PartsAscendFrom 2 score.notes.length r.kind r.parts := by
    rw [hnotes, hrelations]
    exact hl.parts.relations
  have hdata : ∀ r ∈ score.relations, r.data.kind = r.kind := hrelations ▸ hl.data
  have hnumbers {note : Nat} {n : NoteRest τ} (hn : score.notes[note]? = some n) :
      n.relations = numbersAt score.relations note := by
    rw [hrelations]
    exact hl.numbers note n (hnotes ▸ hn)
  refine ⟨fun r hr => (hparts r hr).2.below, fun r hr => (hparts r hr).1,
    fun r hr => (hparts r hr).2.ascend, fun r hr => hdata r hr ▸ r.data.isFor_kind, fun n hn => ?_,
    fun note n hn number => ?_⟩
  · obtain ⟨note, hnote⟩ := List.getElem?_of_mem hn
    rw [hnumbers hnote]
    exact pairwise_numbersAt _ _
  · rw [hnumbers hn, count_numbersAt]

end

/-- A tie inside a slur. The first note is marked twice for the slur. -/
def tieInSlur : Node :=
  let here : Position := ⟨1, 1⟩
  let word (text : String) : Node := .atom .label text here
  let mark (name : ElementName) (role : String) : Node := .element name [word role] here
  let note (marks : List Node) : Node := .element .note ([word "c4", word "q"] ++ marks) here
  .element .score [.element .instrument [.element .music
    [note [mark .slur "start", mark .slur "continue"], note [mark .tie "start"],
      note [mark .tie "stop", mark .slur "stop"]] here] here] here

theorem isLinked_tieInSlur :
    ∃ analysis : Analysis Rat, analyse {} tieInSlur = .ok analysis ∧
      ∃ score ∈ analysis.document.scores,
        score.relations = [⟨.tie, [1, 2], .tie⟩, ⟨.slur, [0, 0, 2], .slur⟩] ∧
        score.notes.map NoteRest.relations = [[1, 1], [0], [0, 1]] ∧ score.IsLinked := by
  have h : (analyse {} tieInSlur : Except CompileError (Analysis Rat)) = .ok _ := rfl
  refine ⟨_, h, _, List.mem_singleton.mpr rfl, ?_, ?_, ?_⟩
  · decide +kernel
  · decide +kernel
  · exact isLinked_of_analyse h (List.mem_singleton.mpr rfl)

end ScorePlayback
