import ScorePlayback.Proofs.Analysis.ScoreLaws

/-! # The numbers of notes, and the two notes of a tie

The notes of an analysed score are numbered in the order of its timelines, one instrument after the
other. A tie joins two notes, since nothing but its second note can go on with it. -/

namespace ScorePlayback

variable {τ : Type}

/-! ## Ties have two notes -/

section

variable [TimeValue τ]

/-- All ties have two notes, and those that wait have one. -/
abbrev Linking.PairsTies (l : Linking τ) : Prop :=
  l.ObeysParts (fun kind parts => kind = .tie → ∃ a, parts = [a])
    fun kind parts => kind = .tie → ∃ a b, parts = [a, b]

theorem isScoreLaw_pairsTies (settings : Settings) :
    IsScoreLaw settings fun _ (l : Linking τ) _ => l.PairsTies where
  initial := ⟨nofun, nofun⟩
  report _ h := ⟨h.unfinished, h.relations⟩
  object _ h := h
  note := fun {_ s reading} position inChord hreading h => by
    have hadd : (s.linking.addNote (s.realize reading.spec position inChord)).PairsTies :=
      ⟨h.unfinished, h.relations⟩
    refine hadd.steps ⟨fun _ _ => ⟨_, rfl⟩, fun hkind _ htie => absurd htie hkind, ?_⟩
      (s.steps_placeNote settings hreading position inChord)
    intro kind parts hwaiting htie
    obtain ⟨a, rfl⟩ := hwaiting htie
    exact ⟨a, _, rfl⟩
  complete h := h

theorem exists_parts_of_tie {settings : Settings} {tree : Node} {analysis : Analysis τ}
    (h : analyse settings tree = .ok analysis) {score : Score τ}
    (hs : score ∈ analysis.document.scores) {r : Relation} (hr : r ∈ score.relations)
    (htie : r.kind = .tie) : ∃ a b, r.parts = [a, b] := by
  obtain ⟨l, hl, -, hrelations⟩ := (isScoreLaw_pairsTies settings).exists_linking_of_analyse h hs
  exact hl.relations r (hrelations ▸ hr) htie

end

/-! ## Notes are numbered through -/

/-- The number of a note or rest. -/
def StaffSymbol.note? : StaffSymbol → Option Nat
  | .noteRest note => some note
  | _ => none

theorem StaffSymbol.note?_eq_some_iff {symbol : StaffSymbol} {note : Nat} :
    symbol.note? = some note ↔ symbol = .noteRest note := by
  cases symbol <;> simp [note?]

theorem StaffSymbol.note?_eq_none {symbol : StaffSymbol} (h : ∀ note, symbol ≠ .noteRest note) :
    symbol.note? = none :=
  Option.eq_none_iff_forall_ne_some.mpr fun note hnote => h note (note?_eq_some_iff.mp hnote)

/-- The numbers of the notes on the timelines, one instrument after the other. -/
def Score.noteNumbers (score : Score τ) : List Nat :=
  score.instruments.flatMap fun i => i.timeline.filterMap fun object => object.symbol.note?

variable [TimeValue τ]

theorem isScoreLaw_numbered (settings : Settings) :
    IsScoreLaw settings fun timelines (l : Linking τ) timeline =>
      (timelines.flatten ++ timeline).filterMap (fun object => object.symbol.note?) =
        List.range l.notes.length where
  initial := rfl
  report _ h := h
  object := fun {_ _ _ object} hsymbol h => by
    have hnone : [object].filterMap (fun object => object.symbol.note?) = [] :=
      List.filterMap_eq_nil_iff.mpr
        (List.forall_mem_singleton.mpr (StaffSymbol.note?_eq_none hsymbol))
    rw [← List.append_assoc, List.filterMap_append, h, hnone, List.append_nil]
  note := fun {_ s reading} position inChord hreading h => by
    have hlength := (s.steps_placeNote settings hreading position inChord).length
    rw [Linking.addNote, List.length_append, List.length_singleton] at hlength
    rw [← List.append_assoc, List.filterMap_append, h, hlength, List.range_succ]
    rfl
  complete h := by
    rwa [List.flatten_append, List.flatten_singleton, List.append_nil]

theorem noteNumbers_of_analyse {settings : Settings} {tree : Node} {analysis : Analysis τ}
    (h : analyse settings tree = .ok analysis) {score : Score τ}
    (hs : score ∈ analysis.document.scores) :
    score.noteNumbers = List.range score.notes.length := by
  obtain ⟨l, hl, hnotes, -⟩ := (isScoreLaw_numbered settings).exists_linking_of_analyse h hs
  rw [List.append_nil, List.filterMap_flatten, List.map_map] at hl
  rw [hnotes, ← hl, Score.noteNumbers, List.flatMap_def]
  rfl

end ScorePlayback
