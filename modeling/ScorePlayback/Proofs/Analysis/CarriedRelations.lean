import ScorePlayback.Proofs.Analysis.NoteNumbers

/-! # Relations that are open between two instruments

What is open when an instrument begins stays open. So a relation may join notes of two instruments,
but only one that has already started with notes of an earlier one. -/

namespace ScorePlayback

variable {τ : Type}

namespace Linking

/-- A relation goes on with what is open. -/
def Carries (l : Linking τ) (kind : RelationKind) (parts : List Nat) : Prop :=
  ∃ u ∈ l.unfinished, u.kind = kind ∧ u.parts <+: parts

/-- A relation joins either notes that have been read or later notes, or it goes on with what is
open. -/
def Separates (l : Linking τ) (kind : RelationKind) (parts : List Nat) : Prop :=
  (∀ part ∈ parts, part < l.notes.length) ∨ (∀ part ∈ parts, l.notes.length ≤ part) ∨
    l.Carries kind parts

/-- What is open behind a point has started behind it, or goes on with what was open there. -/
def Leaves (l : Linking τ) (kind : RelationKind) (parts : List Nat) : Prop :=
  (∀ part ∈ parts, l.notes.length ≤ part) ∨ l.Carries kind parts

theorem partsLaw_separates (start : Linking τ) {note : Nat} (hnote : start.notes.length ≤ note) :
    PartsLaw note start.Leaves start.Separates := by
  have hlater {kind : RelationKind} {parts : List Nat} (h : start.Leaves kind parts) :
      start.Leaves kind (parts ++ [note]) := by
    rcases h with h | ⟨u, hu, hkind, hparts⟩
    · exact .inl (List.forall_mem_append.mpr ⟨h, List.forall_mem_singleton.mpr hnote⟩)
    · exact .inr ⟨u, hu, hkind, hparts.trans (List.prefix_append _ _)⟩
  exact ⟨fun _ => .inl (List.forall_mem_singleton.mpr hnote), fun _ => hlater,
    fun h => .inr (hlater h)⟩

end Linking

/-- A relation joins notes before a number. -/
def PartsBelow (bound : Nat) (_ : RelationKind) (parts : List Nat) : Prop :=
  ∀ part ∈ parts, part < bound

theorem partsLaw_below (note : Nat) :
    Linking.PartsLaw note (PartsBelow (note + 1)) (PartsBelow (note + 1)) := by
  have hnote {kind : RelationKind} {parts : List Nat} (h : PartsBelow (note + 1) kind parts) :
      PartsBelow (note + 1) kind (parts ++ [note]) :=
    List.forall_mem_append.mpr ⟨h, List.forall_mem_singleton.mpr (Nat.lt_succ_self note)⟩
  exact ⟨fun _ => List.forall_mem_singleton.mpr (Nat.lt_succ_self note), fun _ => hnote, hnote⟩

variable [TimeValue τ]

/-- Relations join notes that have been read. -/
theorem isScoreLaw_below (settings : Settings) :
    IsScoreLaw settings fun _ (l : Linking τ) _ =>
      l.ObeysParts (PartsBelow l.notes.length) (PartsBelow l.notes.length) where
  initial := ⟨nofun, nofun⟩
  report _ h := ⟨h.unfinished, h.relations⟩
  object _ h := h
  note := fun {_ s reading} position inChord hreading h => by
    have hsteps := s.steps_placeNote settings hreading position inChord
    have hadd : (s.linking.addNote (s.realize reading.spec position inChord)).ObeysParts
        (PartsBelow (s.linking.notes.length + 1)) (PartsBelow (s.linking.notes.length + 1)) :=
      ⟨fun u hu part hpart => Nat.lt_succ_of_lt (h.unfinished u hu part hpart),
        fun r hr part hpart => Nat.lt_succ_of_lt (h.relations r hr part hpart)⟩
    rw [hsteps.length, Linking.addNote, List.length_append, List.length_singleton]
    exact hadd.steps (partsLaw_below _) hsteps
  complete h := h

/-- Behind a point relations are separated there. -/
theorem isReadingLaw_separates (settings : Settings) (start : Linking τ) :
    IsReadingLaw settings fun _ (l : Linking τ) _ =>
      start.notes.length ≤ l.notes.length ∧ l.ObeysParts start.Leaves start.Separates where
  report _ h := ⟨h.1, h.2.unfinished, h.2.relations⟩
  object _ h := h
  note := fun {_ s reading} position inChord hreading h => by
    have hsteps := s.steps_placeNote settings hreading position inChord
    have hadd : (s.linking.addNote (s.realize reading.spec position inChord)).ObeysParts
        start.Leaves start.Separates := ⟨h.2.unfinished, h.2.relations⟩
    refine ⟨?_, hadd.steps (start.partsLaw_separates h.1) hsteps⟩
    rw [hsteps.length, Linking.addNote, List.length_append]
    exact Nat.le_add_right_of_le h.1
  complete h := h

/-- Wherever a score is cut, its relations join notes on one side, or were open at the cut. -/
theorem separates_of_mem_relations (settings : Settings) (before after : List Node) :
    let start : ScoreState τ := before.foldl (ScoreState.read settings) {}
    ∀ r ∈ (after.foldl (ScoreState.read settings) start).linking.relations,
      start.linking.Separates r.kind r.parts := by
  intro start r hr
  have hempty : ({} : Linking τ).ObeysParts (PartsBelow 0) (PartsBelow 0) := ⟨nofun, nofun⟩
  have hbelow : start.linking.ObeysParts (PartsBelow start.linking.notes.length)
      (PartsBelow start.linking.notes.length) :=
    (isScoreLaw_below settings).foldl_readScore (s := {}) hempty before
  have hstart : IsReadingLaw.Obeyed (fun _ (l : Linking τ) _ =>
      start.linking.notes.length ≤ l.notes.length ∧
        l.ObeysParts start.linking.Leaves start.linking.Separates) start := by
    refine ⟨Nat.le_refl _, fun u hu => .inr ⟨u, hu, rfl, List.prefix_rfl⟩, fun r hr => .inl ?_⟩
    exact hbelow.relations r hr
  exact ((isReadingLaw_separates settings start.linking).foldl_readScore hstart after).2.relations
    r hr

end ScorePlayback
