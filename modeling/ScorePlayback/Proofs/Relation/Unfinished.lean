import ScorePlayback.Proofs.Keyed
import ScorePlayback.Relation.LegacyBeam
import ScorePlayback.Relation.LegacyTie

/-! # Relations that wait for their last note

A note starts relations, goes on with some that are open, and closes some. Registries and legacy
marks agree in this, and none of them goes on with a tie: a tie is closed by its second note. -/

namespace ScorePlayback

/-! ## Unfinished relations -/

/-- The notes that a relation has so far; it waits for another one. -/
structure Unfinished where
  kind : RelationKind
  parts : List Nat

/-- After a note, relations are unfinished that have been so before, or start with the note, or go
on with it and are no ties. -/
def GoOn (note : Nat) (before after : List Unfinished) : Prop :=
  ∀ u ∈ after, u ∈ before ∨ u.parts = [note] ∨
    (u.kind ≠ .tie ∧ ∃ v ∈ before, v.kind = u.kind ∧ u.parts = v.parts ++ [note])

/-- A relation is one of those that are unfinished, and its last note. Its data are of its kind. -/
def EndsOne (note : Nat) (before : List Unfinished) (r : Relation) : Prop :=
  r.data.kind = r.kind ∧ ∃ u ∈ before, u.kind = r.kind ∧ r.parts = u.parts ++ [note]

theorem GoOn.of_subset {note : Nat} {before after : List Unfinished}
    (h : ∀ u ∈ after, u ∈ before) : GoOn note before after := fun u hu => .inl (h u hu)

theorem GoOn.refl (note : Nat) (us : List Unfinished) : GoOn note us us := .of_subset fun _ h => h

/-- Other unfinished relations around them do not matter. -/
theorem GoOn.around {note : Nat} {us us' : List Unfinished} (h : GoOn note us us')
    (before after : List Unfinished) :
    GoOn note (before ++ us ++ after) (before ++ us' ++ after) := by
  intro u hu
  simp only [List.mem_append] at hu ⊢
  rcases hu with (hu | hu) | hu
  · exact .inl (.inl (.inl hu))
  · rcases h u hu with hmem | hstart | ⟨hkind, v, hv, hparts⟩
    · exact .inl (.inl (.inr hmem))
    · exact .inr (.inl hstart)
    · exact .inr (.inr ⟨hkind, v, .inl (.inr hv), hparts⟩)
  · exact .inl (.inr hu)

theorem GoOn.left {note : Nat} {us us' vs : List Unfinished} (h : GoOn note us us') :
    GoOn note (us ++ vs) (us' ++ vs) := h.around [] vs

theorem GoOn.right {note : Nat} {us us' vs : List Unfinished} (h : GoOn note us us') :
    GoOn note (vs ++ us) (vs ++ us') := by
  simpa using h.around vs []

theorem EndsOne.mono {note : Nat} {us vs : List Unfinished} {r : Relation}
    (h : EndsOne note us r) (hsub : ∀ u ∈ us, u ∈ vs) : EndsOne note vs r := by
  obtain ⟨hdata, u, hu, hr⟩ := h
  exact ⟨hdata, u, hsub u hu, hr⟩

/-! ### Registries -/

namespace Registry

variable {π : Type}

def unfinished (kind : RelationKind) (r : Registry π) : List Unfinished :=
  r.pending.map fun e => ⟨kind, e.2.endpoints.map Endpoint.note⟩

theorem mem_unfinished_of_find? {kind : RelationKind} {r : Registry π} {key : Nat}
    {o : OpenRelation π} (h : Keyed.find? key r.pending = some o) :
    ⟨kind, o.endpoints.map Endpoint.note⟩ ∈ r.unfinished kind := by
  obtain ⟨k, hk⟩ := Keyed.exists_mem_of_find? h
  exact List.mem_map.mpr ⟨_, hk, rfl⟩

theorem goOn_insert {kind : RelationKind} {r : Registry π} {key note : Nat} {o : OpenRelation π}
    (h : o.endpoints.map Endpoint.note = [note] ∨ (kind ≠ .tie ∧ ∃ v ∈ r.unfinished kind,
      o.endpoints.map Endpoint.note = v.parts ++ [note])) :
    GoOn note (r.unfinished kind)
      ((⟨Keyed.insert key o r.pending⟩ : Registry π).unfinished kind) := by
  intro u hu
  obtain ⟨e, he, rfl⟩ := List.mem_map.mp hu
  rcases Keyed.mem_insert he with rfl | he
  · rcases h with h | ⟨hkind, v, hv, h⟩
    · exact .inr (.inl h)
    · refine .inr (.inr ⟨hkind, v, hv, ?_, h⟩)
      obtain ⟨_, -, rfl⟩ := List.mem_map.mp hv
      rfl
  · exact .inl (List.mem_map_of_mem he)

/-- What a marker does to the open relations of its kind. -/
theorem goOn_mark (rules : RelationRules π) {pitchOf : Nat → Option Pitch} {r : Registry π}
    {e : Endpoint π} {note : Nat} (hnote : e.note = note)
    (hrole : e.role = .continues → rules.kind ≠ .tie) :
    GoOn note (r.unfinished rules.kind) ((r.mark rules pitchOf e).state.unfinished rules.kind) := by
  subst hnote
  unfold mark
  split
  · exact goOn_insert (.inl rfl)
  · next hcontinues =>
    unfold markContinue
    split
    · next o ho =>
      refine goOn_insert (.inr ⟨hrole hcontinues, _, mem_unfinished_of_find? ho, ?_⟩)
      simp [OpenRelation.endpoints]
    · exact .refl _ _
  · unfold markEnd
    split
    · refine .of_subset fun u hu => ?_
      obtain ⟨entry, hentry, rfl⟩ := List.mem_map.mp hu
      exact List.mem_map_of_mem (List.mem_filter.mp hentry).1
    · exact .refl _ _

/-- A marker that closes a relation is on its last note. -/
theorem closed_of_mark {rules : RelationRules π} {pitchOf : Nat → Option Pitch} {r : Registry π}
    {e : Endpoint π} {c : ClosedRelation π} (h : (r.mark rules pitchOf e).closed = some c) :
    ∃ o : OpenRelation π, ⟨rules.kind, o.endpoints.map Endpoint.note⟩ ∈ r.unfinished rules.kind ∧
      c = closing rules o e := by
  unfold mark at h
  split at h
  · simp [markStart] at h
  · unfold markContinue at h
    split at h <;> simp at h
  · unfold markEnd at h
    split at h
    · next o ho =>
      exact ⟨o, mem_unfinished_of_find? ho, (Option.some.inj h).symm⟩
    · simp at h

theorem endsOne_mark (rules : RelationRules π) {pitchOf : Nat → Option Pitch} {r : Registry π}
    {e : Endpoint π} {note : Nat} (hnote : e.note = note)
    (hdata : ∀ start, (rules.data start).kind = rules.kind) {us : List Unfinished}
    (hus : ∀ u ∈ r.unfinished rules.kind, u ∈ us) :
    ∀ c ∈ (r.mark rules pitchOf e).closed, EndsOne note us c.relation := by
  subst hnote
  intro c hc
  obtain ⟨o, ho, rfl⟩ := closed_of_mark hc
  exact ⟨hdata o.start, _, hus _ ho, rfl, by simp [closing]⟩

theorem goOn_continueAll (rules : RelationRules π) (hkind : rules.kind ≠ .tie) (r : Registry π)
    (note : Nat) (position : Position) :
    GoOn note (r.unfinished rules.kind)
      ((r.continueAll rules note position).unfinished rules.kind) := by
  intro u hu
  obtain ⟨_, he, rfl⟩ := List.mem_map.mp hu
  obtain ⟨⟨key, o⟩, ho, rfl⟩ := List.mem_map.mp he
  refine .inr (.inr ⟨hkind, _, List.mem_map_of_mem ho, rfl, ?_⟩)
  simp [OpenRelation.endpoints]

end Registry

/-! ### Legacy marks -/

namespace LegacyTie

variable {τ : Type}

def unfinished (t : LegacyTie τ) : List Unfinished :=
  t.pending.toList.map fun tie => ⟨.tie, [tie.note]⟩

theorem goOn_offer [TimeValue τ] (t : LegacyTie τ) (notes : List (NoteRest τ)) (note : Nat)
    (time : τ) : GoOn note t.unfinished (t.offer notes note time).state.unfinished := by
  have hnone (us : List Unfinished) :
      GoOn note us (({} : LegacyTie τ).unfinished) := .of_subset (by simp [unfinished])
  unfold offer
  split
  · split
    · unfold join
      split
      · split <;> exact hnone _
      · exact hnone _
    · exact .refl _ _
  · exact .refl _ _

theorem endsOne_offer [TimeValue τ] {t : LegacyTie τ} {notes : List (NoteRest τ)} {note : Nat}
    {time : τ} {first second : Nat}
    (h : (t.offer notes note time).closed = some (first, second)) :
    EndsOne note t.unfinished ⟨.tie, [first, second], .tie⟩ := by
  unfold offer at h
  split at h
  · next tie candidate htie _ =>
    split at h
    · unfold join at h
      split at h
      · split at h
        · obtain ⟨rfl, rfl⟩ := Prod.mk.inj (Option.some.inj h)
          exact ⟨rfl, ⟨.tie, [tie.note]⟩, by simp [unfinished, htie], rfl, rfl⟩
        · simp at h
      · simp at h
    · simp at h
  · simp at h

theorem goOn_start (t : LegacyTie τ) (tie : PendingTie τ) :
    GoOn tie.note t.unfinished (t.start tie).state.unfinished := by
  intro u hu
  obtain rfl : u = ⟨.tie, [tie.note]⟩ := by simpa [unfinished, start] using hu
  exact .inr (.inl rfl)

end LegacyTie

namespace LegacyBeams

def unfinished (b : LegacyBeams) : List Unfinished := b.stack.map fun beam => ⟨.beam, beam.members⟩

theorem goOn_add (b : LegacyBeams) (note : Nat) :
    GoOn note b.unfinished (b.add note).unfinished := by
  intro u hu
  obtain ⟨_, hadded, rfl⟩ := List.mem_map.mp hu
  obtain ⟨beam, hbeam, rfl⟩ := List.mem_map.mp hadded
  have hkind : RelationKind.beam ≠ .tie := by decide
  exact .inr (.inr ⟨hkind, _, List.mem_map.mpr ⟨beam, hbeam, rfl⟩, rfl, rfl⟩)

theorem goOn_enter (b : LegacyBeams) (note : Nat) (position : Position) :
    GoOn note b.unfinished (b.enter note position).unfinished := by
  intro u hu
  rcases List.mem_cons.mp hu with rfl | hu
  · exact .inr (.inl rfl)
  · exact b.goOn_add note u hu

/-- A beam that closes is the innermost one, with one more note. -/
theorem exists_of_closed_leave {b : LegacyBeams} {note : Nat} {position : Position}
    {members : List Nat} (h : (b.leave note position).closed = some members) :
    ∃ innermost ∈ b.stack, members = (innermost.add note).members := by
  unfold leave at h
  split at h
  · cases h
  · next innermost outer hstack =>
    obtain ⟨-, hmembers⟩ := (Option.ite_none_left_eq_some ..).mp h
    exact ⟨innermost, by simp [hstack], (Option.some.inj hmembers).symm⟩

theorem leave_cases (b : LegacyBeams) (note : Nat) (position : Position) :
    GoOn note b.unfinished (b.leave note position).state.unfinished ∧
      ∀ members ∈ (b.leave note position).closed,
        EndsOne note b.unfinished ⟨.beam, members, .beam⟩ := by
  refine ⟨?_, fun members hmembers => ?_⟩
  · unfold leave
    split
    · exact .refl _ _
    · next innermost outer hstack =>
      intro u hu
      have houter : ∀ v ∈ (LegacyBeams.mk outer).unfinished, v ∈ b.unfinished := by
        intro v hv
        rw [unfinished, hstack]
        exact List.mem_cons_of_mem _ hv
      rcases goOn_add ⟨outer⟩ note u hu with h | h | ⟨hkind, v, hv, h⟩
      · exact .inl (houter u h)
      · exact .inr (.inl h)
      · exact .inr (.inr ⟨hkind, v, houter v hv, h⟩)
  · obtain ⟨innermost, hinnermost, rfl⟩ := exists_of_closed_leave hmembers
    exact ⟨rfl, ⟨.beam, innermost.members⟩, List.mem_map_of_mem hinnermost, rfl, rfl⟩

end LegacyBeams

end ScorePlayback
