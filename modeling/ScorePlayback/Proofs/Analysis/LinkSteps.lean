import Mathlib.Logic.Relation
import ScorePlayback.Analysis.Linking
import ScorePlayback.Proofs.Relation.Unfinished

/-! # What a note does to the links of a score

Whatever a note says, its marks do one of two things to the relations of a score: they start some
or go on with them, or they close one, which then is the last of all and is noted on its parts. Laws
of relations are laws of these steps. -/

namespace ScorePlayback

namespace NoteRest

variable {τ : Type}

def unbeamed (n : NoteRest τ) : NoteRest τ := { n with beam := [] }

/-- A note as a part of one more relation. -/
def link (number : Nat) (n : NoteRest τ) : NoteRest τ :=
  { n with relations := n.relations ++ [number] }

/-- What is read off a note keeps its value when the note is linked to others. -/
structure Keeps {α : Type} (f : NoteRest τ → α) : Prop where
  unbeamed (n : NoteRest τ) : f n.unbeamed = f n
  link (number : Nat) (n : NoteRest τ) : f (n.link number) = f n

theorem keeps_pitch : Keeps (pitch : NoteRest τ → Option Pitch) := ⟨fun _ => rfl, fun _ _ => rfl⟩

theorem keeps_inChord : Keeps (inChord : NoteRest τ → Bool) := ⟨fun _ => rfl, fun _ _ => rfl⟩

end NoteRest

/-- The numbers of a tuplet are positive. -/
def TupletSpec.IsProper (spec : TupletSpec) : Prop := 1 ≤ spec.actual ∧ 1 ≤ spec.normal

/-- Of ties only the first and the last note are marked. -/
def Marker.IsWritten : Marker → Prop
  | .tie _ role => role ≠ .continues
  | .tupletStart _ spec => spec.IsProper
  | _ => True

namespace Linking

variable {τ : Type} {note : Nat}

def unfinished (l : Linking τ) : List Unfinished :=
  l.ties.unfinished .tie ++ l.slurs.unfinished .slur ++ l.beams.unfinished .beam ++
    l.tuplets.unfinished .tuplet ++ l.legacyTie.unfinished ++ l.legacyBeams.unfinished

/-- A note changes no relation that is finished, and its notes only in their beams. -/
structure GoesOn (note : Nat) (l l' : Linking τ) : Prop where
  notes : l'.notes.map NoteRest.unbeamed = l.notes.map NoteRest.unbeamed
  relations : l'.relations = l.relations
  unfinished : GoOn note l.unfinished l'.unfinished

/-- What a mark of a note does to the links. -/
inductive Step (note : Nat) (l l' : Linking τ) : Prop where
  | goOn (h : GoesOn note l l')
  | relate (r : Relation) (hr : EndsOne note l.unfinished r) (between : Linking τ)
      (h : GoesOn note l between) (hl : l' = between.addRelation r)

abbrev Steps (note : Nat) : Linking τ → Linking τ → Prop := Relation.ReflTransGen (Step note)

/-! ## Beams and relations of notes -/

theorem map_modify {α β : Type} {f : α → α} {f' : β → β} {g : α → β} (h : ∀ a, g (f a) = f' (g a))
    (xs : List α) (i : Nat) : (xs.modify i f).map g = (xs.map g).modify i f' := by
  induction xs generalizing i with
  | nil => simp
  | cons x xs ih =>
      cases i with
      | zero => simp [h]
      | succ i => simp [ih]

theorem map_modify_of_eq {α β : Type} {f : α → α} {g : α → β} (h : ∀ a, g (f a) = g a)
    (xs : List α) (i : Nat) : (xs.modify i f).map g = xs.map g := by
  have hkeeps (a : α) : g (f a) = id (g a) := h a
  rw [map_modify hkeeps, List.modify_id]

theorem map_unbeamed_setBeam (notes : List (NoteRest τ)) (number : Nat)
    (segments : List BeamSegment) :
    (setBeam notes number segments).map NoteRest.unbeamed = notes.map NoteRest.unbeamed :=
  map_modify_of_eq (f := fun n => { n with beam := segments }) (fun _ => rfl) notes number

theorem map_unbeamed_writeBeam (l : Linking τ) (parts : List (Nat × List BeamSegment)) :
    (l.writeBeam parts).notes.map NoteRest.unbeamed = l.notes.map NoteRest.unbeamed := by
  refine List.foldlRecOn (motive := fun notes : List (NoteRest τ) =>
    notes.map NoteRest.unbeamed = l.notes.map NoteRest.unbeamed) parts _ rfl ?_
  intro notes h part _
  rw [map_unbeamed_setBeam, h]

theorem notes_addRelation (l : Linking τ) (r : Relation) : (l.addRelation r).notes =
    r.parts.foldl (fun notes part => notes.modify part (NoteRest.link l.relations.length))
      l.notes := rfl

namespace GoesOn

variable {l l' : Linking τ}

theorem refl (l : Linking τ) : GoesOn note l l := ⟨rfl, rfl, .refl _ _⟩

theorem report (h : GoesOn note l l') (found : List Diagnostic) :
    GoesOn note l (l'.report found) := ⟨h.notes, h.relations, h.unfinished⟩

theorem writeBeam (h : GoesOn note l l') (parts : List (Nat × List BeamSegment)) :
    GoesOn note l (l'.writeBeam parts) :=
  ⟨(map_unbeamed_writeBeam l' parts).trans h.notes, h.relations, h.unfinished⟩

theorem beamAutomatically (h : GoesOn note l l') (settings : Settings) (members : List Nat) :
    GoesOn note l (l'.beamAutomatically settings members) := by
  unfold Linking.beamAutomatically
  split
  · exact h.writeBeam _
  · exact h

theorem addClosed {π : Type} (h : GoesOn note l l') (c : Option (ClosedRelation π))
    (hc : ∀ closed ∈ c, EndsOne note l.unfinished closed.relation) :
    Step note l (l'.addClosed c) := by
  cases c with
  | none => exact .goOn h
  | some closed => exact .relate _ (hc closed rfl) _ h rfl

theorem addBeam (h : GoesOn note l l') (settings : Settings)
    (parts : List (Nat × List BeamSegment))
    (hr : EndsOne note l.unfinished ⟨.beam, parts.map Prod.fst, .beam⟩) :
    Step note l (l'.addBeam settings parts) := by
  refine .relate _ hr _ ?_ rfl
  split
  · exact h.writeBeam parts
  · exact h.beamAutomatically settings _

theorem addPlainBeam (h : GoesOn note l l') (settings : Settings) {members : List Nat}
    (hr : EndsOne note l.unfinished ⟨.beam, members, .beam⟩) :
    Step note l (l'.addPlainBeam settings members) :=
  .relate _ hr _ (h.beamAutomatically settings members) rfl

end GoesOn

/-! ### One registry after the other -/

section

variable {l : Linking τ}

theorem goesOn_ties {r : Registry Unit}
    (h : GoOn note (l.ties.unfinished .tie) (r.unfinished .tie)) :
    GoesOn note l { l with ties := r } := ⟨rfl, rfl, h.left.left.left.left.left⟩

theorem goesOn_slurs {r : Registry Unit}
    (h : GoOn note (l.slurs.unfinished .slur) (r.unfinished .slur)) :
    GoesOn note l { l with slurs := r } := ⟨rfl, rfl, h.right.left.left.left.left⟩

theorem goesOn_beams {r : Registry (List BeamSegment)}
    (h : GoOn note (l.beams.unfinished .beam) (r.unfinished .beam)) :
    GoesOn note l { l with beams := r } := ⟨rfl, rfl, h.right.left.left.left⟩

theorem goesOn_tuplets {r : Registry (Option TupletSpec)}
    (h : GoOn note (l.tuplets.unfinished .tuplet) (r.unfinished .tuplet)) :
    GoesOn note l { l with tuplets := r } := ⟨rfl, rfl, h.right.left.left⟩

theorem goesOn_legacyTie {t : LegacyTie τ} (h : GoOn note l.legacyTie.unfinished t.unfinished) :
    GoesOn note l { l with legacyTie := t } := ⟨rfl, rfl, h.right.left⟩

theorem goesOn_legacyBeams {b : LegacyBeams}
    (h : GoOn note l.legacyBeams.unfinished b.unfinished) :
    GoesOn note l { l with legacyBeams := b } := ⟨rfl, rfl, h.right⟩

theorem mem_unfinished {u : Unfinished} : u ∈ l.unfinished ↔
    u ∈ l.ties.unfinished .tie ∨ u ∈ l.slurs.unfinished .slur ∨ u ∈ l.beams.unfinished .beam ∨
      u ∈ l.tuplets.unfinished .tuplet ∨ u ∈ l.legacyTie.unfinished ∨
        u ∈ l.legacyBeams.unfinished := by
  simp [unfinished]

end

/-! ## Marks of a note -/

theorem step_markTuplet (l : Linking τ) {e : Endpoint (Option TupletSpec)} (he : e.note = note) :
    Step note l (({ l with tuplets := (l.tuplets.mark .tuplet l.pitchOf e).state }.report
      (l.tuplets.mark .tuplet l.pitchOf e).diagnostics).addClosed
        (l.tuplets.mark .tuplet l.pitchOf e).closed) := by
  refine ((goesOn_tuplets ?_).report _).addClosed _ ?_
  · exact Registry.goOn_mark .tuplet he fun _ => by decide
  · exact Registry.endsOne_mark .tuplet he (fun _ => rfl) fun u hu =>
      mem_unfinished.mpr (.inr (.inr (.inr (.inl hu))))

theorem step_applyMarker (settings : Settings) (position : Position) (l : Linking τ) {m : Marker}
    (hm : m.IsWritten) : Step note l (l.applyMarker settings note position m) := by
  unfold applyMarker
  cases m with
  | tie key role =>
      dsimp only
      refine ((goesOn_ties ?_).report _).addClosed _ ?_
      · exact Registry.goOn_mark .tie rfl fun h => absurd h hm
      · exact Registry.endsOne_mark .tie rfl (fun _ => rfl) fun u hu =>
          mem_unfinished.mpr (.inl hu)
  | slur key role =>
      dsimp only
      refine ((goesOn_slurs ?_).report _).addClosed _ ?_
      · exact Registry.goOn_mark .slur rfl fun _ => by decide
      · exact Registry.endsOne_mark .slur rfl (fun _ => rfl) fun u hu =>
          mem_unfinished.mpr (.inr (.inl hu))
  | beam key role segments =>
      have hmark : GoOn note (l.beams.unfinished .beam) ((l.beams.mark .beam l.pitchOf
          ⟨key, role, note, position, segments⟩).state.unfinished .beam) :=
        Registry.goOn_mark .beam rfl fun _ => by decide
      have hgoes := (goesOn_beams hmark).report
        (l.beams.mark .beam l.pitchOf ⟨key, role, note, position, segments⟩).diagnostics
      dsimp only
      split
      · next c hc =>
        refine hgoes.addBeam settings _ ?_
        obtain ⟨o, ho, rfl⟩ := Registry.closed_of_mark hc
        refine ⟨rfl, _, mem_unfinished.mpr (.inr (.inr (.inl ho))), rfl, ?_⟩
        simp [Registry.closing]
      · exact .goOn hgoes
  | tupletStart key spec => exact step_markTuplet l rfl
  | tupletEnd key => exact step_markTuplet l rfl

theorem steps_applyMarkers (settings : Settings) (position : Position) (inChord : Bool)
    (l : Linking τ) {markers : List Marker} (hm : ∀ m ∈ markers, m.IsWritten) :
    Steps note l (l.applyMarkers settings note position inChord markers) := by
  have hfold : Steps note l (markers.foldl (applyMarker settings note position) l) :=
    List.foldlRecOn (motive := fun l' => Steps note l l') markers _ .refl
      fun l' h m hmem => h.tail (step_applyMarker settings position l' (hm m hmem))
  unfold applyMarkers
  dsimp only
  split
  · exact hfold
  · refine hfold.tail (.goOn (goesOn_tuplets ?_))
    exact Registry.goOn_continueAll .tuplet (by decide) _ _ _

theorem step_closeLegacyTie [TimeValue τ] (time : τ) (l : Linking τ) :
    Step note l (l.closeLegacyTie note time) := by
  have hgoes := (goesOn_legacyTie (LegacyTie.goOn_offer l.legacyTie l.notes note time)).report
    (l.legacyTie.offer l.notes note time).diagnostics
  unfold closeLegacyTie
  dsimp only
  split
  · next first second hclosed =>
    refine .relate _ ((LegacyTie.endsOne_offer hclosed).mono fun u hu => ?_) _ hgoes rfl
    exact mem_unfinished.mpr (.inr (.inr (.inr (.inr (.inl hu)))))
  · exact .goOn hgoes

theorem step_startLegacyTie (l : Linking τ) (tie : PendingTie τ) :
    Step tie.note l (l.startLegacyTie tie) :=
  .goOn ((goesOn_legacyTie (LegacyTie.goOn_start l.legacyTie tie)).report _)

theorem step_applyLegacyBeam (settings : Settings) (position : Position) (inChord : Bool)
    (mark : Option BeamMark) (l : Linking τ) :
    Step note l (l.applyLegacyBeam settings note position inChord mark) := by
  unfold applyLegacyBeam
  split
  · exact .goOn (goesOn_legacyBeams (LegacyBeams.goOn_enter _ _ _))
  · obtain ⟨hstate, hclosed⟩ := l.legacyBeams.leave_cases note position
    have hgoes := (goesOn_legacyBeams hstate).report (l.legacyBeams.leave note position).diagnostics
    dsimp only
    split
    · next members hmembers =>
      refine hgoes.addPlainBeam settings ((hclosed _ hmembers).mono fun u hu => ?_)
      exact mem_unfinished.mpr (.inr (.inr (.inr (.inr (.inr hu)))))
    · exact .goOn hgoes
  · split
    · exact .goOn (.refl l)
    · exact .goOn (goesOn_legacyBeams (LegacyBeams.goOn_add _ _))

/-! ## Laws of the notes of relations -/

/-- What holds of the notes of relations that wait for another one, and of those of finished ones,
if one note starts relations, goes on with them and ends them. -/
structure PartsLaw (note : Nat) (waiting finished : RelationKind → List Nat → Prop) : Prop where
  starts (kind : RelationKind) : waiting kind [note]
  goesOn {kind : RelationKind} {parts : List Nat} : kind ≠ .tie → waiting kind parts →
    waiting kind (parts ++ [note])
  ends {kind : RelationKind} {parts : List Nat} : waiting kind parts →
    finished kind (parts ++ [note])

structure ObeysParts (waiting finished : RelationKind → List Nat → Prop) (l : Linking τ) :
    Prop where
  unfinished : ∀ u ∈ l.unfinished, waiting u.kind u.parts
  relations : ∀ r ∈ l.relations, finished r.kind r.parts

namespace ObeysParts

variable {waiting finished : RelationKind → List Nat → Prop} {l l' : Linking τ}

theorem goesOn (hlaw : PartsLaw note waiting finished) (hl : l.ObeysParts waiting finished)
    (h : GoesOn note l l') : l'.ObeysParts waiting finished := by
  refine ⟨fun u hu => ?_, h.relations ▸ hl.relations⟩
  rcases h.unfinished u hu with hmem | hstart | ⟨hkind, v, hv, hsame, hparts⟩
  · exact hl.unfinished u hmem
  · exact hstart ▸ hlaw.starts u.kind
  · exact hparts ▸ hlaw.goesOn hkind (hsame ▸ hl.unfinished v hv)

theorem steps (hlaw : PartsLaw note waiting finished) (hl : l.ObeysParts waiting finished)
    (h : Steps note l l') : l'.ObeysParts waiting finished := by
  induction h with
  | refl => exact hl
  | tail _ hstep ih =>
      rcases hstep with h | ⟨r, ⟨-, u, hu, hkind, hparts⟩, between, h, rfl⟩
      · exact ih.goesOn hlaw h
      · have hbetween := ih.goesOn hlaw h
        refine ⟨hbetween.unfinished, List.forall_mem_append.mpr ⟨hbetween.relations, ?_⟩⟩
        refine List.forall_mem_singleton.mpr ?_
        exact hparts ▸ hlaw.ends (hkind ▸ ih.unfinished u hu)

end ObeysParts

/-! ## What notes keep -/

section

variable {α : Type} {f : NoteRest τ → α}

theorem map_addRelation (hlink : ∀ number n, f (NoteRest.link number n) = f n) (l : Linking τ)
    (r : Relation) : (l.addRelation r).notes.map f = l.notes.map f := by
  rw [notes_addRelation]
  exact List.foldlRecOn (motive := fun notes : List (NoteRest τ) =>
    notes.map f = l.notes.map f) r.parts _ rfl fun notes h part _ => by
      rw [map_modify_of_eq (hlink _), h]

variable (hf : NoteRest.Keeps f) {l l' : Linking τ}

include hf

theorem GoesOn.map_notes (h : GoesOn note l l') : l'.notes.map f = l.notes.map f := by
  have hunbeamed : f ∘ NoteRest.unbeamed = f := funext hf.unbeamed
  simpa [hunbeamed] using congrArg (List.map f) h.notes

/-- Neither does a step add a note. -/
theorem Steps.map_notes (h : Steps note l l') : l'.notes.map f = l.notes.map f := by
  induction h with
  | refl => rfl
  | tail _ hstep ih =>
      rcases hstep with h | ⟨r, -, between, h, rfl⟩
      · rw [h.map_notes hf, ih]
      · rw [map_addRelation hf.link, h.map_notes hf, ih]

end

theorem Steps.length {l l' : Linking τ} (h : Steps note l l') :
    l'.notes.length = l.notes.length := by
  have hf : NoteRest.Keeps fun _ : NoteRest τ => () := ⟨fun _ => rfl, fun _ _ => rfl⟩
  simpa using congrArg List.length (h.map_notes hf)

end Linking

end ScorePlayback
