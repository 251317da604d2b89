import ScorePlayback.Proofs.Notation.SameLexemes
import ScorePlayback.Proofs.Relation.Payloads
import ScorePlayback.Relation.LegacyBeam
import ScorePlayback.Relation.LegacyTie

/-! # Relations at other positions

Positions of markers are kept for diagnostics only. Which relations are open, which of them end and
which kinds of problems there are does not depend on them. -/

namespace ScorePlayback

open HasPlaces (placeless)

/-! ## Steps that ignore positions -/

/-- A step that makes nothing but positions of the positions that it is given. -/
def IgnoresPlaces {σ κ ρ : Type} [HasPlaces σ] [HasPlaces κ] [HasPlaces ρ] (f : σ → κ → ρ) : Prop :=
  ∀ ⦃s s' : σ⦄, SameButPlaces s s' → ∀ ⦃x x' : κ⦄, SameButPlaces x x' →
    SameButPlaces (f s x) (f s' x')

theorem SameButPlaces.of_comm {σ ρ : Type} [HasPlaces σ] [HasPlaces ρ] {f : σ → ρ}
    (h : ∀ s, placeless (f s) = f (placeless s)) {s s' : σ} (hs : SameButPlaces s s') :
    SameButPlaces (f s) (f s') :=
  (h s).trans ((congrArg f hs).trans (h s').symm)

/-- It is enough to do the same at one position. -/
theorem SameButPlaces.of_placeless {σ ρ : Type} [HasPlaces σ] [HasPlaces ρ] {f : σ → ρ}
    (h : ∀ s, SameButPlaces (f s) (f (placeless s))) {s s' : σ} (hs : SameButPlaces s s') :
    SameButPlaces (f s) (f s') := by
  have hleft := h s
  rw [show placeless s = placeless s' from hs] at hleft
  exact hleft.trans (h s').symm

theorem SameButPlaces.singleton {σ : Type} [HasPlaces σ] {s s' : σ} (h : SameButPlaces s s') :
    SameButPlaces [s] [s'] := congrArg (fun s => [s]) h

theorem SameButPlaces.ite {σ : Type} [HasPlaces σ] {c : Bool} {s s' t t' : σ}
    (hs : SameButPlaces s s') (ht : SameButPlaces t t') :
    SameButPlaces (if c then s else t) (if c then s' else t') := by
  cases c with
  | true => exact hs
  | false => exact ht

namespace IgnoresPlaces

variable {σ κ ρ : Type} [HasPlaces σ] [HasPlaces κ] [HasPlaces ρ]

/-- A step that does the same at one position. -/
theorem of_comm {f : σ → κ → ρ}
    (h : ∀ s x, placeless (f s x) = f (placeless s) (placeless x)) : IgnoresPlaces f :=
  fun s s' hs x x' hx => (h s x).trans ((congrArg₂ f hs hx).trans (h s' x').symm)

theorem foldl {f : σ → κ → σ} (hf : IgnoresPlaces f) :
    IgnoresPlaces fun (s : σ) (xs : List κ) => xs.foldl f s := by
  intro s s' hs xs xs' hxs
  induction xs generalizing s s' xs' with
  | nil =>
      obtain rfl := List.map_eq_nil_iff.mp hxs.symm
      exact hs
  | cons x xs ih =>
      obtain ⟨x', xs', rfl, hx, hxs⟩ := List.map_eq_cons_iff.mp hxs.symm
      exact ih (hf hs hx.symm) hxs.symm

end IgnoresPlaces

/-! ## What is left without positions -/

instance : HasPlaces Nat where
  placeless := id

instance {α : Type} [HasPlaces α] : HasPlaces (Option α) where
  placeless := Option.map placeless

instance {α β : Type} [HasPlaces α] [HasPlaces β] : HasPlaces (α × β) where
  placeless := Prod.map placeless placeless

/-- A message may tell the line of another marker, so only the kind is left of a diagnostic. -/
instance : HasPlaces Diagnostic where
  placeless d := ⟨d.kind, none, ""⟩

theorem map_kind_of_sameButPlaces {ds ds' : List Diagnostic} (h : SameButPlaces ds ds') :
    ds.map Diagnostic.kind = ds'.map Diagnostic.kind := by
  have hkinds (ds : List Diagnostic) :
      (placeless ds).map Diagnostic.kind = ds.map Diagnostic.kind := by
    simp [placeless, Function.comp_def]
  rw [← hkinds, show placeless ds = placeless ds' from h, hkinds]

theorem ignoresPlaces_append {α : Type} [HasPlaces α] :
    IgnoresPlaces fun xs ys : List α => xs ++ ys :=
  .of_comm fun _ _ => List.map_append

section

variable {π τ : Type}

instance : HasPlaces (Endpoint π) where
  placeless e := { e with position := ⟨1, 1⟩ }

theorem SameButPlaces.endpoint (key : Nat) (role : Role) (note : Nat)
    (position position' : Position) (payload : π) :
    SameButPlaces (Endpoint.mk key role note position payload)
      ⟨key, role, note, position', payload⟩ :=
  rfl

instance : HasPlaces (OpenRelation π) where
  placeless := OpenRelation.mapMarkers placeless

instance : HasPlaces (ClosedRelation π) where
  placeless c := { c with endpoints := placeless c.endpoints }

instance : HasPlaces (Registry π) where
  placeless := Registry.mapMarkers placeless

instance : HasPlaces (NoteRest τ) where
  placeless n := { n with position := ⟨1, 1⟩ }

instance : HasPlaces (PendingTie τ) where
  placeless tie := { tie with position := ⟨1, 1⟩ }

instance : HasPlaces (LegacyTie τ) where
  placeless t := ⟨placeless t.pending⟩

instance : HasPlaces OpenBeam where
  placeless b := { b with position := ⟨1, 1⟩ }

instance : HasPlaces LegacyBeams where
  placeless b := ⟨placeless b.stack⟩

end

namespace Resolution

variable {σ α : Type} [HasPlaces σ] [HasPlaces α]

/-- Without positions the outcome of a step is another one, but for what diagnostics say. -/
structure ErasesTo (r r' : Resolution σ α) : Prop where
  state : placeless r.state = r'.state
  closed : placeless r.closed = r'.closed
  diagnostics : placeless r.diagnostics = placeless r'.diagnostics

/-- Two outcomes that are the same but for positions. -/
structure Agree (r r' : Resolution σ α) : Prop where
  state : SameButPlaces r.state r'.state
  closed : SameButPlaces r.closed r'.closed
  diagnostics : SameButPlaces r.diagnostics r'.diagnostics

theorem ErasesTo.agree {r r' erased : Resolution σ α} (h : r.ErasesTo erased)
    (h' : r'.ErasesTo erased) : r.Agree r' :=
  ⟨h.state.trans h'.state.symm, h.closed.trans h'.closed.symm,
    h.diagnostics.trans h'.diagnostics.symm⟩

end Resolution

/-! ## Registries -/

namespace Registry

variable {π : Type} (rules : RelationRules π) (pitchOf : Nat → Option Pitch)

theorem keepsSubject_placeless : Endpoint.KeepsSubject (placeless : Endpoint π → Endpoint π) :=
  ⟨fun _ => rfl, fun _ => rfl⟩

theorem find?_pending_placeless (r : Registry π) (key : Nat) :
    Keyed.find? key (placeless r).pending = placeless (Keyed.find? key r.pending) :=
  find?_pending_mapMarkers r key

theorem closing_placeless (hdata : ∀ e, rules.data (placeless e) = rules.data e)
    (o : OpenRelation π) (e : Endpoint π) :
    closing rules (placeless o) (placeless e) = placeless (closing rules o e) := by
  have hstart : rules.data (placeless o).start = rules.data o.start := hdata o.start
  unfold closing
  rw [hstart]
  simp [placeless, OpenRelation.endpoints, OpenRelation.mapMarkers]

/-- Rules that look at the positions of no marker are the same rules at every position. -/
theorem mark_erasesTo (hdata : ∀ e, rules.data (placeless e) = rules.data e) (r : Registry π)
    (e : Endpoint π) :
    (r.mark rules pitchOf e).ErasesTo ((placeless r).mark rules pitchOf (placeless e)) where
  state := mapMarkers_mark rules rules pitchOf pitchOf r e keepsSubject_placeless
  closed := by
    rw [closed_mark, closed_mark, show (placeless e).role = e.role from rfl,
      show (placeless e).key = e.key from rfl, find?_pending_placeless]
    split
    · cases Keyed.find? e.key r.pending with
      | none => rfl
      | some o => exact congrArg some (closing_placeless rules hdata o e).symm
    · rfl
  diagnostics := by
    have hfind : Keyed.find? (placeless e).key (placeless r).pending =
        placeless (Keyed.find? e.key r.pending) := find?_pending_placeless r e.key
    unfold mark
    rw [show (placeless e).role = e.role from rfl]
    cases e.role with
    | starts =>
        simp only [markStart, hfind]
        cases Keyed.find? e.key r.pending <;> rfl
    | continues =>
        simp only [markContinue, hfind]
        cases Keyed.find? e.key r.pending <;> rfl
    | ends =>
        simp only [markEnd, hfind]
        cases Keyed.find? e.key r.pending with
        | none => rfl
        | some o =>
            simp only [placeless, Option.map_some, List.map_map]
            rfl

theorem agree_mark (hdata : ∀ e, rules.data (placeless e) = rules.data e) {r r' : Registry π}
    (hr : SameButPlaces r r') {e e' : Endpoint π} (he : SameButPlaces e e') :
    (r.mark rules pitchOf e).Agree (r'.mark rules pitchOf e') := by
  have hleft := mark_erasesTo rules pitchOf hdata r e
  rw [show placeless r = placeless r' from hr, show placeless e = placeless e' from he] at hleft
  exact hleft.agree (mark_erasesTo rules pitchOf hdata r' e')

theorem placeless_continueAll (r : Registry π) (note : Nat) (position : Position) :
    placeless (r.continueAll rules note position) =
      (placeless r).continueAll rules note ⟨1, 1⟩ := by
  simp [placeless, continueAll, mapMarkers, OpenRelation.mapMarkers, Prod.map]

theorem finish_sameButPlaces {r r' : Registry π} (h : SameButPlaces r r') :
    SameButPlaces (r.finish rules) (r'.finish rules) := by
  refine .of_placeless (f := (·.finish rules)) (fun r => ?_) h
  simp [SameButPlaces, placeless, finish, mapMarkers, RelationFault.diagnostic, RelationFault.kind]

end Registry

/-! ## Legacy ties -/

namespace LegacyTie

variable {τ : Type}

theorem start_erasesTo (t : LegacyTie τ) (tie : PendingTie τ) :
    (t.start tie).ErasesTo ((placeless t).start (placeless tie)) where
  state := rfl
  closed := rfl
  diagnostics := by
    obtain ⟨_ | previous⟩ := t <;> rfl

theorem agree_start {t t' : LegacyTie τ} (ht : SameButPlaces t t') {tie tie' : PendingTie τ}
    (htie : SameButPlaces tie tie') : (t.start tie).Agree (t'.start tie') := by
  have hleft := t.start_erasesTo tie
  rw [show placeless t = placeless t' from ht, show placeless tie = placeless tie' from htie]
    at hleft
  exact hleft.agree (t'.start_erasesTo tie')

theorem join_erasesTo (notes : List (NoteRest τ)) (tie : PendingTie τ) (note : Nat)
    (candidate : NoteRest τ) : (join notes tie note candidate).ErasesTo
      (join (placeless notes) (placeless tie) note (placeless candidate)) := by
  have hpitch : (placeless notes)[(placeless tie).note]?.bind NoteRest.pitch =
      notes[tie.note]?.bind NoteRest.pitch := by
    simp only [placeless, List.getElem?_map, Option.bind_map]
    rfl
  unfold join
  rw [hpitch, show (placeless candidate).pitch = candidate.pitch from rfl]
  split
  · split
    · exact ⟨rfl, rfl, rfl⟩
    · exact ⟨rfl, rfl, rfl⟩
  · exact ⟨rfl, rfl, rfl⟩

theorem offer_erasesTo [TimeValue τ] (t : LegacyTie τ) (notes : List (NoteRest τ)) (note : Nat)
    (time : τ) : (t.offer notes note time).ErasesTo
      ((placeless t).offer (placeless notes) note time) := by
  obtain ⟨_ | tie⟩ := t
  · exact ⟨rfl, rfl, rfl⟩
  · unfold offer
    rw [show (placeless notes)[note]? = placeless notes[note]? from List.getElem?_map]
    cases notes[note]? with
    | none => exact ⟨rfl, rfl, rfl⟩
    | some candidate =>
        show Resolution.ErasesTo (if reaches tie candidate time then join notes tie note candidate
          else _) (if reaches tie candidate time then
            join (placeless notes) (placeless tie) note (placeless candidate) else _)
        split
        · exact join_erasesTo notes tie note candidate
        · exact ⟨rfl, rfl, rfl⟩

theorem agree_offer [TimeValue τ] {t t' : LegacyTie τ} (ht : SameButPlaces t t')
    {notes notes' : List (NoteRest τ)} (hnotes : SameButPlaces notes notes') (note : Nat)
    (time : τ) : (t.offer notes note time).Agree (t'.offer notes' note time) := by
  have hleft := t.offer_erasesTo notes note time
  rw [show placeless t = placeless t' from ht, show placeless notes = placeless notes' from hnotes]
    at hleft
  exact hleft.agree (t'.offer_erasesTo notes' note time)

theorem finish_sameButPlaces {t t' : LegacyTie τ} (h : SameButPlaces t t') :
    SameButPlaces t.finish t'.finish := by
  refine .of_placeless (f := finish) (fun t => ?_) h
  obtain ⟨_ | tie⟩ := t <;> rfl

end LegacyTie

/-! ## Legacy beams -/

namespace LegacyBeams

theorem placeless_add (b : LegacyBeams) (note : Nat) :
    placeless (b.add note) = (placeless b).add note := by
  simp [placeless, add, Function.comp_def, OpenBeam.add]

theorem placeless_enter (b : LegacyBeams) (note : Nat) (position : Position) :
    placeless (b.enter note position) = (placeless b).enter note ⟨1, 1⟩ :=
  congrArg (fun outer : LegacyBeams => LegacyBeams.mk (⟨[note], ⟨1, 1⟩⟩ :: outer.stack))
    (placeless_add b note)

theorem leave_erasesTo (b : LegacyBeams) (note : Nat) (position : Position) :
    (b.leave note position).ErasesTo ((placeless b).leave note ⟨1, 1⟩) := by
  obtain ⟨_ | ⟨innermost, outer⟩⟩ := b
  · exact ⟨rfl, rfl, rfl⟩
  · refine ⟨placeless_add ⟨outer⟩ note, ?_, rfl⟩
    simp [leave, placeless, OpenBeam.add]

theorem agree_leave {b b' : LegacyBeams} (h : SameButPlaces b b') (note : Nat)
    (position position' : Position) :
    (b.leave note position).Agree (b'.leave note position') := by
  have hleft := b.leave_erasesTo note position
  rw [show placeless b = placeless b' from h] at hleft
  exact hleft.agree (b'.leave_erasesTo note position')

theorem finish_sameButPlaces {b b' : LegacyBeams} (h : SameButPlaces b b') :
    SameButPlaces b.finish b'.finish := by
  refine .of_placeless (f := finish) (fun b => ?_) h
  simp [SameButPlaces, placeless, finish, LegacyFault.diagnostic, LegacyFault.kind]

end LegacyBeams

end ScorePlayback
