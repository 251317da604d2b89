import ScorePlayback.Proofs.Relation.History

/-! # What markers say

Which relations are open and which of them end does not depend on what the markers say beyond their
keys and roles. So a registry of one kind of payload is the image of another one. -/

namespace ScorePlayback

variable {π ρ : Type}

/-! ## Markers that are changed -/

section

variable {g : Endpoint π → Endpoint ρ}

/-- A change of markers after which they start, continue and end the same. -/
structure Endpoint.KeepsSubject (g : Endpoint π → Endpoint ρ) : Prop where
  key (e : Endpoint π) : (g e).key = e.key
  role (e : Endpoint π) : (g e).role = e.role

variable (g) in
def OpenRelation.mapMarkers (o : OpenRelation π) : OpenRelation ρ := ⟨g o.start, o.later.map g⟩

theorem OpenRelation.endpoints_mapMarkers (o : OpenRelation π) :
    (o.mapMarkers g).endpoints = o.endpoints.map g := rfl

namespace Registry

variable (g) in
def mapMarkers (r : Registry π) : Registry ρ :=
  ⟨r.pending.map (Prod.map id (OpenRelation.mapMarkers g))⟩

variable (rules : RelationRules π) (rules' : RelationRules ρ)
  (pitchOf pitchOf' : Nat → Option Pitch)
  (r : Registry π) (e : Endpoint π)

theorem find?_pending_mapMarkers (key : Nat) : Keyed.find? key (r.mapMarkers g).pending =
    (Keyed.find? key r.pending).map (OpenRelation.mapMarkers g) := Keyed.find?_map _ _ _

theorem mapMarkers_mark (h : Endpoint.KeepsSubject g) :
    (r.mark rules pitchOf e).state.mapMarkers g =
      ((r.mapMarkers g).mark rules' pitchOf' (g e)).state := by
  have hinsert (o : OpenRelation π) : (Keyed.insert e.key o r.pending).map
      (Prod.map id (OpenRelation.mapMarkers g)) =
        Keyed.insert e.key (o.mapMarkers g) (r.mapMarkers g).pending :=
    Keyed.map_insert _ _ _ _
  unfold mark
  rw [h.role]
  cases e.role with
  | starts =>
      dsimp only [markStart]
      rw [h.key]
      exact congrArg Registry.mk (hinsert _)
  | continues =>
      dsimp only [markContinue]
      rw [h.key, find?_pending_mapMarkers]
      cases Keyed.find? e.key r.pending with
      | none => rfl
      | some o =>
          refine congrArg Registry.mk ((hinsert _).trans ?_)
          simp [OpenRelation.mapMarkers]
  | ends =>
      dsimp only [markEnd]
      rw [h.key, find?_pending_mapMarkers]
      cases Keyed.find? e.key r.pending with
      | none => rfl
      | some o => exact congrArg Registry.mk (Keyed.map_erase _ _ _)

/-- The markers of the relation that is closed. -/
theorem endpoints_closed_mapMarkers (h : Endpoint.KeepsSubject g) :
    ((r.mapMarkers g).mark rules' pitchOf' (g e)).closed.map ClosedRelation.endpoints =
      ((r.mark rules pitchOf e).closed.map ClosedRelation.endpoints).map (List.map g) := by
  rw [closed_mark, closed_mark, h.role, h.key, find?_pending_mapMarkers]
  split
  · cases Keyed.find? e.key r.pending with
    | none => rfl
    | some o => simp [closing, OpenRelation.endpoints_mapMarkers]
  · rfl

end Registry

end

/-! ## Payloads -/

variable (f : π → ρ)

def Endpoint.map (e : Endpoint π) : Endpoint ρ := ⟨e.key, e.role, e.note, e.position, f e.payload⟩

def OpenRelation.map (o : OpenRelation π) : OpenRelation ρ :=
  ⟨o.start.map f, o.later.map (Endpoint.map f)⟩

theorem Endpoint.keepsSubject_map : KeepsSubject (Endpoint.map f) := ⟨fun _ => rfl, fun _ => rfl⟩

namespace Registry

def map (r : Registry π) : Registry ρ := ⟨r.pending.map (Prod.map id (OpenRelation.map f))⟩

variable (rules : RelationRules π) (rules' : RelationRules ρ)
  (pitchOf pitchOf' : Nat → Option Pitch)
  (r : Registry π) (e : Endpoint π)

theorem map_mark : (r.mark rules pitchOf e).state.map f =
    ((r.map f).mark rules' pitchOf' (e.map f)).state :=
  mapMarkers_mark rules rules' pitchOf pitchOf' r e (Endpoint.keepsSubject_map f)

/-- The markers of the relation that is closed. -/
theorem endpoints_closed_map :
    ((r.map f).mark rules' pitchOf' (e.map f)).closed.map ClosedRelation.endpoints =
      ((r.mark rules pitchOf e).closed.map ClosedRelation.endpoints).map
        (List.map (Endpoint.map f)) :=
  endpoints_closed_mapMarkers rules rules' pitchOf pitchOf' r e (Endpoint.keepsSubject_map f)

/-- What a marker closes behind a history, in the history. -/
theorem endpoints_closed_after (history : List (RegistryCall π)) :
    ((after rules history).mark rules pitchOf e).closed.map ClosedRelation.endpoints =
      (RegistryCall.mark e pitchOf').ended? rules.implied history := by
  rw [closed_mark, find?_after, RegistryCall.ended?]
  split
  · rw [Option.map_map]
    rfl
  · rfl

end Registry

/-! ## The notes of what ends -/

namespace RegistryCall

/-- The note that a call is about. -/
def note : RegistryCall π → Nat
  | .mark e _ => e.note
  | .continueAll note _ => note

variable {implied : π} {key : Nat} {history : List (RegistryCall π)}

/-- Each note of an open relation is the note of a call. -/
theorem exists_note_of_leftOpen {o : OpenRelation π} (h : leftOpen implied key history = some o) :
    ∀ e ∈ o.endpoints, ∃ call ∈ history, call.note = e.note := by
  obtain ⟨start, hstart, rfl⟩ := Option.map_eq_some_iff.mp h
  obtain ⟨hlatest, -⟩ := Option.filter_eq_some_iff.mp hstart
  refine List.forall_mem_cons.mpr ⟨?_, fun e he => ?_⟩
  · obtain ⟨call, hcall, hbound⟩ := List.mem_filterMap.mp (List.mem_of_getLast? hlatest)
    obtain ⟨-, pitchOf, rfl⟩ := eq_mark_of_bound? hbound
    exact ⟨_, hcall, rfl⟩
  · obtain ⟨call, hcall, hjoint⟩ := List.mem_filterMap.mp he
    refine ⟨call, (List.rtakeWhile_suffix _ _).subset hcall, ?_⟩
    cases call with
    | continueAll note position => exact congrArg Endpoint.note (Option.some.inj hjoint)
    | mark e' pitchOf =>
        simp only [joint?] at hjoint
        split at hjoint
        · exact congrArg Endpoint.note (Option.some.inj hjoint)
        · cases hjoint

theorem exists_note_of_endedAfter : ∀ endpoints ∈ endedAfter implied [] history,
    ∀ e ∈ endpoints, ∃ call ∈ history, call.note = e.note := by
  induction history using List.reverseRecOn with
  | nil => exact nofun
  | append_singleton history call ih =>
      rw [endedAfter_concat]
      refine List.forall_mem_append.mpr ⟨fun endpoints h e he => ?_, fun endpoints h e he => ?_⟩
      · obtain ⟨past, hpast, hnote⟩ := ih endpoints h e he
        exact ⟨past, List.mem_append_left _ hpast, hnote⟩
      · cases call with
        | continueAll note position => cases h
        | mark own pitchOf =>
            rw [Option.mem_toList, ended?] at h
            split at h
            · obtain ⟨o, ho, rfl⟩ := Option.map_eq_some_iff.mp h
              rcases List.mem_append.mp he with he | he
              · obtain ⟨past, hpast, hnote⟩ := exists_note_of_leftOpen ho e he
                exact ⟨past, List.mem_append_left _ hpast, hnote⟩
              · obtain rfl := List.mem_singleton.mp he
                exact ⟨_, List.mem_append_right _ (List.mem_singleton_self _), rfl⟩
            · cases h

end RegistryCall

end ScorePlayback
