import Mathlib.Data.List.Chain
import Mathlib.Data.List.Nodup
import ScorePlayback.Proofs.Analysis.OpenTuplets

/-! # The notes that open relations have joined

With several markers for one relation a note can join it more than once. It does not if between two
of them the relation ends or another one starts. -/

namespace ScorePlayback

/-! ## Markers of a note -/

namespace Marker

def kind : Marker → RelationKind
  | .tie .. => .tie
  | .slur .. => .slur
  | .beam .. => .beam
  | .tupletStart .. => .tuplet
  | .tupletEnd .. => .tuplet

theorem isTuplet_of_kind {m : Marker} (h : m.kind = .tuplet) : m.isTuplet = true := by
  cases m with
  | tupletStart key spec => rfl
  | tupletEnd key => rfl
  | _ => cases h

def key : Marker → Nat
  | .tie key _ => key
  | .slur key _ => key
  | .beam key _ _ => key
  | .tupletStart key _ => key
  | .tupletEnd key => key

def role : Marker → Role
  | .tie _ role => role
  | .slur _ role => role
  | .beam _ role _ => role
  | .tupletStart .. => .starts
  | .tupletEnd _ => .ends

/-- A marker for the relations of a kind with a key. -/
def isFor (kind : RelationKind) (key : Nat) (m : Marker) : Bool := m.kind = kind && m.key = key

/-- Markers of a note that do not go on twice with a relation: behind each of them the relation has
ended, or the next one with its key starts another. -/
def JoinOnce (kind : RelationKind) (markers : List Marker) : Prop :=
  ∀ key, (markers.filter (isFor kind key)).IsChain fun m next =>
    m.role = .ends ∨ next.role = .starts

theorem joinOnce_iff {kind : RelationKind} {markers : List Marker} :
    JoinOnce kind markers ↔ ∀ key ∈ markers.map Marker.key,
      (markers.filter (isFor kind key)).IsChain fun m next =>
        m.role = .ends ∨ next.role = .starts := by
  refine ⟨fun h key _ => h key, fun h key => ?_⟩
  by_cases hkey : key ∈ markers.map Marker.key
  · exact h key hkey
  · have hnone : markers.filter (isFor kind key) = [] := by
      refine List.filter_eq_nil_iff.mpr fun m hm hfor => hkey (List.mem_map.mpr ⟨m, hm, ?_⟩)
      simpa using (Bool.and_eq_true_iff.mp hfor).2
    exact hnone ▸ .nil

instance (kind : RelationKind) (markers : List Marker) : Decidable (JoinOnce kind markers) :=
  decidable_of_iff' _ joinOnce_iff

/-- Some relation with a key may still be open behind the markers of a note that belong to it. -/
def LeaveOpen (kind : RelationKind) (key : Nat) (markers : List Marker) : Prop :=
  ∃ m ∈ (markers.filter (isFor kind key)).getLast?, m.role ≠ .ends

section

variable {kind : RelationKind} {key : Nat} {markers : List Marker} {m : Marker}

theorem leaveOpen_concat_of_ne (h : m.isFor kind key = false) :
    LeaveOpen kind key (markers ++ [m]) ↔ LeaveOpen kind key markers := by
  simp [LeaveOpen, h]

theorem leaveOpen_concat (h : m.isFor kind key = true) :
    LeaveOpen kind key (markers ++ [m]) ↔ m.role ≠ .ends := by
  simp [LeaveOpen, h]

theorem JoinOnce.of_append {next : List Marker} (h : JoinOnce kind (markers ++ next)) :
    JoinOnce kind markers := by
  intro key
  have hkey := h key
  rw [List.filter_append] at hkey
  exact hkey.left_of_append

/-- A marker that goes on with a relation or ends it comes behind markers that do not. -/
theorem JoinOnce.not_leaveOpen (h : JoinOnce kind (markers ++ [m])) (hkind : m.kind = kind)
    (hrole : m.role ≠ .starts) : ¬LeaveOpen kind m.key markers := by
  rintro ⟨last, hlast, hopen⟩
  have hfor : m.isFor kind m.key = true := by simp [isFor, hkind]
  have hkey := h m.key
  rw [List.filter_append, List.isChain_append, List.filter_singleton, hfor] at hkey
  rcases hkey.2.2 last hlast m rfl with hends | hstarts
  · exact hopen hends
  · exact hrole hstarts

end

end Marker

/-! ## The notes of open relations -/

/-- Open relations with their keys and the notes that they have joined so far. -/
abbrev JoinedNotes := List (Nat × List Nat)

theorem nodup_concat {parts : List Nat} {note : Nat} (h : parts.Nodup) (hnot : note ∉ parts) :
    (parts ++ [note]).Nodup := by
  rw [← List.concat_eq_append]
  exact h.concat hnot

namespace JoinedNotes

/-- The notes that are joined behind a marker of a note. -/
def mark (joined : JoinedNotes) (note key : Nat) : Role → JoinedNotes
  | .starts => Keyed.insert key [note] joined
  | .continues =>
    match Keyed.find? key joined with
    | some parts => Keyed.insert key (parts ++ [note]) joined
    | none => joined
  | .ends => Keyed.erase key joined

/-- What is open has joined distinct notes, the one with these markers only if they leave it
open. -/
def AreDistinct (kind : RelationKind) (note : Nat) (markers : List Marker) (joined : JoinedNotes) :
    Prop :=
  ∀ e ∈ joined, e.2.Nodup ∧ (note ∈ e.2 → Marker.LeaveOpen kind e.1 markers)

variable {kind : RelationKind} {note : Nat} {markers : List Marker} {m : Marker}
  {joined : JoinedNotes}

theorem AreDistinct.nodup_concat (h : joined.AreDistinct kind note markers)
    (hm : Marker.JoinOnce kind (markers ++ [m])) (hkind : m.kind = kind) (hrole : m.role ≠ .starts)
    {parts : List Nat} (hparts : Keyed.find? m.key joined = some parts) :
    (parts ++ [note]).Nodup := by
  obtain ⟨hnodup, hopen⟩ := h _ (Keyed.mem_of_find? hparts)
  exact ScorePlayback.nodup_concat hnodup fun hmem => hm.not_leaveOpen hkind hrole (hopen hmem)

/-- What stays open behind another marker. -/
theorem AreDistinct.concat_of_mem (h : joined.AreDistinct kind note markers) {e : Nat × List Nat}
    (he : e ∈ joined) (hm : m.role = .ends → m.isFor kind e.1 = false) :
    e.2.Nodup ∧ (note ∈ e.2 → Marker.LeaveOpen kind e.1 (markers ++ [m])) := by
  refine ⟨(h e he).1, fun hnote => ?_⟩
  cases hfor : m.isFor kind e.1 with
  | false => exact (Marker.leaveOpen_concat_of_ne hfor).mpr ((h e he).2 hnote)
  | true =>
      refine (Marker.leaveOpen_concat hfor).mpr fun hends => ?_
      simp [hm hends] at hfor

theorem AreDistinct.mark (h : joined.AreDistinct kind note markers)
    (hm : Marker.JoinOnce kind (markers ++ [m])) (hkind : m.kind = kind) :
    (joined.mark note m.key m.role).AreDistinct kind note (markers ++ [m]) := by
  have hfor : m.isFor kind m.key = true := by simp [Marker.isFor, hkind]
  have hopen (hrole : m.role ≠ .ends) : Marker.LeaveOpen kind m.key (markers ++ [m]) :=
    (Marker.leaveOpen_concat hfor).mpr hrole
  cases hrole : m.role with
  | starts =>
      intro e he
      rcases Keyed.mem_insert he with rfl | he
      · exact ⟨List.nodup_singleton note, fun _ => hopen (by simp [hrole])⟩
      · exact h.concat_of_mem he (by simp [hrole])
  | continues =>
      unfold JoinedNotes.mark
      dsimp only
      split
      · next parts hparts =>
        intro e he
        rcases Keyed.mem_insert he with rfl | he
        · exact ⟨h.nodup_concat hm hkind (by simp [hrole]) hparts, fun _ => hopen (by simp [hrole])⟩
        · exact h.concat_of_mem he (by simp [hrole])
      · exact fun e he => h.concat_of_mem he (by simp [hrole])
  | ends =>
      -- what is left open has other keys
      intro e he
      obtain ⟨he, hkey⟩ := List.mem_filter.mp he
      refine h.concat_of_mem he fun _ => ?_
      have hne : m.key ≠ e.1 := fun heq => by simp [heq] at hkey
      simp [Marker.isFor, hne]

theorem AreDistinct.concat_of_ne (h : joined.AreDistinct kind note markers)
    (hkind : m.kind ≠ kind) : joined.AreDistinct kind note (markers ++ [m]) :=
  fun _ he => h.concat_of_mem he fun _ => by simp [Marker.isFor, hkind]

end JoinedNotes

/-! ### Registries -/

namespace Registry

variable {π : Type}

/-- The notes that the open relations have joined. -/
def joined (r : Registry π) : JoinedNotes :=
  r.pending.map (Prod.map id fun o => o.endpoints.map Endpoint.note)

variable (rules : RelationRules π) (pitchOf : Nat → Option Pitch) (r : Registry π) (e : Endpoint π)

theorem joined_mark :
    (r.mark rules pitchOf e).state.joined = r.joined.mark e.note e.key e.role := by
  unfold mark JoinedNotes.mark
  cases e.role with
  | starts => exact Keyed.map_insert _ _ _ _
  | continues =>
      dsimp only
      rw [show Keyed.find? e.key r.joined = _ from Keyed.find?_map _ _ _]
      unfold markContinue
      cases Keyed.find? e.key r.pending with
      | none => rfl
      | some o =>
          refine (Keyed.map_insert _ _ _ _).trans ?_
          simp [joined, OpenRelation.endpoints]
  | ends =>
      dsimp only
      unfold markEnd
      split
      · exact Keyed.map_erase _ _ _
      · next hnone =>
        rw [joined, ← Keyed.map_erase, Keyed.erase_of_find?_eq_none hnone]

theorem joined_continueAll (note : Nat) (position : Position) :
    (r.continueAll rules note position).joined = r.joined.map (Prod.map id (· ++ [note])) := by
  simp [joined, continueAll, OpenRelation.endpoints]

variable {rules pitchOf r e}

theorem parts_of_closed {c : ClosedRelation π} (h : (r.mark rules pitchOf e).closed = some c) :
    e.role = .ends ∧ ∃ parts, Keyed.find? e.key r.joined = some parts ∧
      c.relation.parts = parts ++ [e.note] ∧ c.relation.kind = rules.kind := by
  unfold mark at h
  split at h
  · simp [markStart] at h
  · unfold markContinue at h
    split at h <;> simp at h
  · next hrole =>
    unfold markEnd at h
    split at h
    · next o ho =>
      obtain rfl := Option.some.inj h
      refine ⟨hrole, _, by rw [joined, Keyed.find?_map, ho]; rfl, by simp [closing], rfl⟩
    · simp at h

end Registry

/-! ### Legacy beams -/

theorem LegacyBeams.nodup_leave {b : LegacyBeams} {note : Nat}
    (h : ∀ beam ∈ b.stack, beam.members.Nodup)
    (hadd : ∀ beam ∈ b.stack, (beam.add note).members.Nodup) (position : Position) :
    (∀ beam ∈ (b.leave note position).state.stack, beam.members.Nodup) ∧
      ∀ members ∈ (b.leave note position).closed, members.Nodup := by
  refine ⟨?_, fun members hmembers => ?_⟩
  · unfold leave
    split
    · exact h
    · next innermost outer hstack =>
      exact List.forall_mem_map.mpr (List.forall_mem_cons.mp (hstack ▸ hadd)).2
  · obtain ⟨innermost, hinnermost, rfl⟩ := exists_of_closed_leave hmembers
    exact hadd innermost hinnermost

end ScorePlayback
