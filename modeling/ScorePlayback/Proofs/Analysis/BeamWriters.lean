import ScorePlayback.Proofs.Analysis.LegacyOptions
import ScorePlayback.Proofs.Analysis.MarkerCalls
import ScorePlayback.Proofs.Relation.LegacyBeamCalls
import ScorePlayback.Proofs.Relation.Payloads

/-! # Who writes the beam of a note

The segments of a note are those that the last beam writes on it whose markers write them. Only the
beams without such markers, legacy ones and others, leave it to the note values. -/

namespace ScorePlayback

/-! ## Legacy marks as they are written -/

/-- The legacy mark that an option is. -/
def Node.beamMark? (settings : Settings) (item : Node) : Option BeamMark :=
  item.label?.bind fun text =>
    if !settings.legacySyntax then none
    else if text = "g+" then some .enter
    else if text = "g-" then some .leave
    else none

/-- What a note tells the legacy beams: that one opens or closes there, or that it is inside those
that are open, unless it follows another note of its chord. -/
def LegacyBeamCall.ofMark? (note : Nat) (position : Position) (inChord : Bool) :
    Option BeamMark → Option LegacyBeamCall
  | some .enter => some (.enter note position)
  | some .leave => some (.leave note position)
  | none => if inChord then none else some (.add note)

namespace WrittenNote

/-- The last legacy mark of a note. -/
def beamMark (settings : Settings) (w : WrittenNote) : Option BeamMark :=
  ((w.items.drop (NoteOption.frontOf w.isNote)).filterMap (Node.beamMark? settings)).getLast?

def legacyCall? (settings : Settings) (note : Nat) (w : WrittenNote) (inChord : Bool) :
    Option LegacyBeamCall := LegacyBeamCall.ofMark? note w.position inChord (w.beamMark settings)

/-- What all notes tell them. -/
def legacyCallsOf (settings : Settings) (placed : List (WrittenNote × Bool)) :
    List LegacyBeamCall :=
  placed.zipIdx.filterMap fun ((w, inChord), note) => w.legacyCall? settings note inChord

theorem legacyCallsOf_concat (settings : Settings) (placed : List (WrittenNote × Bool))
    (w : WrittenNote) (inChord : Bool) : legacyCallsOf settings (placed ++ [(w, inChord)]) =
      legacyCallsOf settings placed ++
        (w.legacyCall? settings placed.length inChord).toList := by
  rw [legacyCallsOf, legacyCallsOf, List.zipIdx_append, List.filterMap_append]
  cases h : w.legacyCall? settings placed.length inChord <;> simp [h]

end WrittenNote

def NoteOption.legacyBeam? : NoteOption → Option BeamMark
  | .legacyBeam mark => some mark
  | _ => none

theorem NoteOption.legacyBeam?_of_map {read : Except GrammarFault Marker} {option : NoteOption}
    (h : read.map .marker = .ok option) : option.legacyBeam? = none := by
  cases read with
  | ok m => exact Except.ok.inj h ▸ rfl
  | error fault => cases h

theorem NoteOption.legacyBeam?_eq_none_of_readLabel {settings : Settings} {isNote : Bool}
    {text : String} {option : NoteOption} (henter : text ≠ "g+") (hleave : text ≠ "g-")
    (h : readLabel settings isNote text = .ok option) : option.legacyBeam? = none := by
  simp only [readLabel, if_neg henter, if_neg hleave] at h
  split at h
  · exact Except.ok.inj h ▸ rfl
  · split at h
    · cases h
    · split at h
      · cases isNote with
        | true => exact Except.ok.inj h ▸ rfl
        | false => cases h
      · split at h
        · exact Except.ok.inj h ▸ rfl
        · exact Except.ok.inj h ▸ rfl
        · cases h

theorem NoteOption.readLabel_enter (settings : Settings) (isNote : Bool) :
    readLabel settings isNote "g+" =
      if settings.legacySyntax then .ok (.legacyBeam .enter)
      else .error (.legacyDisabled "g+") := by
  cases hsetting : settings.legacySyntax <;> simp [readLabel, isLegacy, hsetting]

theorem NoteOption.readLabel_leave (settings : Settings) (isNote : Bool) :
    readLabel settings isNote "g-" =
      if settings.legacySyntax then .ok (.legacyBeam .leave)
      else .error (.legacyDisabled "g-") := by
  cases hsetting : settings.legacySyntax <;> simp [readLabel, isLegacy, hsetting]

theorem NoteOption.legacyBeam?_of_readLabel {settings : Settings} {isNote : Bool} {text : String}
    {option : NoteOption} (h : readLabel settings isNote text = .ok option) (position : Position) :
    option.legacyBeam? = (Node.atom .label text position).beamMark? settings := by
  have hmark : (Node.atom .label text position).beamMark? settings =
      if !settings.legacySyntax then none else if text = "g+" then some .enter
        else if text = "g-" then some .leave else none := rfl
  rw [hmark]
  by_cases henter : text = "g+"
  · rw [henter, readLabel_enter] at h
    split at h
    · next hsetting =>
      obtain rfl := Except.ok.inj h
      simp [legacyBeam?, hsetting, henter]
    · cases h
  · by_cases hleave : text = "g-"
    · rw [hleave, readLabel_leave] at h
      split at h
      · next hsetting =>
        obtain rfl := Except.ok.inj h
        simp [legacyBeam?, hsetting, hleave]
      · cases h
    · rw [legacyBeam?_eq_none_of_readLabel henter hleave h, if_neg henter, if_neg hleave, ite_self]

theorem NoteOption.legacyBeam?_of_read {settings : Settings} {isNote : Bool}
    {display : TupletDisplay} {item : Node} {option : NoteOption}
    (h : read settings isNote display item = .ok option) :
    option.legacyBeam? = item.beamMark? settings := by
  cases item with
  | element name children position =>
      cases name with
      | tie =>
          cases isNote with
          | true => exact legacyBeam?_of_map h
          | false => cases h
      | slur | beam | tuplet => exact legacyBeam?_of_map h
      | _ => cases h
  | atom kind text position =>
      cases kind with
      | label => exact legacyBeam?_of_readLabel h position
      | _ => cases h

theorem NoteOption.read_of_beamMark? {settings : Settings} {item : Node} {mark : BeamMark}
    (h : item.beamMark? settings = some mark) (isNote : Bool) (display : TupletDisplay) :
    read settings isNote display item = .ok (.legacyBeam mark) := by
  obtain ⟨text, htext, hmark⟩ := Option.bind_eq_some_iff.mp h
  cases item with
  | element name children position => cases htext
  | atom kind text' position =>
      cases kind with
      | label =>
          obtain rfl : text' = text := Option.some.inj htext
          cases hsetting : settings.legacySyntax with
          | false => simp [hsetting] at hmark
          | true =>
              rw [hsetting] at hmark
              split at hmark
              · cases hmark
              · split at hmark
                · next henter =>
                  subst henter
                  obtain rfl := Option.some.inj hmark
                  simp [read, readLabel, hsetting]
                · split at hmark
                  · next hleave =>
                    subst hleave
                    obtain rfl := Option.some.inj hmark
                    simp [read, readLabel, hsetting]
                  · cases hmark
      | _ => cases htext

namespace NoteReading

variable {settings : Settings} {display : TupletDisplay} {isNote : Bool} {items : List Node}
  {reading : NoteReading}

theorem legacyBeam_readOption (r : NoteReading) (item : Node) :
    (r.readOption settings isNote item).spec.legacyBeam =
      (item.beamMark? settings).or r.spec.legacyBeam := by
  unfold readOption
  split
  · next option hread =>
    rw [← NoteOption.legacyBeam?_of_read hread]
    cases option <;> rfl
  · next fault hread =>
    cases hmark : item.beamMark? settings with
    | none => rfl
    | some mark => cases hread.symm.trans (NoteOption.read_of_beamMark? hmark isNote r.display)

theorem legacyBeam_foldl_readOption (options : List Node) (r : NoteReading) :
    (options.foldl (readOption settings isNote) r).spec.legacyBeam =
      (options.filterMap (Node.beamMark? settings)).getLast?.or r.spec.legacyBeam := by
  induction options using List.reverseRecOn with
  | nil => rfl
  | append_singleton options item ih =>
      rw [List.foldl_append, List.foldl_cons, List.foldl_nil, legacyBeam_readOption, ih,
        List.filterMap_append]
      cases h : item.beamMark? settings <;> simp [h]

/-- The options of a note are read one after the other. -/
theorem exists_foldl_of_read (h : read settings display isNote items = .ok reading) :
    ∃ pitch duration, reading = (items.drop (NoteOption.frontOf isNote)).foldl
      (readOption settings isNote) ⟨{ pitch, duration }, display, []⟩ := by
  have hrest {pitch : Option Pitch} {items : List Node}
      (h : readRest settings display pitch items = .ok reading) :
      ∃ duration, reading = (items.drop 1).foldl (readOption settings pitch.isSome)
        ⟨{ pitch, duration }, display, []⟩ := by
    obtain ⟨first, options, duration, rfl, -, hreading⟩ := exists_options_of_readRest h
    exact ⟨duration, hreading⟩
  unfold read at h
  cases isNote with
  | false =>
      obtain ⟨duration, hreading⟩ := hrest h
      exact ⟨none, duration, hreading⟩
  | true =>
      rw [if_pos rfl] at h
      split at h
      · cases h
      · split at h
        · next pitch _ =>
          obtain ⟨duration, hreading⟩ := hrest h
          exact ⟨some pitch, duration, hreading⟩
        · cases h

theorem legacyBeam_of_read {w : WrittenNote}
    (h : read settings display w.isNote w.items = .ok reading) :
    reading.spec.legacyBeam = w.beamMark settings := by
  obtain ⟨pitch, duration, rfl⟩ := exists_foldl_of_read h
  rw [legacyBeam_foldl_readOption, WrittenNote.beamMark, Option.or_none]

end NoteReading

/-! ## Segments as they are written -/

def Marker.segments : Marker → List BeamSegment
  | .beam _ _ segments => segments
  | _ => []

/-- The segments that are written in a marker of a beam. -/
def Node.segments (item : Node) : List BeamSegment :=
  match item with
  | .element .beam .. => (Marker.readBeam item).toOption.elim [] Marker.segments
  | _ => []

namespace Marker

variable {item : Node} {m : Marker}

theorem segments_of_kind (h : m.kind ≠ .beam) : m.segments = [] := by
  cases m with
  | beam key role segments => exact absurd rfl h
  | _ => rfl

theorem kind_of_readTie (h : readTie item = .ok m) : m.kind = .tie := by
  unfold readTie at h
  split at h
  · split at h
    · exact Except.ok.inj h ▸ rfl
    · exact Except.ok.inj h ▸ rfl
    · exact Except.ok.inj h ▸ rfl
    · cases h
  · cases h

theorem kind_of_readSlur (h : readSlur item = .ok m) : m.kind = .slur := by
  unfold readSlur at h
  split at h
  · split at h
    · exact Except.ok.inj h ▸ rfl
    · exact Except.ok.inj h ▸ rfl
    · exact Except.ok.inj h ▸ rfl
    · exact Except.ok.inj h ▸ rfl
    · cases h
  · cases h

theorem segments_of_read {settings : Settings} {isNote : Bool} {display : TupletDisplay}
    (h : NoteOption.read settings isNote display item = .ok (.marker m)) :
    m.segments = item.segments := by
  cases item with
  | atom kind text position =>
      cases kind with
      | label => exact absurd h NoteOption.ne_marker_of_readLabel
      | _ => cases h
  | element name children position =>
      cases name with
      | tie =>
          cases isNote with
          | true =>
              refine segments_of_kind ?_
              rw [kind_of_readTie (NoteOption.exists_of_map_marker h)]
              decide
          | false => cases h
      | slur =>
          refine segments_of_kind ?_
          rw [kind_of_readSlur (NoteOption.exists_of_map_marker h)]
          decide
      | tuplet =>
          refine segments_of_kind ?_
          rw [show m.kind = .tuplet from
            congrArg Prod.fst (address_of_readTuplet (NoteOption.exists_of_map_marker h))]
          decide
      | beam =>
          simp only [Node.segments, NoteOption.exists_of_map_marker h]
          rfl
      | _ => cases h

end Marker

/-- Which relation a marker is for, with its segments. -/
def Marker.marked (m : Marker) : (RelationKind × Nat × Role) × List BeamSegment :=
  (m.address, m.segments)

def Node.marked? (settings : Settings) (isNote : Bool) (item : Node) :
    Option ((RelationKind × Nat × Role) × List BeamSegment) :=
  (item.address? settings isNote).map (·, item.segments)

theorem NoteOption.reflects_marked (settings : Settings) (isNote : Bool) :
    Reflects settings isNote Marker.marked (Node.marked? settings isNote) where
  ok {display item option} h := by
    rw [Node.marked?, address?_of_read_ok h]
    cases option with
    | marker m =>
        show some (m.address, item.segments) = some (m.address, m.segments)
        rw [Marker.segments_of_read h]
    | _ => rfl
  error h := by
    rw [Node.marked?, address?_of_read_error h]
    rfl

/-! ## Writing beams -/

/-- The segments of a note behind some writes. -/
def beamAfter (writes : List (Nat × List BeamSegment)) (note : Nat) (segments : List BeamSegment) :
    List BeamSegment :=
  writes.foldl (fun segments part => if part.1 = note then part.2 else segments) segments

theorem beamAfter_append (writes more : List (Nat × List BeamSegment)) (note : Nat)
    (segments : List BeamSegment) : beamAfter (writes ++ more) note segments =
      beamAfter more note (beamAfter writes note segments) := List.foldl_append

theorem beamAfter_of_notMem {writes : List (Nat × List BeamSegment)} {note : Nat}
    (h : note ∉ writes.map Prod.fst) (segments : List BeamSegment) :
    beamAfter writes note segments = segments := by
  induction writes with
  | nil => rfl
  | cons part writes ih =>
      rw [List.map_cons, List.mem_cons, not_or] at h
      rw [beamAfter, List.foldl_cons, if_neg (Ne.symm h.1)]
      exact ih h.2

namespace Linking

variable {τ : Type} (l : Linking τ)

theorem getElem?_writeBeam (parts : List (Nat × List BeamSegment)) (note : Nat) :
    (l.writeBeam parts).notes[note]? =
      l.notes[note]?.map fun n => { n with beam := beamAfter parts note n.beam } := by
  unfold writeBeam
  generalize l.notes = notes
  induction parts generalizing notes with
  | nil => cases h : notes[note]? <;> simp [h, beamAfter]
  | cons part parts ih =>
      rw [List.foldl_cons, ih, setBeam, List.getElem?_modify, Option.map_eq_map, Option.map_map]
      refine Option.map_congr fun n _ => ?_
      rw [Function.comp_apply]
      split
      · next hpart => simp [beamAfter, hpart]
      · next hpart => simp [beamAfter, hpart]

/-- Note values decide the segments of notes with a pitch only. -/
theorem mem_automaticSegments {parts : List Nat} {note : Nat}
    (h : note ∈ (l.automaticSegments parts).map Prod.fst) :
    note ∈ parts ∧ l.isNote note = true := by
  obtain ⟨⟨_, segments⟩, hmem, rfl⟩ := List.mem_map.mp h
  obtain ⟨head, hhead, rfl⟩ := List.mem_map.mp (List.of_mem_zip hmem).1
  obtain ⟨part, hpart, hvalue⟩ := List.mem_filterMap.mp hhead
  obtain ⟨n, hn, rfl⟩ := Option.map_eq_some_iff.mp hvalue
  obtain ⟨hnote, hpitch⟩ := Option.filter_eq_some_iff.mp hn
  refine ⟨hpart, ?_⟩
  rw [isNote, pitchOf, hnote]
  exact hpitch

theorem relations_addPlainBeam (settings : Settings) (members : List Nat) :
    (l.addPlainBeam settings members).relations = l.relations ++ [⟨.beam, members, .beam⟩] := by
  unfold addPlainBeam beamAutomatically
  split
  · rfl
  · rfl

theorem length_writeBeam (parts : List (Nat × List BeamSegment)) :
    (l.writeBeam parts).notes.length = l.notes.length := by
  simpa using congrArg List.length (map_unbeamed_writeBeam l parts)

theorem length_addRelation (r : Relation) : (l.addRelation r).notes.length = l.notes.length := by
  simpa using congrArg List.length (map_addRelation (f := fun _ => ()) (fun _ _ => rfl) l r)

/-- A beam without written segments leaves alone what is open. -/
theorem open_addPlainBeam (settings : Settings) (members : List Nat) :
    (l.addPlainBeam settings members).beams = l.beams ∧
      (l.addPlainBeam settings members).legacyBeams = l.legacyBeams ∧
      (l.addPlainBeam settings members).notes.length = l.notes.length := by
  unfold addPlainBeam beamAutomatically
  split
  · exact ⟨rfl, rfl, (length_addRelation _ _).trans (length_writeBeam l _)⟩
  · exact ⟨rfl, rfl, length_addRelation _ _⟩

theorem addBeam_eq (settings : Settings) (parts : List (Nat × List BeamSegment)) :
    l.addBeam settings parts =
      if l.isWritten parts then (l.writeBeam parts).addRelation ⟨.beam, parts.map Prod.fst, .beam⟩
      else l.addPlainBeam settings (parts.map Prod.fst) := by
  unfold addBeam
  split
  · rfl
  · rfl

variable {l}

theorem mem_notes_beamAutomatically {settings : Settings} {members : List Nat} {note : Nat}
    {n' : NoteRest τ} (h : n' ∈ (l.beamAutomatically settings members).notes[note]?) :
    ∃ n ∈ l.notes[note]?, n'.pitch = n.pitch ∧ (n'.beam = n.beam ∨
      settings.autoBeam = true ∧ note ∈ members ∧ n.pitch.isSome = true) := by
  unfold beamAutomatically at h
  split at h
  · next hauto =>
    rw [getElem?_writeBeam] at h
    obtain ⟨n, hn, rfl⟩ := Option.map_eq_some_iff.mp h
    refine ⟨n, hn, rfl, ?_⟩
    by_cases hmem : note ∈ (l.automaticSegments members).map Prod.fst
    · obtain ⟨hmember, hpitch⟩ := mem_automaticSegments l hmem
      rw [isNote, pitchOf, hn] at hpitch
      exact .inr ⟨hauto, hmember, hpitch⟩
    · exact .inl (beamAfter_of_notMem hmem n.beam)
  · exact ⟨n', h, rfl, .inl rfl⟩

end Linking

/-! ## What the text says of beams -/

/-- The segments that the marker of a note in a beam writes. -/
def Endpoint.segments (e : Endpoint (Option Node)) : List BeamSegment :=
  e.payload.elim [] Node.segments

/-- All markers of the notes with a pitch write segments. -/
def writesSegments (isNote : Nat → Bool) (endpoints : List (Endpoint (Option Node))) : Bool :=
  endpoints.all fun e => !isNote e.note || !e.segments.isEmpty

theorem writesSegments_eq_false {isNote : Nat → Bool} {endpoints : List (Endpoint (Option Node))} :
    writesSegments isNote endpoints = false ↔
      ∃ e ∈ endpoints, isNote e.note = true ∧ e.segments = [] := by
  simp [writesSegments]

/-- What the beams with keys and the legacy beams have been told by some first notes. -/
structure BeamCalls where
  count : Nat := 0
  keyed : List (RegistryCall (Option Node)) := []
  legacy : List LegacyBeamCall := []

namespace BeamCalls

/-- The beams with keys that end, with their markers. -/
def ended (calls : BeamCalls) : List (List (Endpoint (Option Node))) :=
  RegistryCall.endedAfter none [] calls.keyed

/-- The segments that are written, the last ones last. -/
def writes (isNote : Nat → Bool) (calls : BeamCalls) : List (Nat × List BeamSegment) :=
  (calls.ended.filter (writesSegments isNote)).flatMap
    (List.map fun e => (e.note, e.segments))

/-- These are the notes of a beam that leaves its segments to the note values: of a legacy one, or
of one where a marker of a note writes none. -/
def Leaves (isNote : Nat → Bool) (calls : BeamCalls) (members : List Nat) : Prop :=
  members ∈ ({} : LegacyBeams).closedBy calls.legacy ∨
    ∃ endpoints ∈ calls.ended, (∃ e ∈ endpoints, isNote e.note = true ∧ e.segments = []) ∧
      endpoints.map Endpoint.note = members

end BeamCalls

theorem BeamCalls.leaves_concat_legacy (isNote : Nat → Bool) (calls : BeamCalls)
    (call : LegacyBeamCall) :
    ({ calls with legacy := calls.legacy ++ [call] } : BeamCalls).Leaves isNote = fun members =>
      calls.Leaves isNote members ∨
        members ∈ ((({} : LegacyBeams).after calls.legacy).tell call).closed := by
  funext members
  rw [Leaves, Leaves, LegacyBeams.closedBy_append, LegacyBeams.closedBy, LegacyBeams.closedBy,
    List.append_nil, List.mem_append, Option.mem_toList, or_right_comm]
  rfl

/-- A call to the beams with keys, which ends one at most. -/
def BeamCalls.addKeyed (calls : BeamCalls) (call : RegistryCall (Option Node)) : BeamCalls :=
  { calls with keyed := calls.keyed ++ [call] }

namespace BeamCalls

variable (isNote : Nat → Bool) (calls : BeamCalls) {call : RegistryCall (Option Node)}

theorem ended_addKeyed (call : RegistryCall (Option Node)) :
    (calls.addKeyed call).ended = calls.ended ++ (call.ended? none calls.keyed).toList :=
  RegistryCall.endedAfter_concat [] calls.keyed call

theorem writes_addKeyed (call : RegistryCall (Option Node)) :
    (calls.addKeyed call).writes isNote = calls.writes isNote ++
      ((call.ended? none calls.keyed).toList.filter (writesSegments isNote)).flatMap
        (List.map fun e => (e.note, e.segments)) := by
  rw [writes, ended_addKeyed, List.filter_append, List.flatMap_append]
  rfl

theorem leaves_addKeyed (call : RegistryCall (Option Node)) :
    (calls.addKeyed call).Leaves isNote = fun members => calls.Leaves isNote members ∨
      ∃ endpoints ∈ call.ended? none calls.keyed, writesSegments isNote endpoints = false ∧
        endpoints.map Endpoint.note = members := by
  funext members
  simp only [Leaves, ended_addKeyed, ← writesSegments_eq_false, List.mem_append, Option.mem_toList,
    or_and_right, exists_or, or_assoc]
  rfl

end BeamCalls

namespace Linking

variable {τ : Type}

/-! ## Segments of notes -/

/-- Each note has the segments that are written on it last, or the note values decide them, as some
beam leaves to them. -/
structure Segments (settings : Settings) (isNote : Nat → Bool)
    (writes : List (Nat × List BeamSegment)) (leaves : List Nat → Prop) (l : Linking τ) :
    Prop where
  isSome_pitch : ∀ note, ∀ n ∈ l.notes[note]?, n.pitch.isSome = isNote note
  related : ∀ members, leaves members → ⟨.beam, members, .beam⟩ ∈ l.relations
  beam : ∀ note, ∀ n ∈ l.notes[note]?, n.beam = beamAfter writes note [] ∨
    settings.autoBeam = true ∧ isNote note = true ∧ ∃ members, leaves members ∧ note ∈ members

namespace Segments

variable {settings : Settings} {isNote : Nat → Bool} {writes : List (Nat × List BeamSegment)}
  {leaves : List Nat → Prop} {l l' : Linking τ}

theorem initial : ({} : Linking τ).Segments settings isNote [] fun _ => False where
  isSome_pitch _ _ hn := absurd hn (by simp)
  related _ := False.elim
  beam _ _ hn := absurd hn (by simp)

/-- What counts of a note here. -/
def kept (n : NoteRest τ) : Option Pitch × List BeamSegment := (n.pitch, n.beam)

theorem exists_of_map_kept (hnotes : l'.notes.map kept = l.notes.map kept) {note : Nat}
    {n' : NoteRest τ} (hn' : n' ∈ l'.notes[note]?) : ∃ n ∈ l.notes[note]?, kept n = kept n' := by
  have hsame : (l.notes.map kept)[note]? = some (kept n') := by
    rw [← hnotes, List.getElem?_map, Option.mem_def.mp hn']
    rfl
  rw [List.getElem?_map] at hsame
  exact Option.map_eq_some_iff.mp hsame

theorem of_map_kept (h : l.Segments settings isNote writes leaves)
    (hnotes : l'.notes.map kept = l.notes.map kept) (hrelations : l.relations ⊆ l'.relations) :
    l'.Segments settings isNote writes leaves := by
  refine ⟨fun note n' hn' => ?_, fun members hmembers => hrelations (h.related members hmembers),
    fun note n' hn' => ?_⟩
  · obtain ⟨n, hn, hkept⟩ := exists_of_map_kept hnotes hn'
    rw [← show n.pitch = n'.pitch from congrArg Prod.fst hkept]
    exact h.isSome_pitch note n hn
  · obtain ⟨n, hn, hkept⟩ := exists_of_map_kept hnotes hn'
    rw [← show n.beam = n'.beam from congrArg Prod.snd hkept]
    exact h.beam note n hn

theorem addRelation (h : l.Segments settings isNote writes leaves) (r : Relation) :
    (l.addRelation r).Segments settings isNote writes leaves :=
  h.of_map_kept (map_addRelation (fun _ _ => rfl) l r) (List.subset_append_left _ _)

theorem addNote (h : l.Segments settings isNote writes leaves) {note : NoteRest τ}
    (hpitch : note.pitch.isSome = isNote l.notes.length) (hbeam : note.beam = [])
    (hnew : l.notes.length ∉ writes.map Prod.fst) :
    (l.addNote note).Segments settings isNote writes leaves := by
  have hget {number : Nat} {n : NoteRest τ} (hn : n ∈ (l.addNote note).notes[number]?) :
      n ∈ l.notes[number]? ∨ number = l.notes.length ∧ n = note := by
    rcases Nat.lt_or_ge number l.notes.length with hlt | hge
    · exact .inl (by rwa [Linking.addNote, List.getElem?_append_left hlt] at hn)
    · rw [Linking.addNote, List.getElem?_append_right hge, Option.mem_def,
        List.getElem?_singleton] at hn
      split at hn
      · next hzero => exact .inr ⟨by omega, (Option.some.inj hn).symm⟩
      · cases hn
  refine ⟨fun number n hn => ?_, h.related, fun number n hn => ?_⟩
  · rcases hget hn with hn | ⟨rfl, rfl⟩
    · exact h.isSome_pitch number n hn
    · exact hpitch
  · rcases hget hn with hn | ⟨rfl, rfl⟩
    · exact h.beam number n hn
    · exact .inl (hbeam.trans (beamAfter_of_notMem hnew []).symm)

/-- A beam that writes segments. -/
theorem writeBeam (h : l.Segments settings isNote writes leaves)
    (parts : List (Nat × List BeamSegment)) :
    (l.writeBeam parts).Segments settings isNote (writes ++ parts) leaves := by
  refine ⟨fun note n' hn' => ?_, h.related, fun note n' hn' => ?_⟩
  · rw [getElem?_writeBeam] at hn'
    obtain ⟨n, hn, rfl⟩ := Option.map_eq_some_iff.mp hn'
    exact h.isSome_pitch note n hn
  · rw [getElem?_writeBeam] at hn'
    obtain ⟨n, hn, rfl⟩ := Option.map_eq_some_iff.mp hn'
    refine (h.beam note n hn).imp_left fun hbeam => ?_
    rw [beamAfter_append, ← hbeam]

/-- A beam that leaves them to the note values. -/
theorem addPlainBeam (h : l.Segments settings isNote writes leaves) (members : List Nat) :
    (l.addPlainBeam settings members).Segments settings isNote writes
      fun other => leaves other ∨ members = other := by
  have hget {note : Nat} {n' : NoteRest τ}
      (hn' : n' ∈ (l.addPlainBeam settings members).notes[note]?) :
      ∃ n ∈ l.notes[note]?, n'.pitch = n.pitch ∧ (n'.beam = n.beam ∨
        settings.autoBeam = true ∧ note ∈ members ∧ n.pitch.isSome = true) := by
    obtain ⟨n, hn, hkept⟩ := exists_of_map_kept (map_addRelation (fun _ _ => rfl) _ _) hn'
    obtain ⟨hpitch, hbeam⟩ := Prod.mk.inj hkept
    rw [← hpitch, ← hbeam]
    exact mem_notes_beamAutomatically hn
  refine ⟨fun note n' hn' => ?_, ?_, fun note n' hn' => ?_⟩
  · obtain ⟨n, hn, hpitch, -⟩ := hget hn'
    rw [hpitch]
    exact h.isSome_pitch note n hn
  · rw [relations_addPlainBeam]
    rintro other (hother | rfl)
    · exact List.mem_append_left _ (h.related other hother)
    · exact List.mem_append_right _ (List.mem_singleton_self _)
  · obtain ⟨n, hn, -, hbeam | ⟨hauto, hmember, hpitch⟩⟩ := hget hn'
    · rw [hbeam]
      refine (h.beam note n hn).imp_right fun ⟨hauto, hnote, other, hother, hmem⟩ => ?_
      exact ⟨hauto, hnote, other, .inl hother, hmem⟩
    · refine .inr ⟨hauto, ?_, members, .inr rfl, hmember⟩
      rw [← h.isSome_pitch note n hn]
      exact hpitch

end Segments

/-! ## The links behind some calls -/

/-- The open beams and the segments of notes are what some calls make of them. -/
structure HasBeamsOf (settings : Settings) (isNote : Nat → Bool) (calls : BeamCalls)
    (l : Linking τ) : Prop where
  length_eq : l.notes.length = calls.count
  below : ∀ call ∈ calls.keyed, call.note < calls.count
  beams : l.beams = (Registry.after .written calls.keyed).map (·.elim [] Node.segments)
  legacyBeams : l.legacyBeams = ({} : LegacyBeams).after calls.legacy
  segments : l.Segments settings isNote (calls.writes isNote) (calls.Leaves isNote)

namespace HasBeamsOf

variable {settings : Settings} {isNote : Nat → Bool} {calls : BeamCalls} {l l' : Linking τ}

theorem initial : ({} : Linking τ).HasBeamsOf settings isNote {} where
  length_eq := rfl
  below := nofun
  beams := rfl
  legacyBeams := rfl
  segments := by
    have hnone : ({} : BeamCalls).Leaves isNote = fun _ => False := by
      funext members
      simp [BeamCalls.Leaves, BeamCalls.ended, RegistryCall.endedAfter, LegacyBeams.closedBy]
    rw [hnone]
    exact .initial

theorem of_map_kept (h : l.HasBeamsOf settings isNote calls)
    (hnotes : l'.notes.map Segments.kept = l.notes.map Segments.kept)
    (hrelations : l.relations ⊆ l'.relations) (hbeams : l'.beams = l.beams)
    (hlegacy : l'.legacyBeams = l.legacyBeams) : l'.HasBeamsOf settings isNote calls where
  length_eq := by
    have hlength : l'.notes.length = l.notes.length := by
      simpa using congrArg List.length hnotes
    exact hlength.trans h.length_eq
  below := h.below
  beams := hbeams.trans h.beams
  legacyBeams := hlegacy.trans h.legacyBeams
  segments := h.segments.of_map_kept hnotes hrelations

/-- Beams end at notes that are there. -/
theorem lt_of_mem_ended (h : l.HasBeamsOf settings isNote calls) :
    ∀ endpoints ∈ calls.ended, ∀ e ∈ endpoints, e.note < calls.count := by
  intro endpoints hendpoints e he
  obtain ⟨call, hcall, hnote⟩ := RegistryCall.exists_note_of_endedAfter endpoints hendpoints e he
  exact hnote ▸ h.below call hcall

theorem addNote (h : l.HasBeamsOf settings isNote calls) {note : NoteRest τ}
    (hpitch : note.pitch.isSome = isNote calls.count) (hbeam : note.beam = []) :
    (l.addNote note).HasBeamsOf settings isNote { calls with count := calls.count + 1 } where
  length_eq := by rw [Linking.addNote, List.length_append, h.length_eq, List.length_singleton]
  below call hcall := Nat.lt_add_right 1 (h.below call hcall)
  beams := h.beams
  legacyBeams := h.legacyBeams
  segments := by
    rw [← h.length_eq] at hpitch
    refine h.segments.addNote hpitch hbeam fun hmem => ?_
    obtain ⟨_, hwrite, hlength⟩ := List.mem_map.mp hmem
    obtain ⟨endpoints, hendpoints, hpart⟩ := List.mem_flatMap.mp hwrite
    obtain ⟨e, he, rfl⟩ := List.mem_map.mp hpart
    have hlt := h.lt_of_mem_ended endpoints (List.mem_filter.mp hendpoints).1 e he
    exact absurd (hlength.trans h.length_eq) (Nat.ne_of_lt hlt)

section

variable (h : l.HasBeamsOf settings isNote calls) (call : LegacyBeamCall) (found : List Diagnostic)

include h

/-- A call to the legacy beams that closes none. -/
theorem hearLegacy (hclosed : (l.legacyBeams.tell call).closed = none) :
    HasBeamsOf settings isNote { calls with legacy := calls.legacy ++ [call] }
      { l with legacyBeams := (l.legacyBeams.tell call).state, diagnostics := found } where
  length_eq := h.length_eq
  below := h.below
  beams := h.beams
  legacyBeams := by
    rw [LegacyBeams.after_append, ← h.legacyBeams]
    rfl
  segments := by
    have hleaves := calls.leaves_concat_legacy isNote call
    rw [← h.legacyBeams, hclosed] at hleaves
    simp only [Option.mem_def, reduceCtorEq, or_false] at hleaves
    rw [hleaves]
    exact h.segments.of_map_kept rfl (List.Subset.refl _)

/-- A call that closes a beam. -/
theorem hearLegacy_of_closed {members : List Nat}
    (hclosed : (l.legacyBeams.tell call).closed = some members) :
    HasBeamsOf settings isNote { calls with legacy := calls.legacy ++ [call] }
      (addPlainBeam settings members
        { l with legacyBeams := (l.legacyBeams.tell call).state, diagnostics := found }) := by
  obtain ⟨hbeams, hlegacy, hlength⟩ := open_addPlainBeam
    { l with legacyBeams := (l.legacyBeams.tell call).state, diagnostics := found } settings members
  constructor
  · exact hlength.trans h.length_eq
  · exact h.below
  · exact hbeams.trans h.beams
  · rw [hlegacy, LegacyBeams.after_append, ← h.legacyBeams]
    rfl
  · have hleaves := calls.leaves_concat_legacy isNote call
    rw [← h.legacyBeams, hclosed] at hleaves
    simp only [Option.mem_def, Option.some.injEq] at hleaves
    rw [hleaves]
    refine Segments.addPlainBeam ?_ members
    exact h.segments.of_map_kept rfl (List.Subset.refl _)

end

theorem applyLegacyBeam (h : l.HasBeamsOf settings isNote calls) (note : Nat) (position : Position)
    (inChord : Bool) (mark : Option BeamMark) :
    (l.applyLegacyBeam settings note position inChord mark).HasBeamsOf settings isNote
      { calls with
        legacy := calls.legacy ++ (LegacyBeamCall.ofMark? note position inChord mark).toList } := by
  unfold Linking.applyLegacyBeam
  split
  · exact h.hearLegacy (.enter note position) _ rfl
  · dsimp only
    split
    · next hclosed => exact h.hearLegacy_of_closed (.leave note position) _ hclosed
    · next hclosed => exact h.hearLegacy (.leave note position) _ hclosed
  · cases inChord with
    | true => simpa [LegacyBeamCall.ofMark?] using h
    | false => exact h.hearLegacy (.add note) _ rfl

theorem isWritten_eq (h : l.HasBeamsOf settings isNote calls)
    {endpoints : List (Endpoint (Option Node))} (hlt : ∀ e ∈ endpoints, e.note < calls.count) :
    l.isWritten (endpoints.map fun e => (e.note, e.segments)) =
      writesSegments isNote endpoints := by
  rw [isWritten, writesSegments, List.all_map, Bool.eq_iff_iff, List.all_eq_true, List.all_eq_true]
  refine forall₂_congr fun e he => ?_
  have hn := List.getElem?_eq_getElem (h.length_eq ▸ hlt e he)
  have hpitch : l.isNote e.note = isNote e.note := by
    rw [Linking.isNote, pitchOf, hn]
    exact h.segments.isSome_pitch e.note _ hn
  simp [hpitch]

section

variable (h : l.HasBeamsOf settings isNote calls) {call : RegistryCall (Option Node)}
  (hnote : call.note < calls.count) {state : Registry (List BeamSegment)}
  (hstate : state = (Registry.after .written (calls.keyed ++ [call])).map (·.elim [] Node.segments))
  (found : List Diagnostic)

include h hnote hstate

/-- A call to the beams with keys that ends none. -/
theorem hearKeyed (hended : call.ended? none calls.keyed = none) :
    HasBeamsOf settings isNote (calls.addKeyed call)
      { l with beams := state, diagnostics := found } where
  length_eq := h.length_eq
  below := List.forall_mem_append.mpr ⟨h.below, List.forall_mem_singleton.mpr hnote⟩
  beams := hstate
  legacyBeams := h.legacyBeams
  segments := by
    have hwrites : (calls.addKeyed call).writes isNote = calls.writes isNote := by
      simp [BeamCalls.writes_addKeyed, hended]
    have hleaves : (calls.addKeyed call).Leaves isNote = calls.Leaves isNote := by
      simp [BeamCalls.leaves_addKeyed, hended]
    rw [hwrites, hleaves]
    exact h.segments.of_map_kept rfl (List.Subset.refl _)

variable {endpoints : List (Endpoint (Option Node))}
  (hended : call.ended? none calls.keyed = some endpoints)

include hended

/-- A call that ends a beam of which each note has levels to write. -/
theorem hearKeyed_of_written (hwritten : writesSegments isNote endpoints = true) :
    HasBeamsOf settings isNote (calls.addKeyed call)
      ((writeBeam { l with beams := state, diagnostics := found }
        (endpoints.map fun e => (e.note, e.segments))).addRelation
          ⟨.beam, endpoints.map Endpoint.note, .beam⟩) where
  length_eq := (length_addRelation _ _).trans ((length_writeBeam _ _).trans h.length_eq)
  below := List.forall_mem_append.mpr ⟨h.below, List.forall_mem_singleton.mpr hnote⟩
  beams := hstate
  legacyBeams := h.legacyBeams
  segments := by
    have hwrites : (calls.addKeyed call).writes isNote =
        calls.writes isNote ++ endpoints.map fun e => (e.note, e.segments) := by
      simp [BeamCalls.writes_addKeyed, hended, hwritten]
    have hleaves : (calls.addKeyed call).Leaves isNote = calls.Leaves isNote := by
      simp [BeamCalls.leaves_addKeyed, hended, hwritten]
    rw [hwrites, hleaves]
    refine Segments.addRelation (Segments.writeBeam ?_ _) _
    exact h.segments.of_map_kept rfl (List.Subset.refl _)

/-- A call that ends a beam of which some note has no levels to write. -/
theorem hearKeyed_of_left (hleft : writesSegments isNote endpoints = false) :
    HasBeamsOf settings isNote (calls.addKeyed call)
      (addPlainBeam settings (endpoints.map Endpoint.note)
        { l with beams := state, diagnostics := found }) := by
  obtain ⟨hbeams, hlegacy, hlength⟩ := open_addPlainBeam
    { l with beams := state, diagnostics := found } settings (endpoints.map Endpoint.note)
  constructor
  · exact hlength.trans h.length_eq
  · exact List.forall_mem_append.mpr ⟨h.below, List.forall_mem_singleton.mpr hnote⟩
  · exact hbeams.trans hstate
  · exact hlegacy.trans h.legacyBeams
  · have hwrites : (calls.addKeyed call).writes isNote = calls.writes isNote := by
      simp [BeamCalls.writes_addKeyed, hended, hleft]
    have hleaves : (calls.addKeyed call).Leaves isNote = fun members =>
        calls.Leaves isNote members ∨ endpoints.map Endpoint.note = members := by
      simp [BeamCalls.leaves_addKeyed, hended, hleft]
    rw [hwrites, hleaves]
    refine Segments.addPlainBeam ?_ _
    exact h.segments.of_map_kept rfl (List.Subset.refl _)

/-- A call that ends a beam. -/
theorem hearKeyed_of_ended :
    HasBeamsOf settings isNote (calls.addKeyed call)
      (addBeam settings (endpoints.map fun e => (e.note, e.segments))
        { l with beams := state, diagnostics := found }) := by
  have hbelow : ∀ past ∈ calls.keyed ++ [call], past.note < calls.count :=
    List.forall_mem_append.mpr ⟨h.below, List.forall_mem_singleton.mpr hnote⟩
  have hlt : ∀ e ∈ endpoints, e.note < calls.count := by
    intro e he
    have hmem : endpoints ∈ (calls.addKeyed call).ended := by
      rw [BeamCalls.ended_addKeyed, hended]
      exact List.mem_append_right _ (List.mem_singleton_self _)
    obtain ⟨past, hpast, hpastnote⟩ := RegistryCall.exists_note_of_endedAfter endpoints hmem e he
    exact hpastnote ▸ hbelow past hpast
  have hmembers : (endpoints.map fun e => (e.note, e.segments)).map Prod.fst =
      endpoints.map Endpoint.note := by
    rw [List.map_map]
    rfl
  have hwritten : isWritten { l with beams := state, diagnostics := found }
      (endpoints.map fun e => (e.note, e.segments)) = writesSegments isNote endpoints :=
    h.isWritten_eq hlt
  rw [addBeam_eq, hmembers, hwritten]
  split
  · next hyes => exact h.hearKeyed_of_written hnote hstate found hended hyes
  · next hno => exact h.hearKeyed_of_left hnote hstate found hended (Bool.eq_false_iff.mpr hno)

end

/-- A marker of a beam. -/
theorem applyMarker_beam (h : l.HasBeamsOf settings isNote calls) {note : Nat}
    (hnote : note < calls.count) (key : Nat) (role : Role) (position : Position) (item : Node) :
    (l.applyMarker settings note position (.beam key role item.segments)).HasBeamsOf settings isNote
      (calls.addKeyed (.mark ⟨key, role, note, position, some item⟩ fun _ => none)) := by
  have hstate : (l.beams.mark .beam l.pitchOf ⟨key, role, note, position, item.segments⟩).state =
      (Registry.after .written (calls.keyed ++
        [.mark ⟨key, role, note, position, some item⟩ fun _ => none])).map
          (·.elim [] Node.segments) := by
    rw [Registry.after_concat, Registry.tell, Registry.map_mark _ _ .beam _ l.pitchOf, ← h.beams]
    rfl
  have hended := Registry.endpoints_closed_map (·.elim [] Node.segments) .written .beam
    (fun _ => none) l.pitchOf (Registry.after .written calls.keyed)
    ⟨key, role, note, position, some item⟩
  rw [← h.beams, Registry.endpoints_closed_after _ (fun _ => none) (fun _ => none)] at hended
  change (l.beams.mark .beam l.pitchOf ⟨key, role, note, position, item.segments⟩).closed.map
    ClosedRelation.endpoints = _ at hended
  have hcall : (RegistryCall.mark (⟨key, role, note, position, some item⟩ : Endpoint (Option Node))
    fun _ => none).note < calls.count := hnote
  unfold applyMarker
  dsimp only
  split
  · next c hc =>
    rw [hc, Option.map_some] at hended
    obtain ⟨endpoints, hendpoints, hsame⟩ := Option.map_eq_some_iff.mp hended.symm
    have hparts : c.endpoints.map (fun e => (e.note, e.payload)) =
        endpoints.map fun e => (e.note, e.segments) := by
      rw [← hsame, List.map_map]
      rfl
    rw [hparts]
    exact h.hearKeyed_of_ended hcall hstate _ hendpoints
  · next hc =>
    rw [hc, Option.map_none] at hended
    exact h.hearKeyed hcall hstate _ (Option.map_eq_none_iff.mp hended.symm)

theorem addRelation (h : l.HasBeamsOf settings isNote calls) (r : Relation) :
    (l.addRelation r).HasBeamsOf settings isNote calls :=
  h.of_map_kept (map_addRelation (fun _ _ => rfl) l r) (List.subset_append_left _ _) rfl rfl

theorem addClosed {π : Type} (h : l.HasBeamsOf settings isNote calls)
    (closed : Option (ClosedRelation π)) :
    (l.addClosed closed).HasBeamsOf settings isNote calls := by
  cases closed with
  | none => exact h
  | some c => exact h.addRelation c.relation

theorem closeLegacyTie [TimeValue τ] (h : l.HasBeamsOf settings isNote calls) (note : Nat)
    (time : τ) : (l.closeLegacyTie note time).HasBeamsOf settings isNote calls := by
  have hkept (tie : LegacyTie τ) (found : List Diagnostic) :
      HasBeamsOf settings isNote calls { l with legacyTie := tie, diagnostics := found } :=
    h.of_map_kept rfl (List.Subset.refl _) rfl rfl
  unfold Linking.closeLegacyTie
  dsimp only
  split
  · exact (hkept _ _).addRelation _
  · exact hkept _ _

theorem startLegacyTie (h : l.HasBeamsOf settings isNote calls) (tie : PendingTie τ) :
    (l.startLegacyTie tie).HasBeamsOf settings isNote calls :=
  h.of_map_kept rfl (List.Subset.refl _) rfl rfl

/-- Legacy ties do not matter to beams. -/
theorem linkLegacyTies [TimeValue τ] (h : l.HasBeamsOf settings isNote calls) (note : Nat)
    (time : τ) (closes starts : Bool) (tie : PendingTie τ) :
    let tied := if closes then l.closeLegacyTie note time else l
    (if starts then tied.startLegacyTie tie else tied).HasBeamsOf settings isNote calls := by
  cases closes with
  | false =>
      cases starts with
      | false => exact h
      | true => exact h.startLegacyTie tie
  | true =>
      cases starts with
      | false => exact h.closeLegacyTie note time
      | true => exact (h.closeLegacyTie note time).startLegacyTie tie

/-- A marker, and the option that it is read from. -/
theorem applyMarker (h : l.HasBeamsOf settings isNote calls) {note : Nat}
    (hnote : note < calls.count) {item : Node} {m : Marker} {own : Bool}
    (hitem : item.marked? settings own = some m.marked)
    (position : Position) :
    (l.applyMarker settings note position m).HasBeamsOf settings isNote
      { calls with
        keyed := calls.keyed ++ (item.call? settings .beam own note position).toList } := by
  obtain ⟨address, haddress, hsame⟩ := Option.map_eq_some_iff.mp hitem
  obtain ⟨rfl, hsegments⟩ := Prod.mk.inj hsame
  cases m with
  | beam key role segments =>
      obtain rfl : item.segments = segments := hsegments
      rw [Node.call?, haddress]
      exact h.applyMarker_beam hnote key role position item
  | tie key role | slur key role | tupletStart key spec | tupletEnd key =>
      have hnone : item.call? settings .beam own note position = none := by
        rw [Node.call?, haddress]
        rfl
      rw [hnone, Option.toList_none, List.append_nil]
      unfold Linking.applyMarker
      refine addClosed ?_ _
      exact h.of_map_kept rfl (List.Subset.refl _) rfl rfl

theorem foldl_applyMarker {items : List Node} {markers : List Marker} {own : Bool}
    (h : l.HasBeamsOf settings isNote calls) {note : Nat} (hnote : note < calls.count)
    (hitems : markers.map Marker.marked =
      items.filterMap (Node.marked? settings own))
    (position : Position) :
    (markers.foldl (Linking.applyMarker settings note position) l).HasBeamsOf settings isNote
      { calls with keyed :=
          calls.keyed ++ items.filterMap (Node.call? settings .beam own note position) } := by
  induction items generalizing markers l calls with
  | nil =>
      obtain rfl := List.map_eq_nil_iff.mp hitems
      simpa using h
  | cons item items ih =>
      rw [List.filterMap_eq_flatMap_toList, List.flatMap_cons, ← List.filterMap_eq_flatMap_toList,
        ← List.append_assoc]
      cases hitem : item.marked? settings own with
      | none =>
          rw [List.filterMap_cons_none hitem] at hitems
          have hnone : item.call? settings .beam own note position = none := by
            rw [Node.call?, Option.map_eq_none_iff.mp hitem]
            rfl
          rw [hnone, Option.toList_none, List.append_nil]
          exact ih h hnote hitems
      | some marked =>
          rw [List.filterMap_cons_some hitem] at hitems
          obtain ⟨m, markers, rfl, rfl, hrest⟩ := List.map_eq_cons_iff.mp hitems
          exact ih (h.applyMarker hnote hitem position) hnote hrest

theorem applyMarkers {w : WrittenNote} {markers : List Marker}
    (h : l.HasBeamsOf settings isNote calls) {note : Nat} (hnote : note < calls.count)
    (hitems : markers.map Marker.marked =
      w.items.filterMap (Node.marked? settings w.isNote))
    (inChord : Bool) :
    (l.applyMarkers settings note w.position inChord markers).HasBeamsOf settings isNote
      { calls with keyed := calls.keyed ++ w.calls settings .beam note inChord } := by
  have hcalls : w.calls settings .beam note inChord =
      w.items.filterMap (Node.call? settings .beam w.isNote note w.position) := List.append_nil _
  have hfold := h.foldl_applyMarker hnote hitems w.position
  rw [hcalls]
  unfold Linking.applyMarkers
  dsimp only
  split
  · exact hfold
  · exact hfold.of_map_kept rfl (List.Subset.refl _) rfl rfl

end HasBeamsOf

end Linking

/-! ## Notes that are placed -/

section

variable {τ : Type} [TimeValue τ] {settings : Settings} {isNote : Nat → Bool} {calls : BeamCalls}

theorem Passage.hasBeamsOf_placeNote {s : Passage τ} {w : WrittenNote} {reading : NoteReading}
    {display : TupletDisplay} (h : s.linking.HasBeamsOf settings isNote calls)
    (hread : NoteReading.read settings display w.isNote w.items = .ok reading)
    (hnote : isNote calls.count = w.isNote) (inChord : Bool) :
    (s.placeNote settings reading w.position inChord).linking.HasBeamsOf settings isNote
      ⟨calls.count + 1, calls.keyed ++ w.calls settings .beam calls.count inChord,
        calls.legacy ++ (w.legacyCall? settings calls.count inChord).toList⟩ := by
  have hsegments := NoteReading.markers_of_read (NoteOption.reflects_marked settings w.isNote)
    hread
  have hadded : ((s.linking.reject reading.rejections).addNote
      (s.realize reading.spec w.position inChord)).HasBeamsOf settings isNote
        { calls with count := calls.count + 1 } := by
    refine Linking.HasBeamsOf.addNote ?_ ?_ rfl
    · exact h.of_map_kept rfl (List.Subset.refl _) rfl rfl
    · rw [realize, Option.isSome_map, NoteReading.isSome_pitch_of_read hread]
      exact hnote.symm
  unfold placeNote
  dsimp only
  rw [WrittenNote.legacyCall?, ← NoteReading.legacyBeam_of_read hread, h.length_eq]
  have hlinked := hadded.linkLegacyTies calls.count s.part.cursor.time
    ((s.realize reading.spec w.position inChord).pitch.isSome)
    ((s.realize reading.spec w.position inChord).pitch.isSome && reading.spec.legacyTie)
    ⟨calls.count, s.part.cursor.time, (s.realize reading.spec w.position inChord).voice, w.position⟩
  have hlegacy := hlinked.applyLegacyBeam calls.count w.position inChord reading.spec.legacyBeam
  exact hlegacy.applyMarkers (Nat.lt_succ_self calls.count) hsegments inChord

/-- Which notes have a pitch. -/
def isPitched (placed : List (WrittenNote × Bool)) (note : Nat) : Bool :=
  placed[note]?.any fun w => w.1.isNote

/-- What the notes that are placed tell the beams. -/
def BeamCalls.ofPlaced (settings : Settings) (placed : List (WrittenNote × Bool)) : BeamCalls where
  count := placed.length
  keyed := WrittenNote.callsOf settings .beam placed
  legacy := WrittenNote.legacyCallsOf settings placed

theorem BeamCalls.ofPlaced_concat (placed : List (WrittenNote × Bool)) (w : WrittenNote)
    (inChord : Bool) : ofPlaced settings (placed ++ [(w, inChord)]) =
      ⟨placed.length + 1,
        (ofPlaced settings placed).keyed ++ w.calls settings .beam placed.length inChord,
        (ofPlaced settings placed).legacy ++
          (w.legacyCall? settings placed.length inChord).toList⟩ := by
  rw [ofPlaced, WrittenNote.callsOf_concat, WrittenNote.legacyCallsOf_concat, List.length_append]
  rfl

/-- The beams of the links behind a log are what the placed notes say. `all` may go on. -/
theorem Linking.Logs.hasBeamsOf {l : Linking τ} {log : List LogEntry} (h : Logs settings {} log l)
    {all : List (WrittenNote × Bool)} (hall : log.filterMap LogEntry.placing? <+: all) :
    l.HasBeamsOf settings (isPitched all)
      (.ofPlaced settings (log.filterMap LogEntry.placing?)) := by
  induction h with
  | nil => exact .initial
  | rejected _ r ih =>
      rw [List.filterMap_append, List.filterMap_cons_none rfl, List.filterMap_nil, List.append_nil]
        at hall ⊢
      exact (ih hall).of_map_kept rfl (List.Subset.refl _) rfl rfl
  | @placed log s hlog w reading hread inChord ih =>
      rw [List.filterMap_append,
        show [LogEntry.placed w inChord].filterMap LogEntry.placing? = [(w, inChord)] from rfl]
        at hall ⊢
      rw [BeamCalls.ofPlaced_concat]
      have hpitched : isPitched all (log.filterMap LogEntry.placing?).length = w.isNote := by
        obtain ⟨rest, rfl⟩ := hall
        simp [isPitched]
      exact Passage.hasBeamsOf_placeNote (ih ((List.prefix_append _ _).trans hall)) hread hpitched
        inChord

end

end ScorePlayback
