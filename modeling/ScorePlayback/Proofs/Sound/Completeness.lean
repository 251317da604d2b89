import Mathlib.Data.List.Perm.Basic
import ScorePlayback.Proofs.Analysis.NoteNumbers
import ScorePlayback.Proofs.Sound.EventOrder

/-! # Every object is heard or seen once

Neither the order of time of the objects nor that of the events loses an event or makes one twice.
A note has an attack and a release, and so has a rest that is visible; a time signature has a change
of the rhythm, and nothing else has events. Each event still refers to its object. -/

namespace ScorePlayback

variable {τ : Type}

/-! ## What is to be heard and seen -/

/-- The staff objects of a score, each with its place and its instrument. -/
def Score.places (score : Score τ) : List (ObjectRef × Instrument τ × StaffObject τ) :=
  score.instruments.zipIdx.flatMap fun (i, number) =>
    i.timeline.zipIdx.map fun (object, index) => (⟨number, index⟩, i, object)

/-- The event selects the program of an instrument. -/
structure SoundEvent.Selects (i : Instrument τ) (e : SoundEvent τ) : Prop where
  kind : e.kind = .programChange
  channel : e.channel = i.midi.channel
  program : e.program = i.midi.program
  refers : e.object = none

/-- The event refers to an object of an instrument, is in the measure of the object and has the
channel and the program of the instrument. -/
structure SoundEvent.ComesFrom (i : Instrument τ) (ref : ObjectRef) (object : StaffObject τ)
    (e : SoundEvent τ) : Prop where
  refers : e.object = some ref
  measure : e.measure = object.measure
  channel : e.channel = i.midi.channel
  program : e.program = i.midi.program

/-- The events of an object of a score. -/
inductive Score.Emits [TimeValue τ] (score : Score τ) (i : Instrument τ) (ref : ObjectRef)
    (object : StaffObject τ) : List (SoundEvent τ) → Prop where
  | note {number : Nat} {note : NoteRest τ} {pitch : Pitch} {on off : SoundEvent τ}
      (hsymbol : object.symbol = .noteRest number) (hnote : score.notes[number]? = some note)
      (hpitch : note.pitch = some pitch)
      (hon : on.ComesFrom i ref object) (honKind : on.kind = .noteOn ∨ on.kind = .visualOn)
      (honTime : on.time = object.time) (honPitch : on.pitch = pitch.midi)
      (hoff : off.ComesFrom i ref object) (hoffKind : off.kind = .noteOff ∨ off.kind = .visualOff)
      (hoffTime : off.time = object.time + object.duration) (hoffPitch : off.pitch = pitch.midi) :
      score.Emits i ref object [on, off]
  | visibleRest {number : Nat} {note : NoteRest τ} {on off : SoundEvent τ}
      (hsymbol : object.symbol = .noteRest number) (hnote : score.notes[number]? = some note)
      (hpitch : note.pitch = none) (hvisible : note.visible = true)
      (hon : on.ComesFrom i ref object) (honKind : on.kind = .visualOn)
      (honTime : on.time = object.time)
      (hoff : off.ComesFrom i ref object) (hoffKind : off.kind = .visualOff)
      (hoffTime : off.time = object.time + object.duration) :
      score.Emits i ref object [on, off]
  | invisibleRest {number : Nat} {note : NoteRest τ}
      (hsymbol : object.symbol = .noteRest number) (hnote : score.notes[number]? = some note)
      (hpitch : note.pitch = none) (hvisible : note.visible = false) :
      score.Emits i ref object []
  | meter {meter : Meter} {change : SoundEvent τ} (hsymbol : object.symbol = .meter meter)
      (hchange : change.ComesFrom i ref object) (hkind : change.kind = .rhythmChange)
      (htime : change.time = object.time)
      (hrhythm : change.rhythm = some ⟨meter.pulses, meter.measureDuration⟩) :
      score.Emits i ref object [change]
  | silent (hnote : ∀ number, object.symbol ≠ .noteRest number)
      (hmeter : ∀ meter, object.symbol ≠ .meter meter) :
      score.Emits i ref object []

/-- In some order, events are one program change for each instrument, the events of each object, and
one end of the score. -/
def Score.AccountsFor [TimeValue τ] (score : Score τ) (events : List (SoundEvent τ)) : Prop :=
  ∃ (programs : List (SoundEvent τ)) (parts : List (List (SoundEvent τ))) (last : SoundEvent τ),
    events.Perm (programs ++ parts.flatten ++ [last]) ∧
    List.Forall₂ SoundEvent.Selects score.instruments programs ∧
    List.Forall₂ (fun place part => score.Emits place.2.1 place.1 place.2.2 part) score.places
      parts ∧
    last.kind = .endOfScore ∧ last.object = none

/-- The notes and rests on the timelines are among the notes of the score. -/
def Score.HasItsNotes (score : Score τ) : Prop :=
  ∀ number ∈ score.noteNumbers, number < score.notes.length

theorem Score.HasItsNotes.exists_note {score : Score τ} (h : score.HasItsNotes) {i : Instrument τ}
    {object : StaffObject τ} (hi : i ∈ score.instruments) (hobject : object ∈ i.timeline)
    {number : Nat} (hsymbol : object.symbol = .noteRest number) :
    ∃ note, score.notes[number]? = some note := by
  have hmem : number ∈ score.noteNumbers :=
    List.mem_flatMap.mpr ⟨i, hi, List.mem_filterMap.mpr
      ⟨object, hobject, StaffSymbol.note?_eq_some_iff.mpr hsymbol⟩⟩
  exact ⟨_, List.getElem?_eq_getElem (h number hmem)⟩

theorem mem_of_mem_places {score : Score τ} {place : ObjectRef × Instrument τ × StaffObject τ}
    (h : place ∈ score.places) :
    place.2.1 ∈ score.instruments ∧ place.2.2 ∈ place.2.1.timeline := by
  obtain ⟨⟨i, number⟩, hi, hplace⟩ := List.mem_flatMap.mp h
  obtain ⟨⟨object, index⟩, hobject, rfl⟩ := List.mem_map.mp hplace
  exact ⟨(List.mem_zipIdx' hi).2 ▸ List.getElem_mem _,
    (List.mem_zipIdx' hobject).2 ▸ List.getElem_mem _⟩

variable [TimeValue τ]

theorem hasItsNotes_of_analyse {settings : Settings} {tree : Node} {analysis : Analysis τ}
    (h : analyse settings tree = .ok analysis) {score : Score τ}
    (hs : score ∈ analysis.document.scores) : score.HasItsNotes := by
  intro number hnumber
  rwa [noteNumbers_of_analyse h hs, List.mem_range] at hnumber

/-! ## What is emitted -/

/-- What is emitted for an object, whatever the times since the event before are. -/
theorem Score.emits_of_map_eq {score : Score τ} {i : Instrument τ} {ref : ObjectRef}
    {object : StaffObject τ}
    (hnotes : ∀ number, object.symbol = .noteRest number → ∃ note, score.notes[number]? = some note)
    {part : List (SoundEvent τ)}
    (h : part.map SoundEvent.withoutDelta = objectEvents score i.midi object ref) :
    score.Emits i ref object part := by
  have hfrom {e : SoundEvent τ} {kind : EventKind} {time : τ} {pitch : Nat}
      {rhythm : Option (Rhythm τ)}
      (he : e.withoutDelta = objectEvent i.midi object ref kind time pitch rhythm) :
      e.ComesFrom i ref object ∧ e.kind = kind ∧ e.time = time ∧ e.pitch = pitch ∧
        e.rhythm = rhythm :=
    ⟨⟨congrArg SoundEvent.object he, congrArg SoundEvent.measure he,
      congrArg SoundEvent.channel he, congrArg SoundEvent.program he⟩,
      congrArg SoundEvent.kind he, congrArg SoundEvent.time he, congrArg SoundEvent.pitch he,
      congrArg SoundEvent.rhythm he⟩
  unfold objectEvents at h
  dsimp only at h
  split at h
  · next number hsymbol =>
    obtain ⟨note, hnote⟩ := hnotes number hsymbol
    rw [hnote] at h
    dsimp only at h
    split at h
    · next pitch hpitch =>
      obtain ⟨on, _, rfl, hon, htail⟩ := List.map_eq_cons_iff.mp h
      obtain ⟨off, rfl, hoff⟩ := List.map_eq_singleton_iff.mp htail
      obtain ⟨honFrom, honKind, honTime, honPitch, -⟩ := hfrom hon
      obtain ⟨hoffFrom, hoffKind, hoffTime, hoffPitch, -⟩ := hfrom hoff
      refine .note hsymbol hnote hpitch honFrom ?_ honTime honPitch hoffFrom ?_ hoffTime hoffPitch
      · rw [honKind]
        split <;> simp
      · rw [hoffKind]
        split <;> simp
    · next hpitch =>
      split at h
      · next hvisible =>
        obtain ⟨on, _, rfl, hon, htail⟩ := List.map_eq_cons_iff.mp h
        obtain ⟨off, rfl, hoff⟩ := List.map_eq_singleton_iff.mp htail
        obtain ⟨honFrom, honKind, honTime, -, -⟩ := hfrom hon
        obtain ⟨hoffFrom, hoffKind, hoffTime, -, -⟩ := hfrom hoff
        exact .visibleRest hsymbol hnote hpitch hvisible honFrom honKind honTime hoffFrom hoffKind
          hoffTime
      · next hvisible =>
        obtain rfl := List.map_eq_nil_iff.mp h
        exact .invisibleRest hsymbol hnote hpitch (by simpa using hvisible)
  · next meter hsymbol =>
    obtain ⟨change, rfl, hchange⟩ := List.map_eq_singleton_iff.mp h
    obtain ⟨hfromObject, hkind, htime, -, hrhythm⟩ := hfrom hchange
    exact .meter hsymbol hfromObject hkind htime hrhythm
  · next hnote hmeter =>
    obtain rfl := List.map_eq_nil_iff.mp h
    exact .silent hnote hmeter

theorem selects_of_map_eq {instruments : List (Instrument τ)} {programs : List (SoundEvent τ)}
    (h : programs.map SoundEvent.withoutDelta = instruments.map fun i => programChange i.midi) :
    List.Forall₂ SoundEvent.Selects instruments programs := by
  induction instruments generalizing programs with
  | nil => exact List.map_eq_nil_iff.mp h ▸ .nil
  | cons i rest ih =>
      obtain ⟨e, programs, rfl, he, hrest⟩ := List.map_eq_cons_iff.mp h
      refine .cons ⟨congrArg SoundEvent.kind he, congrArg SoundEvent.channel he,
        congrArg SoundEvent.program he, congrArg SoundEvent.object he⟩ (ih hrest)

/-- The order of time only rearranges the objects of each instrument. -/
theorem partEvents_perm (score : Score τ) : (partEvents score).Perm
    (score.places.flatMap fun place => objectEvents score place.2.1.midi place.2.2 place.1) := by
  rw [partEvents, Score.places, List.flatMap_assoc]
  apply List.Perm.flatMap_left
  rintro ⟨i, number⟩ -
  rw [List.flatMap_map]
  exact (stableSort_perm _ i.timeline.zipIdx).flatMap_right _

/-- A list whose image is made of parts is itself made of parts. -/
theorem exists_parts_of_map_eq_flatMap {α β γ : Type} {f : α → β} {g : γ → List β}
    {r : γ → List α → Prop} {places : List γ} {xs : List α} (h : xs.map f = places.flatMap g)
    (hr : ∀ place ∈ places, ∀ part, part.map f = g place → r place part) :
    ∃ parts : List (List α), xs = parts.flatten ∧ List.Forall₂ r places parts := by
  induction places generalizing xs with
  | nil => exact ⟨[], by simpa using h, .nil⟩
  | cons place places ih =>
      rw [List.flatMap_cons] at h
      obtain ⟨front, rest, rfl, hfront, hrest⟩ := List.map_eq_append_iff.mp h
      obtain ⟨parts, rfl, hparts⟩ := ih hrest fun other hother => hr other (by simp [hother])
      exact ⟨front :: parts, rfl, .cons (hr place (by simp) front hfront) hparts⟩

/-- The events of a score are those of its instruments and objects, each once, and the end. Analysed
scores have their notes. -/
theorem SoundTable.accountsFor_events {score : Score τ} (h : score.HasItsNotes) :
    score.AccountsFor (ofScore score).events := by
  have hperm : ((score.instruments.map fun i : Instrument τ => programChange i.midi) ++
      partEvents score ++ [endOfScore score]).Perm
        ((soundEvents score).map SoundEvent.withoutDelta) := by
    rw [map_withoutDelta_soundEvents, ← unorderedEvents_eq]
    exact (stableSort_perm _ _).symm
  have hplaces := (((partEvents_perm score).symm.append_left
    (score.instruments.map fun i : Instrument τ => programChange i.midi)).append_right
      [endOfScore score]).trans hperm
  -- the same rearrangement of the events with the times since the one before
  obtain ⟨events, hmap, hevents⟩ :=
    (congrFun₂ (List.eq_map_comp_perm SoundEvent.withoutDelta) _ _).mpr hplaces
  obtain ⟨front, tail, rfl, hfront, htail⟩ := List.map_eq_append_iff.mp hmap.symm
  obtain ⟨programs, inner, rfl, hprograms, hinner⟩ := List.map_eq_append_iff.mp hfront
  obtain ⟨last, rfl, hlast⟩ := List.map_eq_singleton_iff.mp htail
  obtain ⟨parts, rfl, hparts⟩ :=
    exists_parts_of_map_eq_flatMap hinner fun place hplace part hpart =>
      Score.emits_of_map_eq (fun number => h.exists_note (mem_of_mem_places hplace).1
        (mem_of_mem_places hplace).2) hpart
  exact ⟨programs, parts, last, hevents.symm, selects_of_map_eq hprograms, hparts,
    congrArg SoundEvent.kind hlast, congrArg SoundEvent.object hlast⟩

/-- A tie, rests that are visible and not, a time signature and objects without events. -/
def everyKind : Node :=
  let here : Position := ⟨1, 1⟩
  let word (text : String) : Node := .atom .label text here
  let number (text : String) : Node := .atom .number text here
  let tie (role : String) : Node := .element .tie [word role] here
  .element .score
    [.element .instrument [.element .music
      [.element .clef [word "G"] here, .element .time [number "6", number "8"] here,
        .element .note [word "c4", word "q.", tie "start"] here,
        .element .note [word "c4", word "e", tie "stop"] here,
        .element .rest [word "q"] here, .element .barline [] here] here] here,
    .element .instrument [.element .midi [number "40", number "1"] here, .element .music
      [.element .rest [word "q", word "noVisible"] here,
        .element .note [word "e4", word "q"] here] here] here] here

theorem accountsFor_events_everyKind :
    ∃ analysis : Analysis Rat, analyse {} everyKind = .ok analysis ∧
      ∃ score ∈ analysis.document.scores, score.HasItsNotes ∧
        (SoundTable.ofScore score).events.map (fun e => (e.kind, e.channel, e.time, e.object)) =
          [(.programChange, 0, 0, none), (.programChange, 1, 0, none),
            (.rhythmChange, 0, 0, some ⟨0, 1⟩), (.noteOn, 0, 0, some ⟨0, 2⟩),
            (.noteOn, 1, 64, some ⟨1, 1⟩), (.visualOff, 0, 96, some ⟨0, 2⟩),
            (.visualOn, 0, 96, some ⟨0, 3⟩), (.noteOff, 0, 128, some ⟨0, 3⟩),
            (.noteOff, 1, 128, some ⟨1, 1⟩), (.visualOn, 0, 128, some ⟨0, 4⟩),
            (.visualOff, 0, 192, some ⟨0, 4⟩), (.endOfScore, 0, 192, none)] ∧
        score.AccountsFor (SoundTable.ofScore score).events := by
  have h : (analyse {} everyKind : Except CompileError (Analysis Rat)) = .ok _ := rfl
  refine ⟨_, h, _, List.mem_singleton.mpr rfl, ?_⟩
  refine ⟨hasItsNotes_of_analyse h (List.mem_singleton.mpr rfl), by decide +kernel, ?_⟩
  exact SoundTable.accountsFor_events (hasItsNotes_of_analyse h (List.mem_singleton.mpr rfl))

end ScorePlayback
