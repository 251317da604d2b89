import Mathlib.Data.List.Perm.Basic
import ScorePlayback.Proofs.Sound.EventOrder

/-! # What is heard of a score

Where no relation joins notes, what a score sounds like depends only on the objects of its
instruments in the order of time, with the pitch and the visibility of each note. The numbers of
notes, their staves and positions, and the order in which they are written do not matter. -/

namespace ScorePlayback

open TimeValue (NotLater)

/-! ## Objects -/

/-- A note has what is heard of it in place of its number. -/
inductive HeardSymbol where
  | note (pitch : Option Pitch) (visible : Bool)
  | sign (symbol : StaffSymbol)

structure HeardObject (τ : Type) where
  time : τ
  duration : τ
  measure : Nat
  voice : Nat
  symbol : HeardSymbol

section

variable {τ : Type} [TimeValue τ]

namespace HeardObject

def finish (o : HeardObject τ) : τ := o.time + o.duration

/-- An event of an object of an instrument. -/
def event (midi : MidiInfo) (number : Nat) (o : HeardObject τ) (kind : EventKind) (time : τ)
    (pitch : Nat) (rhythm : Option (Rhythm τ)) : SoundEvent τ :=
  ⟨kind, time, TimeValue.zero, midi.channel, midi.program, pitch, o.measure, some ⟨number, 0⟩,
    rhythm⟩

def events (midi : MidiInfo) (number : Nat) (o : HeardObject τ) : List (SoundEvent τ) :=
  let event := o.event midi number
  match o.symbol with
  | .note (some pitch) _ =>
    [event .noteOn o.time pitch.midi none, event .noteOff o.finish pitch.midi none]
  | .note none true => [event .visualOn o.time 0 none, event .visualOff o.finish 0 none]
  | .note none false => []
  | .sign (.meter meter) =>
    [event .rhythmChange o.time 0 (some ⟨meter.pulses, meter.measureDuration⟩)]
  | .sign _ => []

omit [TimeValue τ] in
/-- What an object says about repeats. -/
def mark? (o : HeardObject τ) : Option RepeatMark :=
  match o.symbol with
  | .note _ _ => some (.music o.measure)
  | .sign (.volta ending span) => some (.volta ending o.measure span)
  | .sign (.barline shape times) => some (.barline shape o.measure times)
  | .sign _ => none

/-- Objects in the order of time and voice. -/
def inOrder (objects : List (HeardObject τ)) : List (HeardObject τ) :=
  stableSort (TimeValue.notAfter HeardObject.time HeardObject.voice) objects

end HeardObject

/-- What is heard of a symbol, where a note is heard with its pitch and its visibility. -/
def StaffSymbol.heard (notes : List (NoteRest τ)) : StaffSymbol → HeardSymbol
  | .noteRest number =>
    .note (notes[number]?.bind NoteRest.pitch) (notes[number]?.any NoteRest.visible)
  | symbol => .sign symbol

def StaffObject.heard (notes : List (NoteRest τ)) (object : StaffObject τ) : HeardObject τ :=
  ⟨object.time, object.duration, object.measure, object.voice, object.symbol.heard notes⟩

omit [TimeValue τ] in
@[simp] theorem StaffObject.time_heard (notes : List (NoteRest τ)) (object : StaffObject τ) :
    (object.heard notes).time = object.time := rfl

@[simp] theorem StaffObject.finish_heard (notes : List (NoteRest τ)) (object : StaffObject τ) :
    (object.heard notes).finish = object.finish := rfl

omit [TimeValue τ] in
@[simp] theorem StaffObject.measure_heard (notes : List (NoteRest τ)) (object : StaffObject τ) :
    (object.heard notes).measure = object.measure := rfl

/-! ## Instruments and scores -/

structure HeardInstrument (τ : Type) where
  midi : MidiInfo
  objects : List (HeardObject τ)

def Score.heard (score : Score τ) : List (HeardInstrument τ) :=
  score.instruments.map fun i => ⟨i.midi, i.timeline.map (StaffObject.heard score.notes)⟩

/-- The objects of each instrument in the order of time. -/
def HeardInstrument.inOrder (i : HeardInstrument τ) : HeardInstrument τ :=
  { i with objects := HeardObject.inOrder i.objects }

/-- An event without the index of its object in the timeline. -/
def SoundEvent.withoutIndex (e : SoundEvent τ) : SoundEvent τ :=
  { e with object := e.object.map fun ref => { ref with index := 0 } }

/-- A table without the indices of objects in their timelines. -/
def SoundTable.withoutIndices (t : SoundTable τ) : SoundTable τ :=
  { t with events := t.events.map SoundEvent.withoutIndex }

/-! ## The parts of a table -/

namespace Score

variable {score : Score τ}

section

omit [TimeValue τ]

theorem relationsOf_eq_nil (h : score.relations = []) (note : Nat) :
    score.relationsOf note = [] := by
  unfold relationsOf
  split
  · simp [h]
  · rfl

theorem soundStarted_eq_false (h : score.relations = []) (note : Nat) :
    score.soundStarted note = false := by
  rw [soundStarted, tieBefore?, relationsOf_eq_nil h]
  rfl

theorem soundGoesOn_eq_false (h : score.relations = []) (note : Nat) :
    score.soundGoesOn note = false := by
  rw [soundGoesOn, tieAfter?, relationsOf_eq_nil h]
  rfl

end

/-- The events of an object come from what is heard of it. -/
theorem map_withoutIndex_objectEvents (h : score.relations = []) (midi : MidiInfo)
    (object : StaffObject τ) (ref : ObjectRef) :
    (objectEvents score midi object ref).map SoundEvent.withoutIndex =
      (object.heard score.notes).events midi ref.instrument := by
  have hevent (kind : EventKind) (time : τ) (pitch : Nat) (rhythm : Option (Rhythm τ)) :
      (objectEvent midi object ref kind time pitch rhythm).withoutIndex =
        (object.heard score.notes).event midi ref.instrument kind time pitch rhythm := rfl
  unfold objectEvents HeardObject.events
  cases hsymbol : object.symbol with
  | noteRest number =>
      have hheard : (object.heard score.notes).symbol =
          .note (score.notes[number]?.bind NoteRest.pitch)
            (score.notes[number]?.any NoteRest.visible) := by
        rw [StaffObject.heard, hsymbol, StaffSymbol.heard]
      cases hnote : score.notes[number]? with
      | none => simp [hheard, hnote]
      | some note =>
          cases hpitch : note.pitch with
          | some pitch =>
              simp [hheard, hnote, hpitch, hevent, soundStarted_eq_false h, soundGoesOn_eq_false h]
          | none =>
              cases hvisible : note.visible
              · simp [hheard, hnote, hpitch, hvisible]
              · simp [hheard, hnote, hpitch, hvisible, hevent]
  | _ => simp [StaffObject.heard, StaffSymbol.heard, hsymbol, hevent]

omit [TimeValue τ] in
theorem mark?_heard (notes : List (NoteRest τ)) (object : StaffObject τ) :
    (object.heard notes).mark? = RepeatMark.ofObject? object := by
  unfold RepeatMark.ofObject? HeardObject.mark? StaffObject.heard
  cases object.symbol <;> rfl

theorem map_heard_inTimeOrder (notes : List (NoteRest τ)) (timeline : List (StaffObject τ)) :
    (inTimeOrder timeline).map (fun e => e.1.heard notes) =
      HeardObject.inOrder (timeline.map (StaffObject.heard notes)) := by
  have hkeys (a b : StaffObject τ × Nat) :
      TimeValue.notAfter HeardObject.time HeardObject.voice (a.1.heard notes) (b.1.heard notes) =
        TimeValue.notAfter (fun e : StaffObject τ × Nat => e.1.time) (fun e => e.1.voice) a b := rfl
  have hobjects : timeline.zipIdx.map (fun e => e.1.heard notes) =
      timeline.map (StaffObject.heard notes) := by
    conv_rhs => rw [← List.zipIdx_map_fst 0 timeline, List.map_map]
    rfl
  rw [inTimeOrder, map_stableSort hkeys, hobjects, HeardObject.inOrder]

theorem map_withoutIndex_partEvents (h : score.relations = []) :
    (partEvents score).map SoundEvent.withoutIndex =
      (score.heard.map HeardInstrument.inOrder).zipIdx.flatMap fun (i, number) =>
        i.objects.flatMap (HeardObject.events i.midi number) := by
  have hinstrument (i : Instrument τ) (number : Nat) :
      (instrumentEvents score i number).map SoundEvent.withoutIndex =
        (HeardObject.inOrder (i.timeline.map (StaffObject.heard score.notes))).flatMap
          (HeardObject.events i.midi number) := by
    rw [instrumentEvents, List.map_flatMap, ← map_heard_inTimeOrder, List.flatMap_map]
    exact List.flatMap_congr fun e _ => map_withoutIndex_objectEvents h i.midi e.1 ⟨number, e.2⟩
  rw [partEvents, List.map_flatMap, heard, List.map_map, List.zipIdx_map, List.flatMap_map]
  exact List.flatMap_congr fun e _ => hinstrument e.1 e.2

omit [TimeValue τ] in
theorem lastMeasure_eq (score : Score τ) :
    lastMeasure score =
      (score.heard.flatMap fun i => i.objects.map HeardObject.measure).foldl max 0 := by
  rw [lastMeasure, heard, List.flatMap_map]
  simp [Function.comp_def]

theorem endTime_eq (score : Score τ) :
    endTime score = (score.heard.flatMap fun i => i.objects.map HeardObject.finish).foldl
      TimeValue.later TimeValue.zero := by
  rw [endTime, heard, List.flatMap_map]
  simp [Function.comp_def]

theorem repeatMarks_eq_heard (score : Score τ) :
    repeatMarks score = (score.heard.map HeardInstrument.inOrder).head?.toList.flatMap fun i =>
      i.objects.filterMap HeardObject.mark? := by
  unfold repeatMarks heard
  cases score.instruments with
  | nil => rfl
  | cons first rest =>
      simp [HeardInstrument.inOrder, ← map_heard_inTimeOrder, List.filterMap_map,
        Function.comp_def, mark?_heard]

end Score

theorem map_withoutIndex_withDeltas (previous : τ) (events : List (SoundEvent τ)) :
    (withDeltas previous events).map SoundEvent.withoutIndex =
      withDeltas previous (events.map SoundEvent.withoutIndex) := by
  induction events generalizing previous with
  | nil => rfl
  | cons e rest ih => rw [withDeltas, List.map_cons, ih]; rfl

theorem map_withoutIndex_soundEvents (score : Score τ) :
    (soundEvents score).map SoundEvent.withoutIndex =
      withDeltas TimeValue.zero
        (inEventOrder ((unorderedEvents score).map SoundEvent.withoutIndex)) := by
  have hkeys (a b : SoundEvent τ) :
      TimeValue.notAfter SoundEvent.time (fun e => e.kind.rank) a.withoutIndex b.withoutIndex =
        TimeValue.notAfter SoundEvent.time (fun e => e.kind.rank) a b := rfl
  rw [soundEvents, map_withoutIndex_withDeltas, map_stableSort hkeys, inEventOrder]

/-! ## The table -/

/-- Which time is the latest one does not depend on the order of the times. -/
theorem foldl_later_perm [ComparableTime τ] {times times' : List τ} (h : times.Perm times')
    {start : τ} (hstart : NotLater TimeValue.zero start) :
    times.foldl TimeValue.later start = times'.foldl TimeValue.later start := by
  induction h generalizing start with
  | nil => rfl
  | cons time _ ih => exact ih (OrderedTime.trans hstart (ComparableTime.left_le_later _ _))
  | swap time time' rest =>
      rw [List.foldl_cons, List.foldl_cons, ComparableTime.later_right_comm hstart]
      rfl
  | trans _ _ ih ih' => exact (ih hstart).trans (ih' hstart)

namespace Score

variable {score score' : Score τ}

/-- In the order of time there are the same objects. -/
theorem flatMap_inOrder_perm {α : Type} (f : HeardObject τ → α) (score : Score τ) :
    ((score.heard.map HeardInstrument.inOrder).flatMap fun i => i.objects.map f).Perm
      (score.heard.flatMap fun i => i.objects.map f) := by
  rw [List.flatMap_map]
  exact List.Perm.flatMap_left _ fun i _ => (stableSort_perm _ i.objects).map f

theorem lastMeasure_congr
    (h : score.heard.map HeardInstrument.inOrder = score'.heard.map HeardInstrument.inOrder) :
    lastMeasure score = lastMeasure score' := by
  rw [lastMeasure_eq, lastMeasure_eq,
    ← (flatMap_inOrder_perm HeardObject.measure score).foldl_eq, h,
    (flatMap_inOrder_perm HeardObject.measure score').foldl_eq]

theorem endTime_congr [ComparableTime τ]
    (h : score.heard.map HeardInstrument.inOrder = score'.heard.map HeardInstrument.inOrder) :
    endTime score = endTime score' := by
  have hzero : NotLater (TimeValue.zero : τ) TimeValue.zero := OrderedTime.refl _
  rw [endTime_eq, endTime_eq,
    ← foldl_later_perm (flatMap_inOrder_perm HeardObject.finish score) hzero, h,
    foldl_later_perm (flatMap_inOrder_perm HeardObject.finish score') hzero]

/-- Scores without relations have the same table, up to the indices of objects, if the same is
heard of them in the order of time. -/
theorem withoutIndices_ofScore_congr [ComparableTime τ] (hscore : score.relations = [])
    (hscore' : score'.relations = [])
    (h : score.heard.map HeardInstrument.inOrder = score'.heard.map HeardInstrument.inOrder) :
    (SoundTable.ofScore score).withoutIndices = (SoundTable.ofScore score').withoutIndices := by
  have hprograms : score.instruments.map (fun i => programChange (τ := τ) i.midi) =
      score'.instruments.map fun i => programChange i.midi := by
    have hmidi := congrArg (List.map fun i => programChange (τ := τ) i.midi) h
    simpa [heard, Function.comp_def, HeardInstrument.inOrder] using hmidi
  have hunordered : (unorderedEvents score).map SoundEvent.withoutIndex =
      (unorderedEvents score').map SoundEvent.withoutIndex := by
    have hend : endOfScore score = endOfScore score' := by
      rw [endOfScore, endOfScore, endTime_congr h, lastMeasure_congr h]
    rw [unorderedEvents_eq, unorderedEvents_eq, hprograms, hend]
    simp only [List.map_append, map_withoutIndex_partEvents hscore,
      map_withoutIndex_partEvents hscore', h]
  have hevents : (soundEvents score).map SoundEvent.withoutIndex =
      (soundEvents score').map SoundEvent.withoutIndex := by
    rw [map_withoutIndex_soundEvents, map_withoutIndex_soundEvents, hunordered]
  have hmeasures : (soundEvents score).map SoundEvent.measure =
      (soundEvents score').map SoundEvent.measure := by
    have hmeasure := congrArg (List.map SoundEvent.measure) hevents
    rwa [List.map_map, List.map_map] at hmeasure
  have hmarks : repeatMarks score = repeatMarks score' := by
    rw [repeatMarks_eq_heard, repeatMarks_eq_heard, h]
  simp only [SoundTable.ofScore, SoundTable.withoutIndices, hevents, hmeasures, hmarks,
    lastMeasure_congr h]

end Score

end

end ScorePlayback
