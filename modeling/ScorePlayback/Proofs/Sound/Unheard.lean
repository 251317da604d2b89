import Mathlib.Data.List.Basic
import ScorePlayback.Proofs.Sound.Emission
import ScorePlayback.Proofs.StableSort
import ScorePlayback.SoundTable

/-! # What is not heard

A sound table is made of the pitches, the visibility and the relations of notes, and of the times,
symbols, measures and voices of staff objects. Whatever else is changed of them is not heard. -/

namespace ScorePlayback

variable {τ : Type}

/-- A change of notes that keeps all that is heard of them. -/
structure NoteRest.Unheard (g : NoteRest τ → NoteRest τ) : Prop where
  pitch (n : NoteRest τ) : (g n).pitch = n.pitch
  visible (n : NoteRest τ) : (g n).visible = n.visible
  relations (n : NoteRest τ) : (g n).relations = n.relations

/-- A change of staff objects that keeps all that is heard of them. -/
structure StaffObject.Unheard (k : StaffObject τ → StaffObject τ) : Prop where
  time (object : StaffObject τ) : (k object).time = object.time
  duration (object : StaffObject τ) : (k object).duration = object.duration
  symbol (object : StaffObject τ) : (k object).symbol = object.symbol
  measure (object : StaffObject τ) : (k object).measure = object.measure
  voice (object : StaffObject τ) : (k object).voice = object.voice

def Instrument.mapObjects (k : StaffObject τ → StaffObject τ) (i : Instrument τ) : Instrument τ :=
  { i with timeline := i.timeline.map k }

/-- The score with its notes and its staff objects changed. -/
def Score.mapParts (g : NoteRest τ → NoteRest τ) (k : StaffObject τ → StaffObject τ)
    (score : Score τ) : Score τ :=
  { score with
    instruments := score.instruments.map (Instrument.mapObjects k)
    notes := score.notes.map g }

section

variable {g : NoteRest τ → NoteRest τ} {k : StaffObject τ → StaffObject τ}
  (hg : NoteRest.Unheard g) (hk : StaffObject.Unheard k) (score : Score τ)

/-! ## Notes -/

include hg

theorem relationsOf_mapParts (note : Nat) :
    (score.mapParts g k).relationsOf note = score.relationsOf note := by
  simp only [Score.relationsOf, Score.mapParts, List.getElem?_map]
  cases score.notes[note]? with
  | none => rfl
  | some n => simp [hg.relations]

theorem sameKey_mapParts : (score.mapParts g k).sameKey = score.sameKey := by
  have hpitch (note : Nat) : (score.mapParts g k).notes[note]?.bind NoteRest.pitch =
      score.notes[note]?.bind NoteRest.pitch := by
    simp only [Score.mapParts, List.getElem?_map, Option.bind_map, Function.comp_def, hg.pitch]
  funext a b
  simp only [Score.sameKey, hpitch]

variable [TimeValue τ]

include hk

theorem objectEvents_mapParts (midi : MidiInfo) (object : StaffObject τ) (ref : ObjectRef) :
    objectEvents (score.mapParts g k) midi (k object) ref = objectEvents score midi object ref := by
  have hstarted (note : Nat) :
      (score.mapParts g k).soundStarted note = score.soundStarted note := by
    simp only [Score.soundStarted, Score.tieBefore?, relationsOf_mapParts hg, sameKey_mapParts hg]
  have hgoesOn (note : Nat) : (score.mapParts g k).soundGoesOn note = score.soundGoesOn note := by
    simp only [Score.soundGoesOn, Score.tieAfter?, relationsOf_mapParts hg, sameKey_mapParts hg]
  have hevent : objectEvent midi (k object) ref = objectEvent midi object ref := by
    unfold objectEvent
    rw [hk.measure]
  have hfinish : (k object).finish = object.finish := by
    rw [StaffObject.finish, hk.time, hk.duration, StaffObject.finish]
  unfold objectEvents
  simp only [hstarted, hgoesOn, hevent, hfinish, hk.symbol, hk.time]
  cases object.symbol with
  | noteRest number =>
      simp only [Score.mapParts, List.getElem?_map]
      cases score.notes[number]? with
      | none => rfl
      | some n => simp [hg.pitch, hg.visible]
  | _ => rfl

/-! ## Timelines -/

omit hg in
theorem inTimeOrder_map (timeline : List (StaffObject τ)) :
    inTimeOrder (timeline.map k) = (inTimeOrder timeline).map (Prod.map k id) := by
  have hkeys (a b : StaffObject τ × Nat) :
      TimeValue.notAfter (fun e => e.1.time) (fun e => e.1.voice) (Prod.map k id a) (Prod.map k id b) =
        TimeValue.notAfter (fun e => e.1.time) (fun e => e.1.voice) a b := by
    simp [TimeValue.notAfter, hk.time, hk.voice]
  rw [inTimeOrder, inTimeOrder, map_stableSort hkeys, List.zipIdx_map]

theorem instrumentEvents_mapParts (i : Instrument τ) (number : Nat) :
    instrumentEvents (score.mapParts g k) (i.mapObjects k) number =
      instrumentEvents score i number := by
  unfold instrumentEvents
  rw [Instrument.mapObjects, inTimeOrder_map hk, List.flatMap_map]
  exact List.flatMap_congr fun e _ => objectEvents_mapParts hg hk score i.midi e.1 _

omit hg [TimeValue τ] in
theorem lastMeasure_mapParts : lastMeasure (score.mapParts g k) = lastMeasure score := by
  simp [lastMeasure, Score.mapParts, Instrument.mapObjects, List.flatMap_map, Function.comp_def,
    hk.measure]

omit hg in
theorem endTime_mapParts : endTime (score.mapParts g k) = endTime score := by
  have hfinish : StaffObject.finish ∘ k = StaffObject.finish := by
    funext object
    simp [StaffObject.finish, hk.time, hk.duration]
  simp [endTime, Score.mapParts, Instrument.mapObjects, List.flatMap_map, hfinish]

theorem unorderedEvents_mapParts :
    unorderedEvents (score.mapParts g k) = unorderedEvents score := by
  have hparts : partEvents (score.mapParts g k) = partEvents score := by
    unfold partEvents
    rw [Score.mapParts, List.zipIdx_map, List.flatMap_map]
    exact List.flatMap_congr fun e _ => instrumentEvents_mapParts hg hk score e.1 e.2
  have hend : endOfScore (score.mapParts g k) = endOfScore score := by
    rw [endOfScore, endTime_mapParts hk, lastMeasure_mapParts hk, endOfScore]
  have hprograms : (score.mapParts g k).instruments.map (fun i => programChange (τ := τ) i.midi) =
      score.instruments.map fun i => programChange i.midi := by
    simp [Score.mapParts, Instrument.mapObjects, Function.comp_def]
  rw [unorderedEvents_eq, hparts, hend, hprograms, unorderedEvents_eq]

omit hg in
theorem repeatMarks_mapParts : repeatMarks (score.mapParts g k) = repeatMarks score := by
  have hmark (object : StaffObject τ) :
      RepeatMark.ofObject? (k object) = RepeatMark.ofObject? object := by
    rw [RepeatMark.ofObject?, hk.symbol, hk.measure, RepeatMark.ofObject?]
  unfold repeatMarks
  rw [Score.mapParts]
  cases score.instruments with
  | nil => rfl
  | cons first rest =>
      simp [Instrument.mapObjects, inTimeOrder_map hk, List.filterMap_map, hmark]

/-! ## Sound tables -/

theorem ofScore_mapParts :
    SoundTable.ofScore (score.mapParts g k) = SoundTable.ofScore score := by
  unfold SoundTable.ofScore soundEvents
  rw [unorderedEvents_mapParts hg hk, lastMeasure_mapParts hk, repeatMarks_mapParts hk]

end

end ScorePlayback
