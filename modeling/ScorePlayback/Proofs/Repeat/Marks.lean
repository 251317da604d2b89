import Mathlib.Data.List.Basic
import ScorePlayback.Proofs.StableSort
import ScorePlayback.Proofs.Time.Order
import ScorePlayback.Repeat.Plan

/-! # The order of the marks

Marks are read in the order of time. Marks of one kind that are written in this order keep it,
whatever else is on the timeline. -/

namespace ScorePlayback

variable {τ : Type} [TimeValue τ]

open TimeValue (NotLater)

def RepeatMark.measure : RepeatMark → Nat
  | .volta _ measure _ => measure
  | .music measure => measure
  | .barline _ measure _ => measure

def RepeatMark.isVolta : RepeatMark → Bool
  | .volta _ _ _ => true
  | _ => false

def RepeatMark.isBarline : RepeatMark → Bool
  | .barline _ _ _ => true
  | _ => false

omit [TimeValue τ] in
theorem RepeatMark.measure_of_ofObject? {object : StaffObject τ} {mark : RepeatMark}
    (h : ofObject? object = some mark) : mark.measure = object.measure := by
  unfold ofObject? at h
  split at h
  all_goals simp only [Option.some.injEq, reduceCtorEq] at h
  all_goals exact h ▸ rfl

/-- Time and voice let one object stand before the other. -/
def StaffObject.MayPrecede (a b : StaffObject τ) : Prop := NotLater a.time b.time ∧ a.voice ≤ b.voice

theorem StaffObject.MayPrecede.notAfter {a b : StaffObject τ} (h : a.MayPrecede b) :
    TimeValue.notAfter StaffObject.time StaffObject.voice a b = true := by
  obtain ⟨htime, hvoice⟩ := h
  unfold NotLater at htime
  unfold TimeValue.notAfter
  split
  · rfl
  · simpa using hvoice
  · next hgt => exact absurd hgt htime

theorem foldl_max_le_iff {numbers : List Nat} {start bound : Nat} :
    numbers.foldl max start ≤ bound ↔ start ≤ bound ∧ ∀ n ∈ numbers, n ≤ bound := by
  induction numbers generalizing start with
  | nil => simp
  | cons n numbers ih =>
      rw [List.foldl_cons, ih, Nat.max_le, List.forall_mem_cons, and_assoc]

/-- The timeline of the first instrument, which alone says what is repeated. -/
def Score.firstTimeline (score : Score τ) : List (StaffObject τ) :=
  match score.instruments with
  | [] => []
  | first :: _ => first.timeline

/-- The measures of the first instrument never decrease in the order of time. -/
def Score.AscendsInTime (score : Score τ) : Prop :=
  (inTimeOrder score.firstTimeline).Pairwise fun a b => a.1.measure ≤ b.1.measure

omit [TimeValue τ] in
/-- The last measure is that of the first instrument, if no other one goes on behind it. -/
theorem lastMeasure_eq {score : Score τ} {last : Nat}
    (hle : ∀ object ∈ score.firstTimeline, object.measure ≤ last)
    (hlast : 0 < last → ∃ object ∈ score.firstTimeline, object.measure = last)
    (hothers : ∀ i ∈ score.instruments.tail, ∀ object ∈ i.timeline, object.measure ≤ last) :
    lastMeasure score = last := by
  have hall {bound : Nat} : lastMeasure score ≤ bound ↔
      ∀ i ∈ score.instruments, ∀ object ∈ i.timeline, object.measure ≤ bound := by
    rw [lastMeasure, foldl_max_le_iff, List.forall_mem_flatMap]
    simp only [List.forall_mem_map, Nat.zero_le, true_and]
  unfold Score.firstTimeline at hle hlast
  refine Nat.le_antisymm (hall.mpr fun i hi => ?_) ?_
  · split at hle
    · next hnone => simp [hnone] at hi
    · next first rest hinstruments =>
      rw [hinstruments] at hi hothers
      rcases List.mem_cons.mp hi with rfl | hi
      · exact hle
      · exact hothers i hi
  · rcases Nat.eq_zero_or_pos last with rfl | hpos
    · exact Nat.zero_le _
    · obtain ⟨object, hobject, rfl⟩ := hlast hpos
      split at hobject
      · cases hobject
      · next first rest hinstruments =>
        exact hall.mp (Nat.le_refl _) first (by simp [hinstruments]) object hobject

theorem repeatMarks_eq (score : Score τ) :
    repeatMarks score =
      ((inTimeOrder score.firstTimeline).map Prod.fst).filterMap RepeatMark.ofObject? := by
  unfold repeatMarks Score.firstTimeline
  cases score.instruments with
  | nil => rfl
  | cons first rest => rw [List.filterMap_map]; rfl

theorem Score.AscendsInTime.pairwise_repeatMarks {score : Score τ} (h : score.AscendsInTime) :
    (repeatMarks score).Pairwise fun a b => a.measure ≤ b.measure := by
  rw [repeatMarks_eq, List.pairwise_filterMap, List.pairwise_map]
  refine h.imp fun hab mark hmark mark' hmark' => ?_
  rwa [RepeatMark.measure_of_ofObject? hmark, RepeatMark.measure_of_ofObject? hmark']

theorem filter_inTimeOrder {timeline : List (StaffObject τ)} {p : StaffObject τ → Bool}
    (h : (timeline.filter p).Pairwise StaffObject.MayPrecede) :
    ((inTimeOrder timeline).map Prod.fst).filter p = timeline.filter p := by
  have hfst : (timeline.zipIdx.filter (p ∘ Prod.fst)).map Prod.fst = timeline.filter p := by
    rw [← List.filter_map, List.zipIdx_map_fst]
  have hsorted : (timeline.zipIdx.filter (p ∘ Prod.fst)).Pairwise fun a b =>
      TimeValue.notAfter (fun e => e.1.time) (fun e => e.1.voice) a b = true := by
    rw [← hfst, List.pairwise_map] at h
    exact h.imp fun hab => hab.notAfter
  rw [List.filter_map, inTimeOrder, filter_stableSort hsorted, hfst]

/-- Objects that may stand in the order in which they are written keep it, if `r` forbids to
exchange them. -/
theorem pairwise_inTimeOrder_not {timeline : List (StaffObject τ)}
    {r : StaffObject τ → StaffObject τ → Prop}
    (hprecede : timeline.Pairwise fun a b => r a b → a.MayPrecede b)
    (hbefore : timeline.Pairwise fun a b => ¬ r b a) :
    ((inTimeOrder timeline).map Prod.fst).Pairwise fun a b => ¬ r b a := by
  rw [← List.zipIdx_map_fst 0 timeline, List.pairwise_map] at hprecede hbefore
  rw [List.pairwise_map]
  exact stableSort_pairwise_not (r := fun x y => r x.1 y.1)
    (hprecede.imp fun hxy hr => (hxy hr).notAfter) hbefore

/-- The marks of the first instrument, in the order in which they are written. -/
def writtenMarks (score : Score τ) : List RepeatMark :=
  score.firstTimeline.filterMap RepeatMark.ofObject?

theorem repeatMarks_perm (score : Score τ) : (repeatMarks score).Perm (writtenMarks score) := by
  rw [repeatMarks_eq, writtenMarks]
  refine List.Perm.filterMap _ ?_
  have h := (stableSort_perm (TimeValue.notAfter (fun e => e.1.time) (fun e => e.1.voice))
    score.firstTimeline.zipIdx).map Prod.fst
  rwa [List.zipIdx_map_fst] at h

theorem exists_object_of_mem_repeatMarks {score : Score τ} {mark : RepeatMark}
    (h : mark ∈ repeatMarks score) :
    ∃ object ∈ score.firstTimeline, RepeatMark.ofObject? object = some mark :=
  List.mem_filterMap.mp ((repeatMarks_perm score).mem_iff.mp h)

omit [TimeValue τ] in
theorem filter_filterMap_ofObject? (q : RepeatMark → Bool) (objects : List (StaffObject τ)) :
    (objects.filterMap RepeatMark.ofObject?).filter q =
      (objects.filter fun object => (RepeatMark.ofObject? object).any q).filterMap
        RepeatMark.ofObject? := by
  rw [List.filter_filterMap, List.filterMap_filter]
  refine List.filterMap_congr fun object _ => ?_
  cases RepeatMark.ofObject? object with
  | none => rfl
  | some mark => simp [Option.filter]

/-- Marks whose objects stand in order on the timeline are read in this order. -/
theorem filter_repeatMarks (score : Score τ) {q : RepeatMark → Bool}
    (h : (score.firstTimeline.filter fun object => (RepeatMark.ofObject? object).any q).Pairwise
      StaffObject.MayPrecede) :
    (repeatMarks score).filter q = (writtenMarks score).filter q := by
  rw [repeatMarks_eq, writtenMarks, filter_filterMap_ofObject?, filter_filterMap_ofObject?,
    filter_inTimeOrder h]

end ScorePlayback
