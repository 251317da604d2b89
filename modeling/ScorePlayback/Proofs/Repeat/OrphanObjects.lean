import Mathlib.Data.List.Range
import ScorePlayback.Proofs.Repeat.Marks
import ScorePlayback.Proofs.Repeat.Orphans

/-! # Deleting brackets from a score

A bracket that is only noted is an object on the timeline of the first instrument. If these objects
are deleted, the other ones keep their order, and the marks of the score are those without the
brackets. -/

namespace ScorePlayback

variable {τ : Type} [TimeValue τ]

namespace RepeatPlan

section

omit [TimeValue τ]

def marksOf (entries : List (StaffObject τ × Nat)) : List RepeatMark :=
  entries.filterMap fun e => RepeatMark.ofObject? e.1

/-- The places on a timeline of the brackets that are only noted. The objects are in the order of
time. -/
def orphanPlaces : RepeatPlan → List (StaffObject τ × Nat) → List Nat
  | _, [] => []
  | p, (object, place) :: rest =>
    match RepeatMark.ofObject? object with
    | none => orphanPlaces p rest
    | some mark =>
      if mark.isVolta && (p.read mark).isOrphaned (marksOf rest) then
        place :: orphanPlaces (p.read mark) rest
      else orphanPlaces (p.read mark) rest

theorem orphanPlaces_cons_none {e : StaffObject τ × Nat} (h : RepeatMark.ofObject? e.1 = none)
    (p : RepeatPlan) (rest : List (StaffObject τ × Nat)) :
    orphanPlaces p (e :: rest) = orphanPlaces p rest := by
  rw [orphanPlaces, h]

theorem orphanPlaces_cons_some {e : StaffObject τ × Nat} {mark : RepeatMark}
    (h : RepeatMark.ofObject? e.1 = some mark) (p : RepeatPlan)
    (rest : List (StaffObject τ × Nat)) : orphanPlaces p (e :: rest) =
      if mark.isVolta && (p.read mark).isOrphaned (marksOf rest) then
        e.2 :: orphanPlaces (p.read mark) rest
      else orphanPlaces (p.read mark) rest := by
  rw [orphanPlaces, h]

theorem orphanPlaces_subset (p : RepeatPlan) (entries : List (StaffObject τ × Nat)) :
    orphanPlaces p entries ⊆ entries.map Prod.snd := by
  induction entries generalizing p with
  | nil => exact List.Subset.refl _
  | cons e rest ih =>
      rw [orphanPlaces, List.map_cons]
      split
      · exact List.subset_cons_of_subset _ (ih _)
      · split
        · exact List.cons_subset_cons _ (ih _)
        · exact List.subset_cons_of_subset _ (ih _)

/-- No other object has the place of an object. -/
theorem contains_cons_of_mem {place : Nat} {entries : List (StaffObject τ × Nat)}
    (h : place ∉ entries.map Prod.snd) (places : List Nat) :
    ∀ e ∈ entries, (place :: places).contains e.2 = places.contains e.2 := by
  intro e he
  have hne : e.2 ≠ place := fun heq => h (heq ▸ List.mem_map_of_mem he)
  simp [hne]

/-- The objects at these places have the marks of the brackets that are only noted, and the other
objects have all other marks. -/
theorem marksOf_filter {entries : List (StaffObject τ × Nat)}
    (hplaces : (entries.map Prod.snd).Nodup) (p : RepeatPlan) :
    marksOf (entries.filter fun e => (orphanPlaces p entries).contains e.2) =
        orphans p (marksOf entries) ∧
      marksOf (entries.filter fun e => !(orphanPlaces p entries).contains e.2) =
        withoutOrphans p (marksOf entries) := by
  induction entries generalizing p with
  | nil => exact ⟨rfl, rfl⟩
  | cons e rest ih =>
      obtain ⟨hplace, hrest⟩ := List.nodup_cons.mp hplaces
      have hnot (p : RepeatPlan) : e.2 ∉ orphanPlaces p rest :=
        fun h => hplace (orphanPlaces_subset p rest h)
      have hcons := contains_cons_of_mem hplace
      cases hmark : RepeatMark.ofObject? e.1 with
      | none =>
          have hmarks : marksOf (e :: rest) = marksOf rest := List.filterMap_cons_none hmark
          rw [orphanPlaces_cons_none hmark, hmarks]
          simpa [hnot, marksOf, hmark] using ih hrest p
      | some mark =>
          have hmarks : marksOf (e :: rest) = mark :: marksOf rest :=
            List.filterMap_cons_some hmark
          rw [orphanPlaces_cons_some hmark, hmarks, orphans, withoutOrphans]
          split
          · have hfilter := List.filter_congr (hcons (orphanPlaces (p.read mark) rest))
            have hfilter' := List.filter_congr fun e' he' =>
              congrArg Bool.not (hcons (orphanPlaces (p.read mark) rest) e' he')
            rw [List.filter_cons_of_pos (by simp), List.filter_cons_of_neg (by simp), hfilter,
              hfilter', ← (ih hrest (p.read mark)).1]
            exact ⟨List.filterMap_cons_some hmark, (ih hrest (p.read mark)).2⟩
          · rw [List.filter_cons_of_neg (by simp [hnot]), List.filter_cons_of_pos (by simp [hnot]),
              ← (ih hrest (p.read mark)).2]
            exact ⟨(ih hrest (p.read mark)).1, List.filterMap_cons_some hmark⟩

end

end RepeatPlan

open RepeatPlan (marksOf)

/-! ## Timelines -/

theorem nodup_places (timeline : List (StaffObject τ)) :
    ((inTimeOrder timeline).map Prod.snd).Nodup := by
  have hperm := ((stableSort_perm
    (TimeValue.notAfter (fun e => e.1.time) (fun e => e.1.voice)) timeline.zipIdx).map Prod.snd)
  rw [inTimeOrder, hperm.nodup_iff, List.zipIdx_map_snd]
  exact List.nodup_range'

/-- Objects that are deleted leave the others in their order. -/
theorem map_fst_inTimeOrder_filter [ComparableTime τ] (timeline : List (StaffObject τ))
    (p : StaffObject τ × Nat → Bool) :
    (inTimeOrder ((timeline.zipIdx.filter p).map Prod.fst)).map Prod.fst =
      ((inTimeOrder timeline).filter p).map Prod.fst := by
  have hkeys (a b : StaffObject τ × Nat) :
      TimeValue.notAfter StaffObject.time StaffObject.voice a.1 b.1 =
        TimeValue.notAfter (fun e : StaffObject τ × Nat => e.1.time) (fun e => e.1.voice) a b := rfl
  rw [inTimeOrder, map_stableSort hkeys, List.zipIdx_map_fst, ← map_stableSort hkeys,
    stableSort_filter notAfter_trans notAfter_total, inTimeOrder]

/-! ## Scores -/

namespace Score

def orphanPlaces (score : Score τ) : List Nat :=
  RepeatPlan.orphanPlaces {} (inTimeOrder score.firstTimeline)

/-- The brackets that are only noted are deleted from the timeline of the first instrument. -/
def withoutOrphans (score : Score τ) : Score τ :=
  let kept (timeline : List (StaffObject τ)) :=
    (timeline.zipIdx.filter fun e => !score.orphanPlaces.contains e.2).map Prod.fst
  { score with instruments :=
      score.instruments.modifyHead fun first => { first with timeline := kept first.timeline } }

theorem firstTimeline_withoutOrphans (score : Score τ) : score.withoutOrphans.firstTimeline =
    (score.firstTimeline.zipIdx.filter fun e => !score.orphanPlaces.contains e.2).map Prod.fst := by
  unfold withoutOrphans
  generalize score.orphanPlaces = places
  unfold firstTimeline
  cases score.instruments <;> rfl

theorem repeatMarks_eq_marksOf (score : Score τ) :
    repeatMarks score = marksOf (inTimeOrder score.firstTimeline) := by
  rw [repeatMarks_eq, List.filterMap_map]
  rfl

/-- What is deleted are the brackets that the notices tell of. -/
theorem marksOf_orphanPlaces (score : Score τ) :
    marksOf ((inTimeOrder score.firstTimeline).filter fun e => score.orphanPlaces.contains e.2) =
      RepeatPlan.orphans {} (repeatMarks score) := by
  rw [repeatMarks_eq_marksOf]
  exact (RepeatPlan.marksOf_filter (nodup_places _) {}).1

/-- All other marks of the score are left. -/
theorem repeatMarks_withoutOrphans [ComparableTime τ] (score : Score τ) :
    repeatMarks score.withoutOrphans = RepeatPlan.withoutOrphans {} (repeatMarks score) := by
  rw [repeatMarks_eq, firstTimeline_withoutOrphans, map_fst_inTimeOrder_filter, List.filterMap_map,
    repeatMarks_eq_marksOf]
  exact (RepeatPlan.marksOf_filter (nodup_places _) {}).2

end Score

end ScorePlayback
