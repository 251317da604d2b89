import ScorePlayback.Proofs.Analysis.Timelines
import ScorePlayback.Proofs.Repeat.Marks

/-! # Barlines stand in order

A barline stands where the longest voice ends, and this place never moves back. So the
barlines of an instrument are read in the order in which they are written, one for each
measure. -/

namespace ScorePlayback

variable {τ : Type} [TimeValue τ]

open TimeValue (NotLater)

def StaffObject.isBarline (object : StaffObject τ) : Bool :=
  (RepeatMark.ofObject? object).any RepeatMark.isBarline

omit [TimeValue τ] in
theorem StaffObject.isBarline_iff {object : StaffObject τ} :
    object.isBarline = true ↔ ∃ shape times, object.symbol = .barline shape times := by
  cases hs : object.symbol <;>
    simp [isBarline, RepeatMark.ofObject?, RepeatMark.isBarline, hs]

omit [TimeValue τ] in
theorem StaffObject.IsOrdinary.isBarline_eq {object : StaffObject τ} (h : object.IsOrdinary) :
    object.isBarline = false := by
  cases hs : object.symbol <;>
    simp_all [isBarline, IsOrdinary, RepeatMark.ofObject?, RepeatMark.isBarline]

/-! ## Parts -/

/-- Barlines close one measure after the other, and all are behind the cursor. -/
structure Part.ClosesInTurn (p : Part τ) : Prop where
  measure_pos : 1 ≤ p.cursor.measure
  pairwise : (p.timeline.filter StaffObject.isBarline).Pairwise fun a b => a.measure < b.measure
  behind : ∀ object ∈ p.timeline.filter StaffObject.isBarline,
    1 ≤ object.measure ∧ object.measure < p.cursor.measure

/-- Barlines follow each other in time, up to the place that has been reached. -/
structure Part.BarlinesInOrder (p : Part τ) : Prop where
  zero_le : NotLater TimeValue.zero p.cursor.reached
  pairwise : (p.timeline.filter StaffObject.isBarline).Pairwise StaffObject.MayPrecede
  behind : ∀ object ∈ p.timeline.filter StaffObject.isBarline,
    object.voice = 0 ∧ NotLater object.time p.cursor.reached

theorem PartStep.filter_isBarline {p p' : Part τ} (h : PartStep StaffObject.IsOrdinary p p') :
    p'.timeline.filter StaffObject.isBarline = p.timeline.filter StaffObject.isBarline := by
  rcases h.timeline_cases with ht | ⟨object, hobject, -, -, ht⟩
  · rw [ht]
  · rw [ht, List.filter_append, List.filter_singleton, hobject.isBarline_eq]
    simp

omit [TimeValue τ] in
theorem ClosesMeasure.filter_isBarline {p p' : Part τ} {shape : Barline} {times : Nat}
    {object : StaffObject τ} (h : ClosesMeasure p p' shape times object) :
    p'.timeline.filter StaffObject.isBarline =
      p.timeline.filter StaffObject.isBarline ++ [object] := by
  have hbarline : object.isBarline = true :=
    StaffObject.isBarline_iff.mpr ⟨shape, times, h.symbol⟩
  rw [h.timeline, List.filter_append, List.filter_singleton, hbarline]
  simp

namespace Part.ClosesInTurn

variable {p p' : Part τ}

theorem partStep (h : p.ClosesInTurn) (hs : PartStep StaffObject.IsOrdinary p p') :
    p'.ClosesInTurn := by
  obtain ⟨hmeasure, -⟩ := hs.sameMeasure
  exact ⟨hmeasure ▸ h.measure_pos, hs.filter_isBarline ▸ h.pairwise,
    hs.filter_isBarline ▸ hmeasure ▸ h.behind⟩

omit [TimeValue τ] in
/-- The new barline is in a measure of its own. -/
theorem closesMeasure (h : p.ClosesInTurn) {shape : Barline} {times : Nat}
    {object : StaffObject τ} (hc : ClosesMeasure p p' shape times object) : p'.ClosesInTurn := by
  have hmeasure : p'.cursor.measure = p.cursor.measure + 1 := by rw [hc.cursor]; rfl
  refine ⟨by omega, ?_, ?_⟩
  · rw [hc.filter_isBarline, List.pairwise_append]
    refine ⟨h.pairwise, List.pairwise_singleton _ _, fun a ha b hb => ?_⟩
    obtain rfl := List.mem_singleton.mp hb
    exact hc.measure ▸ (h.behind a ha).2
  · rw [hc.filter_isBarline, hmeasure, List.forall_mem_append, List.forall_mem_singleton,
      hc.measure]
    exact ⟨fun a ha => ⟨(h.behind a ha).1, Nat.lt_succ_of_lt (h.behind a ha).2⟩,
      h.measure_pos, Nat.lt_succ_self _⟩

theorem of_grows (h : Grows .initial p) : p.ClosesInTurn := by
  induction h with
  | refl => exact ⟨Nat.le_refl _, .nil, by simp [Part.initial]⟩
  | tail _ hstep ih =>
      obtain hs | ⟨shape, times, object, hc⟩ := hstep
      · exact ih.partStep hs
      · exact ih.closesMeasure hc

end Part.ClosesInTurn

namespace Part.BarlinesInOrder

variable [OrderedTime τ] {p p' : Part τ}

theorem initial : (Part.initial : Part τ).BarlinesInOrder :=
  ⟨OrderedTime.refl _, .nil, by simp [Part.initial]⟩

/-- Inside a measure only the place that has been reached may move on. -/
theorem partStep (h : p.BarlinesInOrder) (hs : PartStep StaffObject.IsOrdinary p p') :
    p'.BarlinesInOrder := by
  have hreached := hs.reached_le h.zero_le
  refine ⟨OrderedTime.trans h.zero_le hreached, hs.filter_isBarline ▸ h.pairwise, ?_⟩
  rw [hs.filter_isBarline]
  exact fun object hobject =>
    (h.behind object hobject).imp_right fun htime => OrderedTime.trans htime hreached

/-- The new barline is not before the place that has been reached. -/
theorem closesMeasure (h : p.BarlinesInOrder) {shape : Barline} {times : Nat}
    {object : StaffObject τ} (hc : ClosesMeasure p p' shape times object) :
    p'.BarlinesInOrder := by
  have hreached : p'.cursor.reached = p.cursor.reached := by rw [hc.cursor]; rfl
  refine ⟨hreached ▸ h.zero_le, ?_, ?_⟩
  · rw [hc.filter_isBarline, List.pairwise_append]
    refine ⟨h.pairwise, List.pairwise_singleton _ _, fun a ha b hb => ?_⟩
    obtain rfl := List.mem_singleton.mp hb
    obtain ⟨hvoice, htime⟩ := h.behind a ha
    exact ⟨hc.time ▸ htime, hvoice ▸ Nat.zero_le _⟩
  · rw [hc.filter_isBarline, hreached, List.forall_mem_append, List.forall_mem_singleton]
    exact ⟨h.behind, hc.voice, hc.time ▸ OrderedTime.refl _⟩

theorem of_grows (h : Grows .initial p) : p.BarlinesInOrder := by
  induction h with
  | refl => exact initial
  | tail _ hstep ih =>
      obtain hs | ⟨shape, times, object, hc⟩ := hstep
      · exact ih.partStep hs
      · exact ih.closesMeasure hc

end Part.BarlinesInOrder

/-! ## Scores -/

theorem Score.Obeys.exists_part {law : Part τ → Prop} {score : Score τ} (h : score.Obeys law)
    (hinitial : law .initial) :
    ∃ part : Part τ, law part ∧ score.firstTimeline = part.timeline := by
  unfold firstTimeline
  cases hi : score.instruments with
  | nil => exact ⟨.initial, hinitial, rfl⟩
  | cons first rest => exact h first (by simp [hi])

namespace Score.IsGrown

variable {score : Score τ}

/-- The barlines of the first instrument are read as they are written. -/
theorem filter_isBarline [OrderedTime τ] (h : score.IsGrown) :
    (repeatMarks score).filter RepeatMark.isBarline =
      (writtenMarks score).filter RepeatMark.isBarline := by
  obtain ⟨part, hgrows, htimeline⟩ := Obeys.exists_part h .refl
  refine filter_repeatMarks score ?_
  rw [htimeline]
  exact (Part.BarlinesInOrder.of_grows hgrows).pairwise

/-- They close one measure after the other, from measure 1 on. -/
theorem pairwise_measure (h : score.IsGrown) :
    (0 :: ((writtenMarks score).filter RepeatMark.isBarline).map RepeatMark.measure).Pairwise
      (· < ·) := by
  obtain ⟨part, hgrows, htimeline⟩ := Obeys.exists_part h .refl
  have hpart := Part.ClosesInTurn.of_grows hgrows
  rw [writtenMarks, filter_filterMap_ofObject?, htimeline]
  refine List.pairwise_cons.mpr ⟨?_, ?_⟩
  · simp only [List.mem_map, List.mem_filterMap]
    rintro measure ⟨mark, ⟨object, hobject, hmark⟩, rfl⟩
    rw [RepeatMark.measure_of_ofObject? hmark]
    exact (hpart.behind object hobject).1
  · rw [List.pairwise_map, List.pairwise_filterMap]
    refine hpart.pairwise.imp fun hab mark hmark mark' hmark' => ?_
    rw [RepeatMark.measure_of_ofObject? hmark, RepeatMark.measure_of_ofObject? hmark']
    exact hab

/-- Where measures never decrease in time, barlines are read measure by measure as well. -/
theorem pairwise_isBarline (h : score.IsGrown) (hascends : score.AscendsInTime) :
    ((repeatMarks score).filter RepeatMark.isBarline).Pairwise fun a b =>
      a.measure < b.measure := by
  have hwritten := (List.pairwise_cons.mp h.pairwise_measure).2
  have hperm := ((repeatMarks_perm score).filter RepeatMark.isBarline).map RepeatMark.measure
  -- the same barlines in another order are still in different measures
  have hne : ((repeatMarks score).filter RepeatMark.isBarline).Pairwise fun a b =>
      a.measure ≠ b.measure :=
    List.pairwise_map.mp (hperm.nodup_iff.mpr (hwritten.imp Nat.ne_of_lt))
  exact ((hascends.pairwise_repeatMarks.filter _).and hne).imp fun ⟨hle, hne⟩ =>
    Nat.lt_of_le_of_ne hle hne

end Score.IsGrown
end ScorePlayback
