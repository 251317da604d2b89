import ScorePlayback.Proofs.Analysis.Barlines
import ScorePlayback.Proofs.Numeral

/-! # The numbers of marks

The measures of a timeline are counted from 1, and what is repeated is repeated at least once. -/

namespace ScorePlayback

variable {τ : Type} [TimeValue τ]

/-! ## Measures are counted from 1 -/

/-- The objects of a part are in measures from 1 to the one of the cursor. -/
structure Part.IsNumbered (p : Part τ) : Prop where
  measure_pos : 1 ≤ p.cursor.measure
  objects : ∀ object ∈ p.timeline, 1 ≤ object.measure ∧ object.measure ≤ p.cursor.measure

namespace Part.IsNumbered

variable {p p' : Part τ}

theorem partStep {allowed : StaffObject τ → Prop} (h : p.IsNumbered)
    (hs : PartStep allowed p p') : p'.IsNumbered := by
  have hmeasure := hs.sameMeasure.1
  refine ⟨hmeasure ▸ h.measure_pos, ?_⟩
  rw [hmeasure]
  rcases hs.timeline_cases with ht | ⟨object, -, -, hobject, ht⟩
  · exact ht ▸ h.objects
  · rw [ht, List.forall_mem_append, List.forall_mem_singleton, hobject]
    exact ⟨h.objects, h.measure_pos, Nat.le_refl _⟩

omit [TimeValue τ] in
theorem closesMeasure (h : p.IsNumbered) {shape : Barline} {times : Nat} {object : StaffObject τ}
    (hc : ClosesMeasure p p' shape times object) : p'.IsNumbered := by
  have hmeasure : p'.cursor.measure = p.cursor.measure + 1 := by rw [hc.cursor]; rfl
  refine ⟨hmeasure ▸ Nat.succ_pos _, ?_⟩
  rw [hmeasure, hc.timeline, List.forall_mem_append, List.forall_mem_singleton, hc.measure]
  refine ⟨fun a ha => ?_, h.measure_pos, Nat.le_succ _⟩
  exact ⟨(h.objects a ha).1, Nat.le_succ_of_le (h.objects a ha).2⟩

theorem of_grows (h : Grows .initial p) : p.IsNumbered := by
  induction h with
  | refl => exact ⟨Nat.le_refl 1, by simp [Part.initial]⟩
  | tail _ hstep ih =>
      obtain hs | ⟨shape, times, object, hc⟩ := hstep
      · exact ih.partStep hs
      · exact ih.closesMeasure hc

end Part.IsNumbered

theorem Score.IsGrown.one_le_measure {score : Score τ} (h : score.IsGrown) :
    ∀ mark ∈ repeatMarks score, 1 ≤ mark.measure := by
  intro mark hmark
  obtain ⟨part, hgrows, htimeline⟩ := Obeys.exists_part h .refl
  obtain ⟨object, hobject, hof⟩ := exists_object_of_mem_repeatMarks hmark
  rw [RepeatMark.measure_of_ofObject? hof]
  exact ((Part.IsNumbered.of_grows hgrows).objects object (htimeline ▸ hobject)).1

/-! ## Repetitions are at least one -/

/-- All barlines of a part are repeated at least once, if they end a repeat. -/
def Part.Repeats (p : Part τ) : Prop :=
  ∀ object ∈ p.timeline, ∀ shape times, object.symbol = .barline shape times → 1 ≤ times

namespace Control

theorem one_le_of_readBarlinePart {spec spec' : BarlineSpec} {part : Node} (h : 1 ≤ spec.times)
    (hread : readBarlinePart spec part = .ok spec') : 1 ≤ spec'.times := by
  unfold readBarlinePart at hread
  split at hread
  · split at hread
    · exact Except.ok.inj hread ▸ h
    · simp at hread
  · split at hread
    · next times htimes =>
      obtain ⟨atom, -, hcount⟩ := Option.bind_eq_some_iff.mp htimes
      exact Except.ok.inj hread ▸ Node.le_of_count? hcount
    · simp at hread
  · simp at hread

theorem one_le_of_foldlM {spec spec' : BarlineSpec} {parts : List Node} (h : 1 ≤ spec.times)
    (hread : parts.foldlM readBarlinePart spec = .ok spec') : 1 ≤ spec'.times := by
  induction parts generalizing spec with
  | nil => exact Except.ok.inj hread ▸ h
  | cons part parts ih =>
      rw [List.foldlM_cons] at hread
      cases hpart : readBarlinePart spec part with
      | ok next =>
          rw [hpart] at hread
          exact ih (one_le_of_readBarlinePart h hpart) hread
      | error rejection =>
          rw [hpart] at hread
          cases hread

theorem one_le_of_readBarline {settings : Settings} (hsettings : 1 ≤ settings.repeatTimes)
    {n : Node} {b : BarlineSpec} (h : readBarline settings n = .ok b) : 1 ≤ b.times := by
  have hspec : 1 ≤ (BarlineSpec.mk .simple settings.repeatTimes).times := hsettings
  exact one_le_of_foldlM hspec h

end Control

namespace Part.Repeats

variable {p p' : Part τ}

/-- What other elements place is no barline. -/
theorem partSteps {n : Node} (h : p.Repeats) (hs : PartSteps n.Places p p') : p'.Repeats := by
  induction hs with
  | refl => exact h
  | tail _ hstep ih =>
      rcases hstep.timeline_cases with ht | ⟨object, hplaces, -, -, ht⟩
      · exact fun object hobject => ih object (ht ▸ hobject)
      · rw [Repeats, ht, List.forall_mem_append, List.forall_mem_singleton]
        refine ⟨ih, fun shape times hsymbol => ?_⟩
        simp [Node.Places, hsymbol] at hplaces

omit [TimeValue τ] in
theorem closesMeasure (h : p.Repeats) {shape : Barline} {times : Nat} {object : StaffObject τ}
    (hc : ClosesMeasure p p' shape times object) (htimes : 1 ≤ times) : p'.Repeats := by
  rw [Repeats, hc.timeline, List.forall_mem_append, List.forall_mem_singleton, hc.symbol]
  refine ⟨h, ?_⟩
  rintro _ _ ⟨⟩
  exact htimes

end Part.Repeats

theorem isPartLaw_repeats {settings : Settings} (h : 1 ≤ settings.repeatTimes) :
    IsPartLaw settings (Part.Repeats : Part τ → Prop) where
  initial := by simp [Part.Repeats, Part.initial]
  read s child hs := by
    rcases s.read_steps settings child with hsteps | ⟨shape, times, object, -, hread, hc⟩
    · exact hs.partSteps hsteps
    · exact hs.closesMeasure hc (Control.one_le_of_readBarline h hread)

theorem Score.Obeys.one_le_times {score : Score τ} (h : score.Obeys Part.Repeats) :
    ∀ shape measure times, .barline shape measure times ∈ repeatMarks score → 1 ≤ times := by
  intro shape measure times hmark
  obtain ⟨part, hrepeats, htimeline⟩ := h.exists_part (by simp [Part.Repeats, Part.initial])
  obtain ⟨object, hobject, hof⟩ := exists_object_of_mem_repeatMarks hmark
  unfold RepeatMark.ofObject? at hof
  split at hof
  all_goals simp only [Option.some.injEq, reduceCtorEq, RepeatMark.barline.injEq] at hof
  next shape' times' hsymbol =>
    obtain ⟨-, -, rfl⟩ := hof
    exact hrepeats object (htimeline ▸ hobject) shape' _ hsymbol

end ScorePlayback
