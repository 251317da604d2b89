import Mathlib.Data.List.Induction
import ScorePlayback.Proofs.Player.MeasureSequence
import ScorePlayback.Proofs.Repeat.Plan

/-! # Where the repeats of a plan come from

Every repeat goes back from a repeat end that has been read to the start of the section that was
being read there, and skips a bracket that has been read. So a law of the marks becomes a law of
the repeats. -/

namespace ScorePlayback

/-- A section starts with measure 1, with the measure of a mark, or behind a barline. -/
def IsSectionStart (marks : List RepeatMark) (start : Nat) : Prop :=
  start = 1 ∨ ∃ mark ∈ marks,
    start = mark.measure ∨ (mark.isBarline = true ∧ start = mark.measure + 1)

/-- One of the marks is a repeat end. When it was read, the section started at `start`. -/
def EndsSection (marks : List RepeatMark) (start : Nat) (e : RepeatEnd) : Prop :=
  ∃ before shape after, marks = before ++ .barline shape e.measure e.times :: after ∧
    shape.endsRepeat = true ∧ (start = e.measure ∨ IsSectionStart before start)

structure SectionRepeat.ComesFrom (marks : List RepeatMark) (r : SectionRepeat) : Prop where
  back : EndsSection marks r.back.target ⟨r.back.measure, r.back.times⟩
  skip : ∀ leap ∈ r.skip, ∃ ending span, .volta ending leap.measure span ∈ marks ∧
    leap.target = min (leap.measure + span) Numeral.largest32

theorem IsSectionStart.append {marks : List RepeatMark} {start : Nat}
    (h : IsSectionStart marks start) (more : List RepeatMark) :
    IsSectionStart (marks ++ more) start := by
  refine h.imp_right ?_
  rintro ⟨mark, hmark, hstart⟩
  exact ⟨mark, List.mem_append_left more hmark, hstart⟩

theorem EndsSection.append {marks : List RepeatMark} {start : Nat} {e : RepeatEnd}
    (h : EndsSection marks start e) (more : List RepeatMark) :
    EndsSection (marks ++ more) start e := by
  obtain ⟨before, shape, after, rfl, hrest⟩ := h
  exact ⟨before, shape, after ++ more, by simp, hrest⟩

theorem SectionRepeat.ComesFrom.append {marks : List RepeatMark} {r : SectionRepeat}
    (h : r.ComesFrom marks) (more : List RepeatMark) : r.ComesFrom (marks ++ more) where
  back := h.back.append more
  skip leap hleap := by
    obtain ⟨ending, span, hmark, htarget⟩ := h.skip leap hleap
    exact ⟨ending, span, List.mem_append_left more hmark, htarget⟩

/-! ## Reading -/

/-- The bracket that claims a repeat end covers it and had none. -/
theorem Bracket.exists_of_claim? {e : RepeatEnd} {brackets brackets' : List Bracket}
    (h : claim? e brackets = some brackets') :
    ∃ front b back, brackets = front ++ b :: back ∧ b.repeatEnd = none ∧
      b.covers e.measure = true ∧ brackets' = front ++ { b with repeatEnd := some e } :: back := by
  induction brackets generalizing brackets' with
  | nil => simp [claim?] at h
  | cons b rest ih =>
      unfold claim? at h
      split at h
      · next rest' hrest =>
        obtain ⟨front, c, back, rfl, hnone, hcovers, rfl⟩ := ih hrest
        exact ⟨b :: front, c, back, rfl, hnone, hcovers, (Option.some.inj h).symm⟩
      · split at h
        · next hb =>
          simp only [Bool.and_eq_true, Option.isNone_iff_eq_none] at hb
          exact ⟨[], b, rest, rfl, hb.1, hb.2, (Option.some.inj h).symm⟩
        · simp at h

namespace RepeatPlan

/-- All parts of a plan come from the marks. -/
structure HasRead (p : RepeatPlan) (marks : List RepeatMark) : Prop where
  start : IsSectionStart marks p.sectionStart
  brackets : ∀ b ∈ p.brackets, .volta b.ending b.start b.span ∈ marks ∧
    ∀ e ∈ b.repeatEnd, EndsSection marks p.sectionStart e
  repeats : ∀ r ∈ p.repeats, r.ComesFrom marks

namespace HasRead

variable {p : RepeatPlan} {marks : List RepeatMark}

theorem append (h : p.HasRead marks) (more : List RepeatMark) : p.HasRead (marks ++ more) where
  start := h.start.append more
  brackets b hb := by
    obtain ⟨hmark, hend⟩ := h.brackets b hb
    exact ⟨List.mem_append_left more hmark, fun e he => (hend e he).append more⟩
  repeats r hr := (h.repeats r hr).append more

theorem closeSection (h : p.HasRead marks) {next : Nat} (hnext : IsSectionStart marks next) :
    (p.closeSection next).HasRead marks := by
  unfold RepeatPlan.closeSection
  split
  · exact ⟨hnext, by simp, h.repeats⟩
  · refine ⟨hnext, by simp, List.forall_mem_append.mpr ⟨h.repeats, fun r hr => ?_⟩⟩
    obtain ⟨b, hb, hrepeat⟩ := List.mem_filterMap.mp hr
    obtain ⟨e, he, rfl⟩ := Option.map_eq_some_iff.mp hrepeat
    obtain ⟨hmark, hend⟩ := h.brackets b hb
    refine ⟨hend e he, ?_⟩
    rintro leap ⟨⟩
    exact ⟨b.ending, b.span, hmark, rfl⟩

theorem reach (h : p.HasRead marks) {measure : Nat} (hmeasure : IsSectionStart marks measure) :
    (p.reach measure).HasRead marks := by
  unfold RepeatPlan.reach
  split
  · exact h.closeSection hmeasure
  · exact h

theorem endRepeat (h : p.HasRead marks) {e : RepeatEnd} (hend : EndsSection marks p.sectionStart e)
    (hnext : IsSectionStart marks (e.measure + 1)) : (p.endRepeat e).HasRead marks := by
  unfold RepeatPlan.endRepeat
  split
  · next brackets hclaim =>
    obtain ⟨front, b, back, hs, -, -, rfl⟩ := Bracket.exists_of_claim? hclaim
    have hbrackets := h.brackets
    simp only [hs, List.forall_mem_append, List.forall_mem_cons] at hbrackets
    obtain ⟨hfront, ⟨hmark, -⟩, hback⟩ := hbrackets
    refine ⟨h.start, ?_, h.repeats⟩
    simp only [List.forall_mem_append, List.forall_mem_cons]
    refine ⟨hfront, ⟨hmark, ?_⟩, hback⟩
    rintro _ ⟨⟩
    exact hend
  · have hclosed := h.closeSection hnext
    refine ⟨hclosed.start, hclosed.brackets, List.forall_mem_append.mpr ⟨hclosed.repeats, ?_⟩⟩
    exact List.forall_mem_singleton.mpr ⟨hend, by simp⟩

end HasRead

theorem sectionStart_reach (p : RepeatPlan) (measure : Nat) :
    (p.reach measure).sectionStart = measure ∨ (p.reach measure).sectionStart = p.sectionStart := by
  unfold reach closeSection
  split
  · split <;> exact .inl rfl
  · exact .inr rfl

theorem HasRead.read {p : RepeatPlan} {marks : List RepeatMark} (h : p.HasRead marks)
    (mark : RepeatMark) : (p.read mark).HasRead (marks ++ [mark]) := by
  have hall := h.append [mark]
  have hmem : mark ∈ marks ++ [mark] := by simp
  have hmeasure : IsSectionStart (marks ++ [mark]) mark.measure := .inr ⟨mark, hmem, .inl rfl⟩
  cases mark with
  | volta ending measure span =>
      refine ⟨hall.start, List.forall_mem_append.mpr ⟨hall.brackets, ?_⟩, hall.repeats⟩
      exact List.forall_mem_singleton.mpr ⟨hmem, by simp⟩
  | music measure => exact hall.reach hmeasure
  | barline shape measure times =>
      have hreach := hall.reach hmeasure
      have hbehind : IsSectionStart (marks ++ [.barline shape measure times]) (measure + 1) :=
        .inr ⟨_, hmem, .inr ⟨rfl, rfl⟩⟩
      have hend : (if shape.endsRepeat then (p.reach measure).endRepeat ⟨measure, times⟩
          else p.reach measure).HasRead (marks ++ [.barline shape measure times]) := by
        split
        · next hshape =>
          refine hreach.endRepeat ⟨marks, shape, [], rfl, hshape, ?_⟩ hbehind
          rcases sectionStart_reach p measure with hstart | hstart
          · exact .inl hstart
          · exact .inr (hstart.symm ▸ h.start)
        · exact hreach
      simp only [RepeatPlan.read]
      split
      · exact hend.closeSection hbehind
      · exact hend

theorem hasRead_foldl (marks : List RepeatMark) : (marks.foldl read {}).HasRead marks := by
  induction marks using List.reverseRecOn with
  | nil => exact ⟨.inl rfl, by simp, by simp⟩
  | append_singleton marks mark ih =>
      rw [List.foldl_append]
      exact ih.read mark

theorem comesFrom_of_mem_ofMarks {marks : List RepeatMark} {r : SectionRepeat}
    (hr : r ∈ (ofMarks marks).repeats) : r.ComesFrom marks :=
  ((hasRead_foldl marks).closeSection (hasRead_foldl marks).start).repeats r hr

end RepeatPlan

/-! ## Laws of repeats -/

theorem IsSectionStart.le {marks : List RepeatMark} {start bound : Nat}
    (h : IsSectionStart marks start) (hbound : 1 ≤ bound)
    (hmarks : ∀ mark ∈ marks, mark.measure + 1 ≤ bound) : start ≤ bound := by
  rcases h with rfl | ⟨mark, hmark, hstart⟩
  · exact hbound
  · have := hmarks mark hmark
    omega

theorem IsSectionStart.pos {marks : List RepeatMark} {start : Nat}
    (h : IsSectionStart marks start) (hmarks : ∀ mark ∈ marks, 1 ≤ mark.measure) : 1 ≤ start := by
  rcases h with rfl | ⟨mark, hmark, hstart⟩
  · exact Nat.le_refl 1
  · have := hmarks mark hmark
    omega

namespace EndsSection

variable {marks : List RepeatMark} {start : Nat} {e : RepeatEnd}

theorem exists_mem (h : EndsSection marks start e) :
    ∃ shape, .barline shape e.measure e.times ∈ marks := by
  obtain ⟨before, shape, after, rfl, -⟩ := h
  exact ⟨shape, by simp⟩

theorem pos (h : EndsSection marks start e) (hmarks : ∀ mark ∈ marks, 1 ≤ mark.measure) :
    1 ≤ start := by
  obtain ⟨before, shape, after, rfl, -, rfl | hstart⟩ := h
  · exact hmarks (.barline shape e.measure e.times) (by simp)
  · exact hstart.pos fun mark hmark => hmarks mark (by simp [hmark])

/-- If the marks are read measure by measure, a section starts no later than behind the measure of
its end. -/
theorem start_le (h : EndsSection marks start e)
    (hmarks : marks.Pairwise fun a b => a.measure ≤ b.measure) :
    start ≤ e.measure + 1 := by
  obtain ⟨before, shape, after, rfl, -, rfl | hstart⟩ := h
  · exact Nat.le_succ _
  · refine hstart.le (Nat.le_add_left 1 _) fun mark hmark => Nat.succ_le_succ ?_
    exact (List.pairwise_append.mp hmarks).2.2 mark hmark _ (List.mem_cons_self ..)

end EndsSection

namespace RepeatPlan

theorem isPositive_ofMarks {marks : List RepeatMark} (hmarks : ∀ mark ∈ marks, 1 ≤ mark.measure) :
    (ofMarks marks).IsPositive := by
  intro r hr
  obtain ⟨hback, hskip⟩ := comesFrom_of_mem_ofMarks hr
  refine ⟨hback.pos hmarks, fun leap hleap => ?_⟩
  obtain ⟨ending, span, hmark, htarget⟩ := hskip leap hleap
  have hpos : 1 ≤ leap.measure := hmarks _ hmark
  refine ⟨hpos, htarget ▸ Nat.le_min.mpr ⟨?_, by decide⟩⟩
  exact Nat.le_trans hpos (Nat.le_add_right _ _)

end RepeatPlan
end ScorePlayback
