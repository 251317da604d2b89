import ScorePlayback.Proofs.Repeat.Marks

/-! # Reading marks into a plan

What reading does to a plan: where there is no bracket, where the last bracket has not ended, where
a section is closed, and where a mark neither starts a bracket or section nor ends a repeat. -/

namespace ScorePlayback

/-- A mark that neither starts a bracket nor a section nor ends a repeat. -/
def RepeatMark.IsPlain : RepeatMark → Prop
  | .volta _ _ _ => False
  | .music _ => True
  | .barline shape _ _ => shape.endsRepeat = false ∧ shape.startsRepeat = false

namespace RepeatPlan

/-! ## Brackets -/

theorem reach_of_brackets_nil {p : RepeatPlan} (hp : p.brackets = []) (measure : Nat) :
    p.reach measure = p := by
  simp [reach, isBehindBrackets, hp]

theorem closeSection_of_brackets_nil {p : RepeatPlan} (hp : p.brackets = []) (nextStart : Nat) :
    p.closeSection nextStart = { p with sectionStart := nextStart } := by
  simp [closeSection, hp]

theorem claim?_concat {e : RepeatEnd} (brackets : List Bracket) {b : Bracket}
    (hnone : b.repeatEnd = none) (hcovers : b.covers e.measure = true) :
    Bracket.claim? e (brackets ++ [b]) = some (brackets ++ [{ b with repeatEnd := some e }]) := by
  induction brackets with
  | nil => simp [Bracket.claim?, hnone, hcovers]
  | cons c brackets ih => rw [List.cons_append, Bracket.claim?, ih]; rfl

/-- While a bracket is the last one, music before its end is not behind all brackets. -/
theorem reach_of_lt_stop {p : RepeatPlan} {brackets : List Bracket} {b : Bracket}
    (hp : p.brackets = brackets ++ [b]) {measure : Nat} (h : measure < b.stop) :
    p.reach measure = p := by
  have hbehind : p.isBehindBrackets measure = false := by
    simp [isBehindBrackets, hp, h]
  rw [reach, hbehind]
  rfl

/-! ## Closing a section -/

/-- None of the brackets has a repeat end. -/
def IsUnclaimed (p : RepeatPlan) : Prop := (p.brackets.all fun b => b.repeatEnd.isNone) = true

instance (p : RepeatPlan) : Decidable p.IsUnclaimed := inferInstanceAs (Decidable (_ = true))

theorem reach_cases (p : RepeatPlan) (measure : Nat) :
    p.reach measure = p ∨ p.reach measure = p.closeSection measure := by
  unfold reach
  split
  · exact .inr rfl
  · exact .inl rfl

theorem closeSection_of_isUnclaimed {p : RepeatPlan} (h : p.IsUnclaimed) (start : Nat) :
    p.closeSection start = { p with
      sectionStart := start
      brackets := []
      notices := p.notices ++ p.brackets.map Bracket.notice } := if_pos h

theorem closeSection_of_not_isUnclaimed {p : RepeatPlan} (h : ¬ p.IsUnclaimed) (start : Nat) :
    p.closeSection start = { p with
      sectionStart := start
      brackets := []
      repeats := p.repeats ++
        p.brackets.filterMap (Bracket.repeat? p.sectionStart (Bracket.lastEnding p.brackets)) } :=
  if_neg h

@[simp] theorem brackets_closeSection (p : RepeatPlan) (start : Nat) :
    (p.closeSection start).brackets = [] := by
  unfold closeSection
  split <;> rfl

theorem isUnclaimed_of_brackets_nil {p : RepeatPlan} (h : p.brackets = []) : p.IsUnclaimed := by
  simp [IsUnclaimed, h]

/-- What closing a section and ending a repeat preserve, reading a mark preserves that opens no
bracket. -/
theorem read_induction {R : RepeatPlan → RepeatPlan → Prop} {p q : RepeatPlan} {mark : RepeatMark}
    (hmark : mark.isVolta = false) (hreach : R (p.reach mark.measure) (q.reach mark.measure))
    (hend : ∀ p q e, R p q → R (p.endRepeat e) (q.endRepeat e))
    (hclose : ∀ p q start, R p q → R (p.closeSection start) (q.closeSection start)) :
    R (p.read mark) (q.read mark) := by
  cases mark with
  | volta ending measure span => simp [RepeatMark.isVolta] at hmark
  | music measure => exact hreach
  | barline shape measure times =>
      simp only [read]
      cases shape.endsRepeat <;> cases shape.startsRepeat
      · exact hreach
      · exact hclose _ _ _ hreach
      · exact hend _ _ _ hreach
      · exact hclose _ _ _ (hend _ _ _ hreach)

/-! ## Where repeats come from -/

section Repeats

variable {motive : SectionRepeat → Prop}
  (hbracket : ∀ start last b, ∀ r ∈ Bracket.repeat? start last b, motive r)
  (hplain : ∀ back, motive { back })

include hbracket

theorem forall_repeats_closeSection {p : RepeatPlan} (h : ∀ r ∈ p.repeats, motive r)
    (nextStart : Nat) : ∀ r ∈ (p.closeSection nextStart).repeats, motive r := by
  intro r hr
  unfold closeSection at hr
  split at hr
  · exact h r hr
  · rcases List.mem_append.mp hr with hr | hr
    · exact h r hr
    · obtain ⟨b, -, hb⟩ := List.mem_filterMap.mp hr
      exact hbracket _ _ b r hb

theorem forall_repeats_reach {p : RepeatPlan} (h : ∀ r ∈ p.repeats, motive r) (measure : Nat) :
    ∀ r ∈ (p.reach measure).repeats, motive r := by
  unfold reach
  split
  · exact forall_repeats_closeSection hbracket h measure
  · exact h

include hplain

theorem forall_repeats_endRepeat {p : RepeatPlan} (h : ∀ r ∈ p.repeats, motive r)
    (e : RepeatEnd) : ∀ r ∈ (p.endRepeat e).repeats, motive r := by
  unfold endRepeat
  split
  · exact h
  · rw [List.forall_mem_append, List.forall_mem_singleton]
    exact ⟨forall_repeats_closeSection hbracket h _, hplain _⟩

theorem forall_repeats_read {p : RepeatPlan} (h : ∀ r ∈ p.repeats, motive r)
    (mark : RepeatMark) : ∀ r ∈ (p.read mark).repeats, motive r := by
  cases mark with
  | volta ending measure span => exact h
  | music measure => exact forall_repeats_reach hbracket h measure
  | barline shape measure times =>
      exact read_induction (R := fun a _ => ∀ r ∈ a.repeats, motive r) (q := p) rfl
        (forall_repeats_reach hbracket h measure)
        (fun _ _ e h => forall_repeats_endRepeat hbracket hplain h e)
        (fun _ _ start h => forall_repeats_closeSection hbracket h start)

/-- Every repeat belongs to a bracket or is a plain leap back. -/
theorem forall_repeats_ofMarks (marks : List RepeatMark) :
    ∀ r ∈ (ofMarks marks).repeats, motive r := by
  have hread (p : RepeatPlan) (h : ∀ r ∈ p.repeats, motive r) :
      ∀ r ∈ (marks.foldl read p).repeats, motive r := by
    induction marks generalizing p with
    | nil => exact h
    | cons mark marks ih => exact ih _ (forall_repeats_read hbracket hplain h mark)
  exact forall_repeats_closeSection hbracket (hread {} (by simp)) _

end Repeats

/-! ## Plain marks -/

theorem closeSection_closeSection (p : RepeatPlan) (first second : Nat) :
    (p.closeSection first).closeSection second = p.closeSection second := by
  unfold closeSection
  by_cases h : (p.brackets.all fun b => b.repeatEnd.isNone) = true
  · simp [h]
  · simp [h]

theorem closeSection_reach (p : RepeatPlan) (measure start : Nat) :
    (p.reach measure).closeSection start = p.closeSection start := by
  unfold reach
  split
  · exact closeSection_closeSection p measure start
  · rfl

theorem read_of_isPlain {mark : RepeatMark} (h : mark.IsPlain) (p : RepeatPlan) :
    p.read mark = p.reach mark.measure := by
  cases mark with
  | volta ending start span => exact h.elim
  | music measure => rfl
  | barline shape last times => simp [read, RepeatMark.measure, h.1, h.2]

/-- Whatever plain marks follow, the section is closed with the same repeats. -/
theorem closeSection_foldl_of_isPlain {marks : List RepeatMark} (h : ∀ mark ∈ marks, mark.IsPlain)
    (p : RepeatPlan) (start : Nat) :
    (marks.foldl read p).closeSection start = p.closeSection start := by
  induction marks generalizing p with
  | nil => rfl
  | cons mark marks ih =>
      rw [List.foldl_cons, ih fun m hm => h m (by simp [hm]), read_of_isPlain (h mark (by simp)),
        closeSection_reach]

end RepeatPlan
end ScorePlayback
