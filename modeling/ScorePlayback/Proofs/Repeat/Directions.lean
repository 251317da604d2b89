import ScorePlayback.Proofs.Repeat.Coverage

/-! # Back to the start of the section, on behind the bracket

Where measures never decrease in time, nothing of a later measure is read before a barline, so a
section starts no later than with the measure of its repeat end. A bracket covers the repeat end
that it claims. So every jump of an analysed score goes back or stays, and every skip goes on. -/

namespace ScorePlayback

/-! ## Brackets cover their repeat ends -/

namespace RepeatPlan

/-- The repeat ends of brackets, and of the repeats that brackets have become, are inside them. -/
structure IsCovered (p : RepeatPlan) : Prop where
  brackets : ∀ b ∈ p.brackets, ∀ e ∈ b.repeatEnd, b.start ≤ e.measure ∧ e.measure < b.stop
  repeats : ∀ r ∈ p.repeats, ∀ leap ∈ r.skip,
    leap.measure ≤ r.back.measure ∧ r.back.measure < leap.target

namespace IsCovered

variable {p : RepeatPlan}

theorem closeSection (h : p.IsCovered) (start : Nat) : (p.closeSection start).IsCovered := by
  by_cases hp : p.IsUnclaimed
  · rw [closeSection_of_isUnclaimed hp]
    exact ⟨by simp, h.repeats⟩
  · rw [closeSection_of_not_isUnclaimed hp]
    refine ⟨by simp, List.forall_mem_append.mpr ⟨h.repeats, fun r hr => ?_⟩⟩
    obtain ⟨b, hb, hrepeat⟩ := List.mem_filterMap.mp hr
    obtain ⟨e, he, rfl⟩ := Option.map_eq_some_iff.mp hrepeat
    rintro leap ⟨⟩
    exact h.brackets b hb e he

theorem reach (h : p.IsCovered) (measure : Nat) : (p.reach measure).IsCovered := by
  rcases p.reach_cases measure with hreach | hreach
  · rwa [hreach]
  · rw [hreach]
    exact h.closeSection measure

theorem endRepeat (h : p.IsCovered) (e : RepeatEnd) : (p.endRepeat e).IsCovered := by
  unfold RepeatPlan.endRepeat
  split
  · next brackets hclaim =>
    obtain ⟨front, b, back, hs, -, hcovers, rfl⟩ := Bracket.exists_of_claim? hclaim
    have hbrackets := h.brackets
    simp only [hs, List.forall_mem_append, List.forall_mem_cons] at hbrackets
    obtain ⟨hfront, -, hback⟩ := hbrackets
    refine ⟨?_, h.repeats⟩
    simp only [List.forall_mem_append, List.forall_mem_cons]
    refine ⟨hfront, ?_, hback⟩
    have hinside : b.start ≤ e.measure ∧ e.measure < b.stop := by
      simpa [Bracket.covers] using hcovers
    rintro _ ⟨⟩
    exact hinside
  · have hclosed := h.closeSection (e.measure + 1)
    exact ⟨hclosed.brackets, List.forall_mem_append.mpr ⟨hclosed.repeats, by simp⟩⟩

theorem read (h : p.IsCovered) (mark : RepeatMark) : (p.read mark).IsCovered := by
  cases mark with
  | volta ending measure span =>
      exact ⟨List.forall_mem_append.mpr ⟨h.brackets, by simp⟩, h.repeats⟩
  | music measure => exact h.reach measure
  | barline shape measure times =>
      exact read_induction (R := fun a _ => a.IsCovered) (q := p) rfl (h.reach measure)
        (fun _ _ e h => h.endRepeat e) (fun _ _ start h => h.closeSection start)

theorem ofMarks (marks : List RepeatMark) : (RepeatPlan.ofMarks marks).IsCovered := by
  refine closeSection ?_ _
  exact List.foldlRecOn marks _ ⟨by simp, by simp⟩ fun _ h mark _ => h.read mark

end IsCovered
end RepeatPlan

/-! ## Sections start before they end -/

/-- If the marks are read measure by measure and all barlines are in measures of their own, a section
does not start behind its end. -/
theorem EndsSection.start_le_measure {marks : List RepeatMark} {start : Nat} {e : RepeatEnd}
    (h : EndsSection marks start e) (hpos : ∀ mark ∈ marks, 1 ≤ mark.measure)
    (hmarks : marks.Pairwise fun a b => a.measure ≤ b.measure)
    (hbarlines : (marks.filter RepeatMark.isBarline).Pairwise fun a b => a.measure < b.measure) :
    start ≤ e.measure := by
  obtain ⟨before, shape, after, rfl, -, rfl | rfl | ⟨mark, hmark, rfl | ⟨hbarline, rfl⟩⟩⟩ := h
  · exact Nat.le_refl _
  · exact hpos (.barline shape e.measure e.times) (by simp)
  · exact (List.pairwise_append.mp hmarks).2.2 mark hmark _ (List.mem_cons_self ..)
  · rw [List.pairwise_filter] at hbarlines
    exact (List.pairwise_append.mp hbarlines).2.2 mark hmark _ (List.mem_cons_self ..) hbarline rfl

/-! ## Scores -/

section Slots

variable {τ : Type}

/-- A jump from the first event behind a measure, back to the first event of a measure that is not
behind it. -/
structure JumpSlot.GoesBack (t : SoundTable τ) (s : JumpSlot) : Prop where
  target_pos : 1 ≤ s.targetMeasure
  target_le : s.targetMeasure ≤ s.triggerMeasure
  event_le : s.targetEvent ≤ s.triggerEvent
  trigger_eq : s.triggerEvent = firstEvent t.measures (s.triggerMeasure + 1)
  target_eq : s.targetEvent = firstEvent t.measures s.targetMeasure
  trigger_lt : s.triggerEvent < t.events.length
  target_lt : s.targetEvent < t.events.length

/-- A jump from the first event of a measure, on to the first event of a later measure. -/
structure JumpSlot.GoesOn (t : SoundTable τ) (s : JumpSlot) : Prop where
  trigger_lt_target : s.triggerMeasure < s.targetMeasure
  event_le : s.triggerEvent ≤ s.targetEvent
  trigger_eq : s.triggerEvent = firstEvent t.measures s.triggerMeasure
  target_eq : s.targetEvent = firstEvent t.measures s.targetMeasure
  trigger_lt : s.triggerEvent < t.events.length
  target_lt : s.targetEvent < t.events.length

variable [TimeValue τ] {score : Score τ}

theorem Leap.goesBack_backSlot {l : Leap} (hpos : 1 ≤ l.target) (hle : l.target ≤ l.measure) :
    (l.backSlot (SoundTable.ofScore score).measures).GoesBack (.ofScore score) where
  target_pos := hpos
  target_le := hle
  event_le := firstEvent_mono (Nat.le_succ_of_le hle)
  trigger_eq := rfl
  target_eq := rfl
  trigger_lt := SoundTable.firstEvent_lt score _
  target_lt := SoundTable.firstEvent_lt score _

theorem Leap.goesOn_skipSlot {l : Leap} (hlt : l.measure < l.target) :
    (l.skipSlot (SoundTable.ofScore score).measures).GoesOn (.ofScore score) where
  trigger_lt_target := hlt
  event_le := firstEvent_mono hlt.le
  trigger_eq := rfl
  target_eq := rfl
  trigger_lt := SoundTable.firstEvent_lt score _
  target_lt := SoundTable.firstEvent_lt score _

end Slots

/-- Where measures never decrease in time, an entry of an analysed score jumps back from behind the
measure of its repeat end. If it is that of an ending, its skip goes on from the start of the
bracket. -/
theorem SoundTable.goesBack_and_goesOn {τ : Type} [TimeValue τ] {settings : Settings} {tree : Node}
    {analysis : Analysis τ} (h : analyse settings tree = .ok analysis) {score : Score τ}
    (hs : score ∈ analysis.document.scores) (hascends : score.AscendsInTime) {e : JumpEntry}
    (he : e ∈ (ofScore score).jumps.entries) :
    ∃ (back : JumpSlot) (skip : Option JumpSlot), e.slots = back :: skip.toList ∧
      back.GoesBack (ofScore score) ∧ ∀ s ∈ skip, s.GoesOn (ofScore score) := by
  have hgrown := isGrown_of_analyse h hs
  obtain ⟨r, hr, rfl⟩ := List.mem_map.mp he
  have hends := (RepeatPlan.comesFrom_of_mem_ofMarks hr).back
  have hpos : 1 ≤ r.back.target := hends.pos hgrown.one_le_measure
  have hle : r.back.target ≤ r.back.measure :=
    hends.start_le_measure hgrown.one_le_measure hascends.pairwise_repeatMarks
      (hgrown.pairwise_isBarline hascends)
  refine ⟨r.back.backSlot (ofScore score).measures,
    r.skip.map (Leap.skipSlot (ofScore score).measures), ?_, Leap.goesBack_backSlot hpos hle, ?_⟩
  · rw [Option.toList_map]
    rfl
  · intro s hslot
    obtain ⟨leap, hleap, rfl⟩ := Option.map_eq_some_iff.mp hslot
    have hcovered := (RepeatPlan.IsCovered.ofMarks (repeatMarks score)).repeats r hr leap hleap
    exact Leap.goesOn_skipSlot (Nat.lt_of_le_of_lt hcovered.1 hcovered.2)

/-- The second ending is inside the first one, and both repeat the section behind measure 1. -/
def nestedEndings : Node :=
  let here : Position := ⟨1, 1⟩
  let word (text : String) : Node := .atom .label text here
  let number (text : String) : Node := .atom .number text here
  let note : Node := .element .note [word "c4", word "w"] here
  let barline (shape : String) : Node := .element .barline [word shape] here
  let volta (ending span : String) : Node := .element .volta [number ending, number span] here
  .element .score [.element .instrument [.element .music
    [note, barline "startRepetition", volta "1" "3", note, barline "simple", volta "2" "1", note,
      barline "endRepetition", note, barline "endRepetition", note] here] here] here

theorem goesBack_and_goesOn_nestedEndings :
    ∃ analysis : Analysis Rat, analyse {} nestedEndings = .ok analysis ∧
      ∃ score ∈ analysis.document.scores,
        (SoundTable.ofScore score).jumps.entries =
          [⟨[⟨4, 9, 1, 0, 2, 3⟩, ⟨2, 3, 1, 0, 5, 9⟩]⟩, ⟨[⟨3, 7, 1, 0, 2, 3⟩, ⟨3, 5, 1, 0, 4, 7⟩]⟩] ∧
        (JumpSlot.mk 3 7 1 0 2 3).GoesBack (.ofScore score) ∧
        (JumpSlot.mk 3 5 1 0 4 7).GoesOn (.ofScore score) := by
  have h : (analyse {} nestedEndings : Except CompileError (Analysis Rat)) = .ok _ := rfl
  refine ⟨_, h, _, List.mem_singleton.mpr rfl, by decide +kernel, ?_⟩
  obtain ⟨back, skip, hslots, hback, hskip⟩ := SoundTable.goesBack_and_goesOn h
    (List.mem_singleton.mpr rfl) (ascendsInTime_of_analyse h (List.mem_singleton.mpr rfl))
    (show ⟨[⟨3, 7, 1, 0, 2, 3⟩, ⟨3, 5, 1, 0, 4, 7⟩]⟩ ∈ _ by decide +kernel)
  cases skip with
  | none => simp at hslots
  | some slot =>
      obtain ⟨rfl, rfl⟩ : _ = back ∧ _ = slot := by simpa using hslots
      exact ⟨hback, hskip _ rfl⟩

end ScorePlayback
