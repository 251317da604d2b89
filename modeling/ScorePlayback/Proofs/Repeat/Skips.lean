import ScorePlayback.Analysis.ScoreElement
import ScorePlayback.Proofs.Player.MeasureSequence
import ScorePlayback.Proofs.Player.Skips
import ScorePlayback.Proofs.Repeat.Plan

/-! # Brackets of a score that stay skipped

The skips of a bracket are counted by the numbers of the endings behind it, but playback comes
back to it as often as their repeat ends say. A bracket stays skipped if and only if its skips are
more than these jumps back. -/

namespace ScorePlayback

theorem RepeatPlan.required_pos {index : List Nat} {marks : List RepeatMark} {back skip : JumpSlot}
    {rest : List JumpSlot}
    (h : (⟨back :: skip :: rest⟩ : JumpEntry) ∈ ((ofMarks marks).jumpTable index).entries) :
    0 < skip.required := by
  obtain ⟨r, hr, hentry⟩ := List.mem_map.mp h
  have htimes : ∀ leap ∈ r.skip, 0 < leap.times :=
    forall_repeats_ofMarks (motive := fun r => ∀ leap ∈ r.skip, 0 < leap.times)
      (fun start last b r hr => by
        obtain ⟨e, -, rfl⟩ := Option.map_eq_some_iff.mp hr
        rintro leap ⟨⟩
        exact Nat.le_max_left 1 _)
      (fun back => by simp) marks r hr
  obtain ⟨leapBack, _ | leap⟩ := r
  · simp [SectionRepeat.entry] at hentry
  · obtain ⟨-, rfl, -⟩ : _ ∧ _ ∧ _ := by simpa [SectionRepeat.entry] using hentry
    exact htimes leap rfl

namespace SoundTable

variable {τ : Type} [TimeValue τ]

theorem close_lt (score : Score τ) :
    ∀ e ∈ (ofScore score).jumps.entries, e.stretch.close < (ofScore score).events.length := by
  intro e he
  obtain ⟨r, -, rfl⟩ := List.mem_map.mp he
  exact firstEvent_lt score _

/-- A bracket stays skipped where no jump leads into it and its skips are more than the jumps
back over its opening. Where the brackets of a score follow each other this is the only way: with
fewer skips it is played again. -/
theorem staysSkipped_iff (score : Score τ) {i : Nat} {back skip : JumpSlot}
    (h : (ofScore score).jumps.entries[i]? = some ⟨[back, skip]⟩) :
    ((∀ d ∈ (ofScore score).jumps.entries.eraseIdx i,
        d.stretch.Avoids (JumpEntry.stretch ⟨[back, skip]⟩)) →
      returnsOver skip.triggerEvent ((ofScore score).jumps.entries.eraseIdx i) < skip.required →
        (ofScore score).StaysSkipped i) ∧
    (AreTidy (ofScore score).jumps.entries →
      ((ofScore score).StaysSkipped i ↔ skip.targetEvent ≤ skip.triggerEvent ∨
        returnsOver skip.triggerEvent ((ofScore score).jumps.entries.eraseIdx i) <
          skip.required)) := by
  have hrequired : 0 < skip.required := RepeatPlan.required_pos (List.mem_of_getElem? h)
  have hclose := close_lt score
  rw [← reset_jumps score] at h hclose ⊢
  exact ⟨staysSkipped_of_returnsOver_lt h, fun htidy =>
    staysSkipped_iff_of_areTidy h htidy hclose hrequired⟩

end SoundTable

/-- Two endings behind a common measure. The second one is played twice more before the end. -/
def repeatedEnding : Score Rat :=
  let here : Position := ⟨1, 1⟩
  let word (text : String) : Node := .atom .label text here
  let number (text : String) : Node := .atom .number text here
  let note : Node := .element .note [word "c4", word "w"] here
  let barline (parts : List Node) : Node := .element .barline parts here
  let volta (ending : String) : Node := .element .volta [number ending] here
  (analyseScore {} [.element .instrument [.element .music
    [note, barline [], volta "1", note, barline [word "endRepetition"], volta "2", note,
      barline [word "endRepetition", .element .times [number "2"] here], note] here] here]).score

/-- The first ending has one skip for two jumps back. -/
theorem staysSkipped_repeatedEnding :
    ¬ (SoundTable.ofScore repeatedEnding).StaysSkipped 0 ∧
      (SoundTable.ofScore repeatedEnding).StaysSkipped 1 := by
  have hfirst : (SoundTable.ofScore repeatedEnding).jumps.entries[0]? =
      some ⟨[⟨2, 5, 1, 0, 1, 1⟩, ⟨2, 3, 1, 0, 3, 5⟩]⟩ := by decide +kernel
  have hsecond : (SoundTable.ofScore repeatedEnding).jumps.entries[1]? =
      some ⟨[⟨3, 7, 2, 0, 1, 1⟩, ⟨3, 5, 1, 0, 4, 7⟩]⟩ := by decide +kernel
  constructor
  · rw [(SoundTable.staysSkipped_iff repeatedEnding hfirst).2 (by decide +kernel)]
    decide +kernel
  · exact (SoundTable.staysSkipped_iff repeatedEnding hsecond).1 (by decide +kernel)
      (by decide +kernel)

end ScorePlayback
