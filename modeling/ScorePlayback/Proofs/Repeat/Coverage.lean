import ScorePlayback.Proofs.Analysis.MarkOrder
import ScorePlayback.Proofs.Analysis.MeasuredTime
import ScorePlayback.Proofs.Player.Coverage
import ScorePlayback.Proofs.Repeat.Origins
import ScorePlayback.Proofs.Repeat.Skips

/-! # What a score leaves out

Every event of a score is played, except where a bracket goes on behind its repeat end: the skip
leads past the whole bracket, and what follows the repeat end has not been played when it is
taken. If the measures do not ascend in time, a section may moreover start behind its repeat end,
and then its jump back leads forwards. -/

namespace ScorePlayback

/-! ## The entries of a score -/

theorem RepeatPlan.rest_eq_nil {index : List Nat} {p : RepeatPlan} {back skip : JumpSlot}
    {rest : List JumpSlot}
    (h : (⟨back :: skip :: rest⟩ : JumpEntry) ∈ (p.jumpTable index).entries) : rest = [] := by
  obtain ⟨⟨leapBack, _ | leap⟩, -, hentry⟩ := List.mem_map.mp h
  · simp [SectionRepeat.entry] at hentry
  · obtain ⟨-, -, hrest⟩ : _ ∧ _ ∧ _ := by simpa [SectionRepeat.entry] using hentry
    exact hrest

namespace SoundTable

variable {τ : Type} [TimeValue τ]

theorem start_le_close {score : Score τ} (h : score.AscendsInTime) :
    ∀ e ∈ (ofScore score).jumps.entries, e.stretch.start ≤ e.stretch.close := by
  intro e he
  obtain ⟨r, hr, rfl⟩ := List.mem_map.mp he
  have hends := (RepeatPlan.comesFrom_of_mem_ofMarks hr).back
  exact firstEvent_mono (hends.start_le h.pairwise_repeatMarks)

theorem passes_pos {score : Score τ} (h : score.Obeys Part.Repeats) :
    ∀ e ∈ (ofScore score).jumps.entries, 0 < e.passes := by
  intro e he
  obtain ⟨r, hr, rfl⟩ := List.mem_map.mp he
  obtain ⟨shape, hmark⟩ := (RepeatPlan.comesFrom_of_mem_ofMarks hr).back.exists_mem
  exact h.one_le_times shape _ _ hmark

/-- An event of an analysed score is played, or it is behind the repeat end of a bracket and still
inside the bracket, or a jump back that goes forwards passes it. There is no such jump where the
measures of the first instrument ascend in time. Where the brackets follow each other, exactly those
events are left out whose bracket is skipped more often than playback comes back to it. -/
theorem mem_playOrder_or_behind_repeatEnd {settings : Settings} {tree : Node}
    {analysis : Analysis τ} (h : analyse settings tree = .ok analysis)
    (hsettings : 1 ≤ settings.repeatTimes) {score : Score τ}
    (hs : score ∈ analysis.document.scores) {event : Nat}
    (hevent : event < (ofScore score).events.length) :
    (event ∈ (ofScore score).playOrder ∨
      (∃ back skip : JumpSlot, ⟨[back, skip]⟩ ∈ (ofScore score).jumps.entries ∧
        back.triggerEvent ≤ event ∧ event < skip.targetEvent) ∨
      ∃ e ∈ (ofScore score).jumps.entries, ∃ back ∈ e.back?,
        back.triggerEvent ≤ event ∧ event < back.targetEvent) ∧
    (score.AscendsInTime → ∀ e ∈ (ofScore score).jumps.entries, ∀ back ∈ e.back?,
      back.targetEvent ≤ back.triggerEvent) ∧
    (AreTidy (ofScore score).jumps.entries →
      (event ∉ (ofScore score).playOrder ↔ ∃ (i : Nat) (back skip : JumpSlot),
        (ofScore score).jumps.entries[i]? = some ⟨[back, skip]⟩ ∧
          back.triggerEvent ≤ event ∧ event < skip.targetEvent ∧
          returnsOver skip.triggerEvent ((ofScore score).jumps.entries.eraseIdx i) <
            skip.required)) := by
  have hpasses := passes_pos ((isPartLaw_repeats hsettings).obeys_of_analyse h hs)
  have hclose := close_lt score
  have hrest (back skip : JumpSlot) (rest : List JumpSlot)
      (he : ⟨back :: skip :: rest⟩ ∈ (ofScore score).jumps.entries) : rest = [] :=
    RepeatPlan.rest_eq_nil he
  have hrequired (back skip : JumpSlot) (rest : List JumpSlot)
      (he : ⟨back :: skip :: rest⟩ ∈ (ofScore score).jumps.entries) : 0 < skip.required :=
    RepeatPlan.required_pos he
  refine ⟨?_, fun hascends e he back hback => ?_, ?_⟩
  · rw [← reset_jumps score] at hpasses hrest ⊢
    refine (mem_playOrder_or_omits hpasses hevent).imp_right ?_
    rintro ⟨e, he, homits | hover⟩
    · obtain ⟨back, skip, rest, rfl⟩ := homits.exists_slots
      obtain rfl := hrest _ _ _ he
      exact .inl ⟨back, skip, he, homits⟩
    · obtain ⟨back, hback, hevents⟩ := hover.exists_back
      exact .inr ⟨e, he, back, hback, hevents⟩
  · obtain ⟨slots, rfl⟩ : ∃ rest, e = ⟨back :: rest⟩ := JumpEntry.exists_of_back? hback
    exact start_le_close hascends _ he
  · rw [← reset_jumps score] at hpasses hclose hrest hrequired ⊢
    intro htidy
    rw [notMem_playOrder_iff_of_areTidy htidy hclose hpasses hrequired hevent]
    constructor
    · rintro ⟨i, back, skip, rest, hi, homitted⟩
      obtain rfl := hrest _ _ _ (List.mem_of_getElem? hi)
      exact ⟨i, back, skip, hi, homitted⟩
    · rintro ⟨i, back, skip, hi, homitted⟩
      exact ⟨i, back, skip, [], hi, homitted⟩

end SoundTable

/-- The first ending lasts two measures, but it ends its repeat after the first one. -/
def earlyRepeatEnd : Node :=
  let here : Position := ⟨1, 1⟩
  let word (text : String) : Node := .atom .label text here
  let number (text : String) : Node := .atom .number text here
  let note : Node := .element .note [word "c4", word "w"] here
  let barline (parts : List Node) : Node := .element .barline parts here
  .element .score [.element .instrument [.element .music
    [note, barline [], .element .volta [number "1", number "2"] here, note,
      barline [word "endRepetition"], note, barline [], note] here] here] here

/-- The skip passes the second measure of the ending, which is never played. -/
theorem not_forall_mem_playOrder :
    ¬ ∀ (settings : Settings) (tree : Node) (analysis : Analysis Rat),
      analyse settings tree = .ok analysis → 1 ≤ settings.repeatTimes →
        ∀ score ∈ analysis.document.scores,
          ∀ event < (SoundTable.ofScore score).events.length,
            event ∈ (SoundTable.ofScore score).playOrder := by
  intro hall
  have h := hall {} earlyRepeatEnd _ rfl (by decide) _ (List.mem_singleton.mpr rfl) 5
  exact absurd (h (by decide +kernel)) (by decide +kernel)

theorem mem_playOrder_earlyRepeatEnd :
    ∃ analysis : Analysis Rat, analyse {} earlyRepeatEnd = .ok analysis ∧
      ∃ score ∈ analysis.document.scores,
        5 ∉ (SoundTable.ofScore score).playOrder ∧ 7 ∈ (SoundTable.ofScore score).playOrder := by
  have h : (analyse {} earlyRepeatEnd : Except CompileError (Analysis Rat)) = .ok _ := rfl
  refine ⟨_, h, _, List.mem_singleton.mpr rfl, ?_, ?_⟩
  · have hlost := SoundTable.mem_playOrder_or_behind_repeatEnd h (by decide)
      (List.mem_singleton.mpr rfl) (show 5 < _ by decide +kernel)
    refine (hlost.2.2 (by decide +kernel)).mpr ⟨0, ⟨2, 5, 1, 0, 1, 1⟩, ⟨2, 3, 1, 0, 4, 7⟩, ?_⟩
    decide +kernel
  · have hplayed := SoundTable.mem_playOrder_or_behind_repeatEnd h (by decide)
      (List.mem_singleton.mpr rfl) (show 7 < _ by decide +kernel)
    refine hplayed.1.resolve_right ?_
    rintro (⟨back, skip, hmem, -, hlt⟩ | ⟨e, he, back, hback, hge, hlt⟩)
    · rw [show (SoundTable.ofScore (_ : Score Rat)).jumps.entries =
        [⟨[⟨2, 5, 1, 0, 1, 1⟩, ⟨2, 3, 1, 0, 4, 7⟩]⟩] by decide +kernel] at hmem
      obtain ⟨-, rfl⟩ : _ ∧ _ := by simpa using hmem
      exact absurd hlt (by decide)
    · have hascends := ascendsInTime_of_analyse h (List.mem_singleton.mpr rfl)
      have hle := hplayed.2.1 hascends e he back hback
      omega

end ScorePlayback
