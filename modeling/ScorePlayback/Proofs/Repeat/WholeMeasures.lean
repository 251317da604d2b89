import ScorePlayback.Proofs.Analysis.MarkOrder
import ScorePlayback.Proofs.Repeat.Origins

/-! # Playing whole measures

Marks are in measures that are counted from 1, so every jump of an analysed score leads from the
start of a measure to the start of a measure. If the measures start at different events, the
measures that are played say everything about the events that are played. -/

namespace ScorePlayback

namespace SoundTable

variable {τ : Type}

/-- The events from the start of a measure up to the start of the next one. -/
def measureEvents (t : SoundTable τ) (measure : Nat) : List Nat :=
  List.range' (firstEvent t.measures measure)
    (firstEvent t.measures (measure + 1) - firstEvent t.measures measure)

/-- A measure starts at an event, or the end behind the last measure does. -/
def StartsMeasure (t : SoundTable τ) (event : Nat) : Prop :=
  ∃ measure ∈ Set.Icc 1 (t.measureCount + 1), firstEvent t.measures measure = event

variable [TimeValue τ]

/-- A player of the measures comes to the end once. In front of it are the measures that are
played. -/
theorem playMeasures_eq {score : Score τ} {p : RepeatPlan}
    (hp : RepeatPlan.ofMarks (repeatMarks score) = p) (hpos : p.IsPositive)
    (hsep : (ofScore score).SeparatesMeasures) :
    p.playMeasures (ofScore score).measureCount =
        (ofScore score).measureSequence ++ [(ofScore score).measureCount + 1] ∧
      ∀ measure ∈ (ofScore score).measureSequence, measure ≤ (ofScore score).measureCount := by
  have hwithin := RepeatPlan.within_jumpTable hpos (ofScore score).measureCount
  have hmem := RepeatPlan.mem_playFrom_of_within hwithin
    (show 1 ∈ Set.Icc 1 ((ofScore score).measureCount + 1) from ⟨le_rfl, by omega⟩)
  have htargets : ∀ e ∈ (p.jumpTable (List.range ((ofScore score).measureCount + 2))).reset.entries,
      ∀ slot ∈ e.slots, slot.targetEvent < (ofScore score).measureCount + 2 := by
    rw [RepeatPlan.reset_jumpTable]
    intro e he slot hslot
    exact Nat.lt_succ_of_le (hwithin e he slot hslot).2.2
  obtain ⟨front, hplay, hfront⟩ := playFrom_eq_append_last htargets (by omega : 1 < _)
  rw [measureSequence_eq hp hpos hsep, RepeatPlan.playMeasures, hplay]
  rw [hplay] at hmem
  have hle : ∀ measure ∈ front, measure ≤ (ofScore score).measureCount := by
    intro measure hmeasure
    have hlast := (hmem measure (by simp [hmeasure])).2
    refine Nat.le_of_lt_succ (Nat.lt_of_le_of_ne hlast ?_)
    rintro rfl
    exact hfront hmeasure
  rw [List.filter_append, List.filter_eq_self.mpr (by simpa using hle)]
  simpa using hle

/-- Every slot of a score leads from the start of a measure to the start of a measure. -/
theorem startsMeasure_of_mem {score : Score τ}
    (hpos : (RepeatPlan.ofMarks (repeatMarks score)).IsPositive) :
    ∀ e ∈ (ofScore score).jumps.entries, ∀ slot ∈ e.slots,
      (ofScore score).StartsMeasure slot.triggerEvent ∧
        (ofScore score).StartsMeasure slot.targetEvent := by
  intro e he slot hslot
  rw [show (ofScore score).jumps = _ from
    RepeatPlan.jumpTable_eq_mapEvents (length_measures score) _] at he
  obtain ⟨d, hd, rfl⟩ := List.mem_map.mp he
  obtain ⟨s, hs, rfl⟩ := List.mem_map.mp hslot
  obtain ⟨htrigger, htarget⟩ := RepeatPlan.within_jumpTable hpos _ d hd s hs
  exact ⟨⟨_, htrigger, rfl⟩, ⟨_, htarget, rfl⟩⟩

/-- Where the measures of an analysed score start at different events, playback starts with the
control events, goes on with all events of each measure that is played, and stops with the events
behind the last measure. It jumps from starts of measures to starts of measures only. -/
theorem playOrder_eq_flatMap_measureEvents {settings : Settings} {tree : Node}
    {analysis : Analysis τ} (h : analyse settings tree = .ok analysis) {score : Score τ}
    (hs : score ∈ analysis.document.scores) (hsep : (ofScore score).SeparatesMeasures) :
    (ofScore score).playOrder =
        List.range' 0 (firstEvent (ofScore score).measures 1) ++
        (ofScore score).measureSequence.flatMap (ofScore score).measureEvents ++
        List.range' (firstEvent (ofScore score).measures ((ofScore score).measureCount + 1))
          ((ofScore score).events.length -
            firstEvent (ofScore score).measures ((ofScore score).measureCount + 1)) ∧
      ∀ moves p, Run (ofScore score).events.length (ofScore score).start moves p →
        ∀ event target, Move.jump event target ∈ moves →
          (ofScore score).StartsMeasure event ∧ (ofScore score).StartsMeasure target := by
  have hpos := RepeatPlan.isPositive_ofMarks (isGrown_of_analyse h hs).one_le_measure
  constructor
  · obtain ⟨hplay, hle⟩ := playMeasures_eq rfl hpos hsep
    rw [playOrder_eq rfl hpos hsep, hplay, List.flatMap_append, List.append_assoc]
    congr 2
    · refine List.flatMap_congr fun measure hmeasure => ?_
      rw [measureBlock, if_pos (Nat.lt_succ_of_le (hle measure hmeasure)), measureEvents]
    · simp [measureBlock]
  · intro moves p hrun event target hjump
    obtain ⟨e, he, slot, hslot, rfl, rfl⟩ := hrun.exists_slot hjump
    rw [show (ofScore score).start.jumps = (ofScore score).jumps from reset_jumps score,
      reset_jumps] at he
    exact startsMeasure_of_mem hpos e he slot hslot

end SoundTable

/-- Two endings, of which the first one is repeated twice, behind a measure of two notes. -/
def repeatedFirstEnding : Node :=
  let here : Position := ⟨1, 1⟩
  let word (text : String) : Node := .atom .label text here
  let number (text : String) : Node := .atom .number text here
  let note (length : String) : Node := .element .note [word "c4", word length] here
  let barline (parts : List Node) : Node := .element .barline parts here
  let volta (ending : String) : Node := .element .volta [number ending] here
  .element .score [.element .instrument [.element .music
    [note "h", note "h", barline [], volta "1", note "w",
      barline [word "endRepetition", .element .times [number "2"] here], volta "2", note "w"]
    here] here] here

theorem playOrder_repeatedFirstEnding :
    ∃ analysis : Analysis Rat, analyse {} repeatedFirstEnding = .ok analysis ∧
      ∃ score ∈ analysis.document.scores, (SoundTable.ofScore score).SeparatesMeasures ∧
        (SoundTable.ofScore score).measureSequence = [1, 2, 1, 2, 1, 3] ∧
        (SoundTable.ofScore score).playOrder =
          [0] ++ [1, 2, 3, 4] ++ [5, 6] ++ [1, 2, 3, 4] ++ [5, 6] ++ [1, 2, 3, 4] ++ [7, 8] ++ [9] := by
  have h : (analyse {} repeatedFirstEnding : Except CompileError (Analysis Rat)) = .ok _ := rfl
  refine ⟨_, h, _, List.mem_singleton.mpr rfl, by decide +kernel, by decide +kernel, ?_⟩
  rw [(SoundTable.playOrder_eq_flatMap_measureEvents h (List.mem_singleton.mpr rfl)
    (by decide +kernel)).1]
  decide +kernel
end ScorePlayback
