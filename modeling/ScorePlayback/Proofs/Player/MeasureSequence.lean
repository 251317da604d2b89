import Mathlib.Algebra.Order.SuccPred
import Mathlib.Data.Nat.SuccPred
import ScorePlayback.Proofs.Player.Measures

/-! # The measures of a score in the order in which they are played

The repeats of a score are a jump table over measures as well. Where the measure index is
strictly increasing, the player of that table visits the measures that are played. -/

namespace ScorePlayback

/-- All measures, and the end behind the last one, start at different events. -/
def SoundTable.SeparatesMeasures {τ : Type} (t : SoundTable τ) : Prop :=
  StrictMonoOn (firstEvent t.measures) (Set.Icc 1 (t.measureCount + 1))

theorem SoundTable.separatesMeasures_iff {τ : Type} {t : SoundTable τ} :
    t.SeparatesMeasures ↔ ∀ measure ∈ List.range' 1 t.measureCount,
      firstEvent t.measures measure < firstEvent t.measures (measure + 1) := by
  constructor
  · intro h measure hm
    obtain ⟨h₁, h₂⟩ := List.mem_range'_1.mp hm
    exact h ⟨h₁, by omega⟩ ⟨by omega, by omega⟩ (Nat.lt_succ_self measure)
  · intro h
    refine strictMonoOn_of_lt_add_one Set.ordConnected_Icc fun measure _ h₁ h₂ => ?_
    exact h measure (List.mem_range'_1.mpr ⟨h₁.1, by have := Nat.lt_of_succ_le h₂.2; omega⟩)

instance {τ : Type} (t : SoundTable τ) : Decidable t.SeparatesMeasures :=
  decidable_of_iff' _ SoundTable.separatesMeasures_iff

namespace RepeatPlan

/-- Repeats lead to and from measures that exist: measures are counted from 1. -/
def IsPositive (p : RepeatPlan) : Prop :=
  ∀ r ∈ p.repeats, 1 ≤ r.back.target ∧ ∀ skip ∈ r.skip, 1 ≤ skip.measure ∧ 1 ≤ skip.target

/-- The measures as they are played, and at last the end behind `count` measures. -/
def playMeasures (p : RepeatPlan) (count : Nat) : List Nat :=
  playFrom (count + 2) (p.jumpTable (List.range (count + 2))) 1

/-! ## The table over measures -/

theorem reset_jumpTable (index : List Nat) (p : RepeatPlan) :
    (p.jumpTable index).reset = p.jumpTable index := by
  have hentry (r : SectionRepeat) : (r.entry index).reset = r.entry index := by
    cases hs : r.skip <;>
      simp [SectionRepeat.entry, JumpEntry.reset, JumpSlot.reset, Leap.backSlot, Leap.skipSlot, hs]
  simp [JumpTable.reset, jumpTable, hentry]

theorem firstEvent_range (count measure : Nat) :
    firstEvent (List.range (count + 2)) measure = min measure (count + 1) := by
  simp [firstEvent, List.getD_eq_getElem?_getD]

theorem firstEvent_range_of_le {count measure : Nat} (h : measure ≤ count + 1) :
    firstEvent (List.range (count + 2)) measure = measure := by
  rw [firstEvent_range, Nat.min_eq_left h]

theorem firstEvent_min {index : List Nat} {count : Nat} (h : index.length = count + 2)
    (measure : Nat) : firstEvent index (min measure (count + 1)) = firstEvent index measure := by
  simp [firstEvent, h]

theorem jumpTable_eq_mapEvents {index : List Nat} {count : Nat} (h : index.length = count + 2)
    (p : RepeatPlan) :
    p.jumpTable index = (p.jumpTable (List.range (count + 2))).mapEvents (firstEvent index) := by
  have hback (l : Leap) :
      (l.backSlot (List.range (count + 2))).mapEvents (firstEvent index) = l.backSlot index := by
    simp only [Leap.backSlot, JumpSlot.mapEvents, firstEvent_range, firstEvent_min h]
  have hskip (l : Leap) :
      (l.skipSlot (List.range (count + 2))).mapEvents (firstEvent index) = l.skipSlot index := by
    simp only [Leap.skipSlot, JumpSlot.mapEvents, firstEvent_range, firstEvent_min h]
  have hentry (r : SectionRepeat) :
      (r.entry (List.range (count + 2))).mapEvents (firstEvent index) = r.entry index := by
    cases hs : r.skip <;> simp [SectionRepeat.entry, JumpEntry.mapEvents, hback, hskip, hs]
  simp [jumpTable, JumpTable.mapEvents, hentry]

theorem within_jumpTable {p : RepeatPlan} (h : p.IsPositive) (count : Nat) :
    (p.jumpTable (List.range (count + 2))).Within (count + 1) := by
  intro e he slot hslot
  obtain ⟨r, hr, rfl⟩ := List.mem_map.mp he
  obtain ⟨hback, hskip⟩ := h r hr
  simp only [SectionRepeat.entry, List.mem_cons, List.mem_map, Option.mem_toList] at hslot
  rcases hslot with rfl | ⟨skip, hs, rfl⟩
  · simp only [Leap.backSlot, firstEvent_range, Set.mem_Icc]
    omega
  · obtain ⟨h₁, h₂⟩ := hskip skip hs
    simp only [Leap.skipSlot, firstEvent_range, Set.mem_Icc]
    omega

theorem mem_playFrom_of_within {last : Nat} {t : JumpTable} (ht : t.Within last) {measure : Nat}
    (hmeasure : measure ∈ Set.Icc 1 last) :
    ∀ m ∈ playFrom (last + 1) t measure, m ∈ Set.Icc 1 last := by
  induction t, measure using playFrom.induct (last + 1) with
  | case1 t measure hlt target rest hfollow ih =>
      rw [playFrom_of_jump hlt hfollow]
      exact ih (ht.of_follow? hfollow) (ht.target_mem hfollow)
  | case2 t measure hlt hfollow ih =>
      rw [playFrom_of_play hlt hfollow]
      intro m hm
      rcases List.mem_cons.mp hm with rfl | hm
      · exact hmeasure
      · by_cases hlast : measure < last
        · exact ih ht ⟨by omega, hlast⟩ m hm
        · rw [playFrom_of_size_le t (by omega)] at hm
          simp at hm
  | case3 t measure hge => exact absurd (Nat.lt_succ_of_le hmeasure.2) hge

end RepeatPlan

/-! ## Events and measures of a score -/

namespace SoundTable

variable {τ : Type} [TimeValue τ]

theorem reset_jumps (score : Score τ) : (ofScore score).jumps.reset = (ofScore score).jumps :=
  RepeatPlan.reset_jumpTable _ _

theorem length_measures (score : Score τ) :
    (ofScore score).measures.length = (ofScore score).measureCount + 2 :=
  length_measureIndex _ _

/-- The control events are played first, then measure by measure all events of each. -/
theorem playOrder_eq {score : Score τ} {p : RepeatPlan}
    (hp : RepeatPlan.ofMarks (repeatMarks score) = p) (hpos : p.IsPositive)
    (hsep : (ofScore score).SeparatesMeasures) :
    (ofScore score).playOrder =
      List.range' 0 (firstEvent (ofScore score).measures 1) ++
        (p.playMeasures (ofScore score).measureCount).flatMap
          (measureBlock (firstEvent (ofScore score).measures) ((ofScore score).measureCount + 1)
            (ofScore score).events.length) := by
  have hjumps : (ofScore score).jumps.reset = (p.jumpTable
      (List.range ((ofScore score).measureCount + 2))).mapEvents
        (firstEvent (ofScore score).measures) := by
    rw [← RepeatPlan.jumpTable_eq_mapEvents (length_measures score) p, ← hp]
    exact RepeatPlan.reset_jumpTable _ _
  have hwithin := RepeatPlan.within_jumpTable hpos (ofScore score).measureCount
  have hone : 1 ∈ Set.Icc 1 ((ofScore score).measureCount + 1) := ⟨le_rfl, by omega⟩
  rw [playOrder, hjumps, playFrom_of_quiet (firstEvent (ofScore score).measures 1)
    (by simpa using (firstEvent_lt score 1).le), Nat.zero_add,
    playFrom_mapEvents hsep (firstEvent_lt score _) hwithin hone]
  · rfl
  · intro event _ hevent
    refine JumpTable.follow?_mapEvents_eq_none hwithin fun m hm => ?_
    have hle := hsep.monotoneOn hone hm hm.1
    omega

theorem getElem?_measures (score : Score τ) {measure : Nat}
    (h : measure ≤ (ofScore score).measureCount + 1) :
    (ofScore score).measures[measure]? = some (firstEvent (ofScore score).measures measure) := by
  have hlen := length_measures score
  have hmin : min measure ((ofScore score).measures.length - 1) = measure := by omega
  rw [firstEvent, hmin, List.getD_eq_getElem?_getD, List.getElem?_eq_getElem (by omega)]
  rfl

theorem measuresAt_eq (score : Score τ) (event : Nat) :
    measuresAt (ofScore score).measures (ofScore score).measureCount event =
      (List.range' 1 (ofScore score).measureCount).filter fun measure =>
        firstEvent (ofScore score).measures measure = event := by
  refine List.filter_congr fun measure hm => ?_
  obtain ⟨-, hm⟩ := List.mem_range'_1.mp hm
  simp [getElem?_measures score (show measure ≤ (ofScore score).measureCount + 1 by omega)]

theorem measuresAt_firstEvent {score : Score τ} (hsep : (ofScore score).SeparatesMeasures)
    {measure : Nat} (hmeasure : measure ∈ Set.Icc 1 ((ofScore score).measureCount + 1)) :
    measuresAt (ofScore score).measures (ofScore score).measureCount
        (firstEvent (ofScore score).measures measure) =
      if measure ≤ (ofScore score).measureCount then [measure] else [] := by
  have hcongr : ∀ m ∈ List.range' 1 (ofScore score).measureCount,
      decide (firstEvent (ofScore score).measures m =
        firstEvent (ofScore score).measures measure) = decide (m = measure) := by
    intro m hm
    obtain ⟨hm₁, hm₂⟩ := List.mem_range'_1.mp hm
    exact decide_eq_decide.mpr (hsep.injOn.eq_iff ⟨hm₁, by omega⟩ hmeasure)
  have hpos := hmeasure.1
  rw [measuresAt_eq, List.filter_congr hcongr, List.filter_eq, List.count_range_1']
  by_cases hle : measure ≤ (ofScore score).measureCount
  · rw [if_pos ⟨hpos, by omega⟩, if_pos hle]
    rfl
  · rw [if_neg (by omega), if_neg hle]
    rfl

/-- Between its first event and that of the next measure no measure starts. -/
theorem measuresAt_of_between {score : Score τ} (hsep : (ofScore score).SeparatesMeasures)
    {measure event : Nat} (hmeasure : measure ∈ Set.Icc 1 ((ofScore score).measureCount + 1))
    (hlt : firstEvent (ofScore score).measures measure < event)
    (hnext : measure < (ofScore score).measureCount + 1 →
      event < firstEvent (ofScore score).measures (measure + 1)) :
    measuresAt (ofScore score).measures (ofScore score).measureCount event = [] := by
  rw [measuresAt_eq, List.filter_eq_nil_iff]
  intro m hm
  obtain ⟨hm₁, hm₂⟩ := List.mem_range'_1.mp hm
  simpa using ne_of_between hsep hmeasure hlt hnext ⟨hm₁, by omega⟩

/-- Of the events of a measure only the first one starts a measure, and only this one. -/
theorem flatMap_measureBlock {score : Score τ} (hsep : (ofScore score).SeparatesMeasures)
    {measure : Nat} (hmeasure : measure ∈ Set.Icc 1 ((ofScore score).measureCount + 1)) :
    (measureBlock (firstEvent (ofScore score).measures) ((ofScore score).measureCount + 1)
      (ofScore score).events.length measure).flatMap
        (measuresAt (ofScore score).measures (ofScore score).measureCount) =
      if measure ≤ (ofScore score).measureCount then [measure] else [] := by
  unfold measureBlock
  generalize hstop : (if measure < (ofScore score).measureCount + 1 then
    firstEvent (ofScore score).measures (measure + 1) else (ofScore score).events.length) = stop
  have hlt : firstEvent (ofScore score).measures measure < stop := by
    rw [← hstop]
    split
    · next h => exact hsep hmeasure ⟨by omega, h⟩ (Nat.lt_succ_self _)
    · exact firstEvent_lt score measure
  obtain ⟨count, hcount⟩ := Nat.exists_eq_add_of_lt hlt
  rw [show stop - firstEvent (ofScore score).measures measure = count + 1 by omega,
    List.range'_succ, List.flatMap_cons, measuresAt_firstEvent hsep hmeasure]
  have hnil : (List.range' (firstEvent (ofScore score).measures measure + 1) count).flatMap
      (measuresAt (ofScore score).measures (ofScore score).measureCount) = [] := by
    refine List.flatMap_eq_nil_iff.mpr fun event hevent => ?_
    obtain ⟨h₁, h₂⟩ := List.mem_range'_1.mp hevent
    refine measuresAt_of_between hsep hmeasure (by omega) fun hlast => ?_
    rw [if_pos hlast] at hstop
    omega
  rw [hnil, List.append_nil]

/-- The measures that are played are those that a player of the measures visits. -/
theorem measureSequence_eq {score : Score τ} {p : RepeatPlan}
    (hp : RepeatPlan.ofMarks (repeatMarks score) = p) (hpos : p.IsPositive)
    (hsep : (ofScore score).SeparatesMeasures) :
    (ofScore score).measureSequence =
      (p.playMeasures (ofScore score).measureCount).filter
        (· ≤ (ofScore score).measureCount) := by
  have hone : 1 ∈ Set.Icc 1 ((ofScore score).measureCount + 1) := ⟨le_rfl, by omega⟩
  have hcontrol : (List.range' 0 (firstEvent (ofScore score).measures 1)).flatMap
      (measuresAt (ofScore score).measures (ofScore score).measureCount) = [] := by
    refine List.flatMap_eq_nil_iff.mpr fun event hevent => ?_
    obtain ⟨-, hevent⟩ := List.mem_range'_1.mp hevent
    rw [measuresAt_eq, List.filter_eq_nil_iff]
    intro m hm
    obtain ⟨hm₁, hm₂⟩ := List.mem_range'_1.mp hm
    have hle := hsep.monotoneOn hone ⟨hm₁, by omega⟩ hm₁
    simp only [decide_eq_true_eq]
    omega
  rw [measureSequence, playOrder_eq hp hpos hsep, List.flatMap_append, hcontrol, List.nil_append,
    List.flatMap_assoc]
  have hmem := RepeatPlan.mem_playFrom_of_within
    (RepeatPlan.within_jumpTable hpos (ofScore score).measureCount) hone
  change ∀ m ∈ p.playMeasures (ofScore score).measureCount, _ at hmem
  generalize p.playMeasures (ofScore score).measureCount = played at hmem ⊢
  induction played with
  | nil => rfl
  | cons measure rest ih =>
      rw [List.flatMap_cons, flatMap_measureBlock hsep (hmem measure (by simp)),
        ih fun m hm => hmem m (by simp [hm])]
      by_cases hle : measure ≤ (ofScore score).measureCount <;> simp [hle]

end SoundTable
end ScorePlayback
