import Mathlib.Data.Nat.Basic
import Mathlib.Order.Monotone.Defs
import ScorePlayback.SoundTable

/-! # Where measures start

The measure index of a list of events says for each measure where it starts. The events may be in
any order of measures, and measures without events have a place as well. Both the player and the
repeats look measures up in it, and find the end of the score behind the last one. -/

namespace ScorePlayback

/-! ## The start of a measure -/

/-- The longest front part of a list of events that is all of earlier measures. -/
def earlierFront (eventMeasures : List Nat) (measure : Nat) : List Nat :=
  eventMeasures.takeWhile (· < measure)

/-- A measure starts behind the events of earlier measures. If these are all events, it starts with
the last one. -/
def startOf (eventMeasures : List Nat) (measure : Nat) : Nat :=
  if (earlierFront eventMeasures measure).length < eventMeasures.length then
    (earlierFront eventMeasures measure).length
  else eventMeasures.length - 1

variable {eventMeasures : List Nat}

theorem earlierFront_cons_of_lt {m measure : Nat} (h : m < measure) :
    earlierFront (m :: eventMeasures) measure = m :: earlierFront eventMeasures measure :=
  List.takeWhile_cons_of_pos (decide_eq_true h)

theorem earlierFront_cons_of_le {m measure : Nat} (h : measure ≤ m) :
    earlierFront (m :: eventMeasures) measure = [] :=
  List.takeWhile_cons_of_neg (by simpa using h)

theorem length_earlierFront (eventMeasures : List Nat) (measure : Nat) :
    (earlierFront eventMeasures measure).length = eventMeasures.findIdx (measure ≤ ·) := by
  induction eventMeasures with
  | nil => rfl
  | cons m rest ih =>
      by_cases h : measure ≤ m
      · simp [earlierFront_cons_of_le h, List.findIdx_cons, h]
      · simp [earlierFront_cons_of_lt (Nat.lt_of_not_le h), List.findIdx_cons, h, ih]

/-- Events of earlier measures are earlier than all later measures too. -/
theorem length_earlierFront_mono (eventMeasures : List Nat) {first second : Nat}
    (h : first ≤ second) :
    (earlierFront eventMeasures first).length ≤ (earlierFront eventMeasures second).length := by
  induction eventMeasures with
  | nil => exact Nat.le_refl 0
  | cons m rest ih =>
      by_cases hm : first ≤ m
      · simp [earlierFront_cons_of_le hm]
      · have hlt : m < first := Nat.lt_of_not_le hm
        simpa [earlierFront_cons_of_lt hlt, earlierFront_cons_of_lt (Nat.lt_of_lt_of_le hlt h)]

theorem startOf_zero (eventMeasures : List Nat) : startOf eventMeasures 0 = 0 := by
  cases eventMeasures with
  | nil => rfl
  | cons m rest => simp [startOf, earlierFront_cons_of_le (Nat.zero_le m)]

theorem startOf_lt (h : 0 < eventMeasures.length) (measure : Nat) :
    startOf eventMeasures measure < eventMeasures.length := by
  unfold startOf
  split <;> omega

theorem startOf_mono {first second : Nat} (h : first ≤ second) :
    startOf eventMeasures first ≤ startOf eventMeasures second := by
  have hle := length_earlierFront_mono eventMeasures h
  unfold startOf
  split <;> split <;> omega

/-- The event that ends the front part of earlier measures starts the measure. -/
theorem startOf_append_cons {front rest : List Nat} {m measure : Nat}
    (hfront : ∀ x ∈ front, x < measure) (h : measure ≤ m) :
    startOf (front ++ m :: rest) measure = front.length := by
  have hearlier : earlierFront (front ++ m :: rest) measure = front := by
    rw [earlierFront, List.takeWhile_append_of_pos fun x hx => decide_eq_true (hfront x hx)]
    exact (congrArg (front ++ ·) (earlierFront_cons_of_le h)).trans (List.append_nil front)
  simp [startOf, hearlier]

theorem findIdx?_getD_eq (eventMeasures : List Nat) (measure : Nat) :
    (eventMeasures.findIdx? (measure ≤ ·)).getD (eventMeasures.length - 1) =
      startOf eventMeasures measure := by
  rw [startOf, length_earlierFront, List.findIdx?_eq_guard_findIdx_lt]
  by_cases h : eventMeasures.findIdx (measure ≤ ·) < eventMeasures.length <;>
    simp [Option.guard, h]

/-! ## The index -/

theorem measureIndex_eq (eventMeasures : List Nat) (count : Nat) :
    measureIndex eventMeasures count = (List.range (count + 2)).map (startOf eventMeasures) := by
  rw [measureIndex, List.range_eq_range', List.range'_succ (n := count + 1), List.map_cons,
    startOf_zero]
  simp only [findIdx?_getD_eq]

theorem length_measureIndex (eventMeasures : List Nat) (count : Nat) :
    (measureIndex eventMeasures count).length = count + 2 := by
  rw [measureIndex_eq, List.length_map, List.length_range]

theorem measureIndex_ne_nil (eventMeasures : List Nat) (count : Nat) :
    measureIndex eventMeasures count ≠ [] := List.cons_ne_nil _ _

theorem getElem?_measureIndex {count measure : Nat} (h : measure ≤ count + 1) :
    (measureIndex eventMeasures count)[measure]? = some (startOf eventMeasures measure) := by
  rw [measureIndex_eq, List.getElem?_map, List.getElem?_range (by omega), Option.map_some]

theorem pairwise_measureIndex (eventMeasures : List Nat) (count : Nat) :
    (measureIndex eventMeasures count).Pairwise (· ≤ ·) := by
  rw [measureIndex_eq, List.pairwise_map]
  exact List.pairwise_le_range.imp startOf_mono

theorem lt_length_of_mem_measureIndex {count event : Nat} (hpos : 0 < eventMeasures.length)
    (h : event ∈ measureIndex eventMeasures count) : event < eventMeasures.length := by
  rw [measureIndex_eq] at h
  obtain ⟨measure, -, rfl⟩ := List.mem_map.mp h
  exact startOf_lt hpos measure

/-! ## Looking up a measure -/

/-- Behind its end an index is read as at its last entry. -/
theorem getElem?_firstEvent {index : List Nat} (h : index ≠ []) (measure : Nat) :
    index[min measure (index.length - 1)]? = some (firstEvent index measure) := by
  have hpos : 0 < index.length := List.length_pos_iff.mpr h
  rw [firstEvent, List.getD_eq_getElem?_getD, List.getElem?_eq_getElem (by omega)]
  rfl

theorem firstEvent_mem {index : List Nat} (h : index ≠ []) (measure : Nat) :
    firstEvent index measure ∈ index :=
  List.mem_of_getElem? (getElem?_firstEvent h measure)

theorem firstEvent_measureIndex (eventMeasures : List Nat) (count measure : Nat) :
    firstEvent (measureIndex eventMeasures count) measure =
      startOf eventMeasures (min measure (count + 1)) := by
  have hlookup := getElem?_firstEvent (measureIndex_ne_nil eventMeasures count) measure
  rw [length_measureIndex, Nat.add_succ_sub_one,
    getElem?_measureIndex (Nat.min_le_right _ _)] at hlookup
  exact (Option.some.inj hlookup).symm

theorem firstEvent_mono {count first second : Nat} (h : first ≤ second) :
    firstEvent (measureIndex eventMeasures count) first ≤
      firstEvent (measureIndex eventMeasures count) second := by
  rw [firstEvent_measureIndex, firstEvent_measureIndex]
  exact startOf_mono (by omega)

/-! ## The events of jumps -/

/-- Both events of a slot are looked up, that of its target and, at `measure`, its trigger. -/
structure JumpSlot.IsFoundIn (index : List Nat) (measure : Nat) (s : JumpSlot) : Prop where
  trigger_eq : s.triggerEvent = firstEvent index measure
  target_eq : s.targetEvent = firstEvent index s.targetMeasure

theorem RepeatPlan.exists_slots {index : List Nat} {p : RepeatPlan} {e : JumpEntry}
    (h : e ∈ (p.jumpTable index).entries) :
    ∃ (back : JumpSlot) (skip : Option JumpSlot), e.slots = back :: skip.toList ∧
      back.IsFoundIn index (back.triggerMeasure + 1) ∧
      ∀ s ∈ skip, s.IsFoundIn index s.triggerMeasure := by
  obtain ⟨r, -, rfl⟩ := List.mem_map.mp h
  refine ⟨r.back.backSlot index, r.skip.map (Leap.skipSlot index), ?_, ⟨rfl, rfl⟩, ?_⟩
  · rw [Option.toList_map]
    rfl
  · intro s hs
    obtain ⟨leap, -, rfl⟩ := Option.map_eq_some_iff.mp hs
    exact ⟨rfl, rfl⟩

theorem targetEvent_of_mem_jumpTable {index : List Nat} {p : RepeatPlan} {e : JumpEntry}
    (he : e ∈ (p.jumpTable index).entries) {slot : JumpSlot} (hslot : slot ∈ e.slots) :
    slot.targetEvent = firstEvent index slot.targetMeasure := by
  obtain ⟨back, skip, hslots, hback, hskip⟩ := RepeatPlan.exists_slots he
  rw [hslots, List.mem_cons, Option.mem_toList] at hslot
  rcases hslot with rfl | hslot
  · exact hback.target_eq
  · exact (hskip slot hslot).target_eq

/-! ## Event lists -/

/-- What a player and the repeats rely on in the index of a list of events, with `count`
measures. -/
structure IsIndexOf {τ : Type} (events : List (SoundEvent τ)) (count : Nat) (index : List Nat) :
    Prop where
  length_eq : index.length = count + 2
  ascends : index.Pairwise (· ≤ ·)
  lt_length : ∀ event ∈ index, event < events.length
  control : index[0]? = some 0
  entry : ∀ measure, 1 ≤ measure → measure ≤ count + 1 →
    index[measure]? = some (startOf (events.map SoundEvent.measure) measure)
  /-- Every measure is looked up, and behind the last entry all find this entry. -/
  lookup : ∀ measure, index[min measure (count + 1)]? = some (firstEvent index measure)
  monotone : Monotone (firstEvent index)
  /-- Whatever is repeated, jumps find their events like every other lookup. -/
  jumps : ∀ p : RepeatPlan, ∀ e ∈ (p.jumpTable index).entries,
    ∃ (back : JumpSlot) (skip : Option JumpSlot), e.slots = back :: skip.toList ∧
      back.IsFoundIn index (back.triggerMeasure + 1) ∧
      ∀ s ∈ skip, s.IsFoundIn index s.triggerMeasure

/-- Events may come in any order of measures. -/
theorem isIndexOf_measureIndex {τ : Type} {events : List (SoundEvent τ)} (h : events ≠ [])
    (count : Nat) :
    IsIndexOf events count (measureIndex (events.map SoundEvent.measure) count) where
  length_eq := length_measureIndex _ count
  ascends := pairwise_measureIndex _ count
  lt_length event hevent := by
    have hpos : 0 < (events.map SoundEvent.measure).length := by
      simpa using List.length_pos_iff.mpr h
    simpa using lt_length_of_mem_measureIndex hpos hevent
  control := rfl
  entry measure _ hmeasure := getElem?_measureIndex hmeasure
  lookup measure := by
    have hlookup := getElem?_firstEvent (measureIndex_ne_nil (events.map SoundEvent.measure) count)
      measure
    rwa [length_measureIndex, Nat.add_succ_sub_one] at hlookup
  monotone _ _ := firstEvent_mono
  jumps _ _ := RepeatPlan.exists_slots

/-- Measure 2 starts with an event of measure 3, because its own comes later, and no event reaches
measure 4. The skip leads behind the end. -/
theorem isIndexOf_measureIndex_disordered :
    let event (measure : Nat) : SoundEvent Rat := ⟨.noteOn, 0, 0, 0, 0, 60, measure, none, none⟩
    let events := [0, 1, 3, 2, 1].map event
    let index := [0, 1, 2, 2, 4, 4]
    let p : RepeatPlan := { repeats := [⟨⟨2, 1, 1⟩, some ⟨3, 1, 9⟩⟩] }
    events ≠ [] ∧ measureIndex (events.map SoundEvent.measure) 4 = index ∧
      (p.jumpTable index).entries = [⟨[⟨2, 2, 1, 0, 1, 1⟩, ⟨3, 2, 1, 0, 9, 4⟩]⟩] ∧
      IsIndexOf events 4 index := by
  intro event events index p
  have hne : events ≠ [] := List.cons_ne_nil _ _
  exact ⟨hne, rfl, rfl, isIndexOf_measureIndex hne 4⟩

end ScorePlayback
