import Mathlib.Order.Interval.Set.Monotone
import ScorePlayback.Proofs.Player.Termination

/-! # Playing measure by measure

Every jump of a score leads from the start of a measure to the start of a measure. If the
measures start at different events, playing events is playing measures: where a player of the
measures goes, a player of the events goes and plays the whole measure. -/

namespace ScorePlayback

/-! ## Renaming the events of a table -/

def JumpSlot.mapEvents (f : Nat → Nat) (s : JumpSlot) : JumpSlot :=
  { s with triggerEvent := f s.triggerEvent, targetEvent := f s.targetEvent }

def JumpEntry.mapEvents (f : Nat → Nat) (e : JumpEntry) : JumpEntry :=
  ⟨e.slots.map (JumpSlot.mapEvents f)⟩

def JumpTable.mapEvents (f : Nat → Nat) (t : JumpTable) : JumpTable :=
  { t with entries := t.entries.map (JumpEntry.mapEvents f) }

/-- All slots of an entry lead from one of the events from 1 to `last` to another. -/
def JumpEntry.Within (last : Nat) (e : JumpEntry) : Prop :=
  ∀ slot ∈ e.slots, slot.triggerEvent ∈ Set.Icc 1 last ∧ slot.targetEvent ∈ Set.Icc 1 last

def JumpTable.Within (last : Nat) (t : JumpTable) : Prop := ∀ e ∈ t.entries, e.Within last

theorem JumpEntry.Within.of_follow? {last event target : Nat} {e e' : JumpEntry}
    (h : e.Within last) (hf : e.follow? event = some (target, e')) : e'.Within last := by
  intro slot hslot
  obtain ⟨first, rest, hs, -, -, -, rfl⟩ | ⟨first, second, rest, hs, -, -, -, -, rfl⟩ :=
    JumpEntry.follow?_eq_some hf
  · rcases List.mem_cons.mp hslot with rfl | hslot
    · exact h first (by simp [hs])
    · exact h slot (by simp [hs, hslot])
  · simp only [List.mem_cons] at hslot
    rcases hslot with rfl | rfl | hslot
    · exact h slot (by simp [hs])
    · exact h second (by simp [hs])
    · exact h slot (by simp [hs, hslot])

theorem JumpTable.Within.of_follow? {last event target : Nat} {t t' : JumpTable}
    (h : t.Within last) (hf : t.follow? event = some (target, t')) : t'.Within last := by
  obtain ⟨before, d, d', after, hs, -, hd, rfl⟩ := JumpTable.follow?_eq_some.mp hf
  intro e he
  simp only [List.mem_append, List.mem_cons] at he
  rcases he with he | rfl | he
  · exact h e (by simp [hs, he])
  · exact (h d (by simp [hs])).of_follow? hd
  · exact h e (by simp [hs, he])

theorem JumpTable.Within.target_mem {last event target : Nat} {t t' : JumpTable}
    (h : t.Within last) (hf : t.follow? event = some (target, t')) : target ∈ Set.Icc 1 last := by
  obtain ⟨e, he, slot, hslot, -, rfl⟩ := JumpTable.target_of_follow? hf
  exact (h e he slot hslot).2

section

variable {f : Nat → Nat} {last : Nat}

theorem JumpEntry.follow?_mapEvents {e : JumpEntry} {event : Nat}
    (hf : Set.InjOn f (Set.Icc 1 last)) (he : e.Within last) (hevent : event ∈ Set.Icc 1 last) :
    (e.mapEvents f).follow? (f event) =
      (e.follow? event).map fun (target, e') => (f target, e'.mapEvents f) := by
  obtain ⟨slots⟩ := e
  match slots with
  | [] => rfl
  | [first] =>
      have h₁ : f first.triggerEvent = f event ↔ first.triggerEvent = event :=
        hf.eq_iff (he first (by simp)).1 hevent
      simp only [JumpEntry.follow?, JumpEntry.mapEvents, JumpSlot.mapEvents, JumpSlot.isExhausted,
        List.map_cons, List.map_nil, h₁]
      by_cases hx : first.required ≤ first.applied
      · simp [hx]
      · by_cases ht : first.triggerEvent = event <;>
          simp [hx, ht, JumpSlot.apply, JumpSlot.mapEvents]
  | first :: second :: rest =>
      have h₁ : f first.triggerEvent = f event ↔ first.triggerEvent = event :=
        hf.eq_iff (he first (by simp)).1 hevent
      have h₂ : f second.triggerEvent = f event ↔ second.triggerEvent = event :=
        hf.eq_iff (he second (by simp)).1 hevent
      simp only [JumpEntry.follow?, JumpEntry.mapEvents, JumpSlot.mapEvents, JumpSlot.isExhausted,
        List.map_cons, h₁, h₂]
      by_cases hx : first.required ≤ first.applied
      · by_cases ht : second.triggerEvent = event <;>
          by_cases hy : second.required ≤ second.applied <;>
          simp [hx, ht, hy, JumpSlot.apply, JumpSlot.mapEvents]
      · by_cases ht : first.triggerEvent = event <;>
          simp [hx, ht, JumpSlot.apply, JumpSlot.mapEvents]

theorem followEntries_mapEvents {entries : List JumpEntry} {event : Nat}
    (hf : Set.InjOn f (Set.Icc 1 last)) (he : ∀ e ∈ entries, e.Within last)
    (hevent : event ∈ Set.Icc 1 last) :
    followEntries (f event) (entries.map (JumpEntry.mapEvents f)) =
      (followEntries event entries).map fun (target, entries') =>
        (f target, entries'.map (JumpEntry.mapEvents f)) := by
  induction entries with
  | nil => rfl
  | cons e rest ih =>
      have ih := ih fun d hd => he d (by simp [hd])
      simp only [List.map_cons, followEntries,
        JumpEntry.follow?_mapEvents hf (he e (by simp)) hevent]
      cases e.follow? event with
      | some answer => rfl
      | none =>
          simp only [Option.map_none, ih]
          cases followEntries event rest <;> rfl

theorem JumpTable.follow?_mapEvents {t : JumpTable} {event : Nat}
    (hf : Set.InjOn f (Set.Icc 1 last)) (ht : t.Within last) (hevent : event ∈ Set.Icc 1 last) :
    (t.mapEvents f).follow? (f event) =
      (t.follow? event).map fun (target, t') => (f target, t'.mapEvents f) := by
  simp only [JumpTable.follow?, JumpTable.mapEvents, followEntries_mapEvents hf ht hevent]
  cases followEntries event t.entries <;> rfl

theorem JumpTable.follow?_mapEvents_eq_none {t : JumpTable} {event : Nat} (ht : t.Within last)
    (hevent : ∀ m ∈ Set.Icc 1 last, f m ≠ event) : (t.mapEvents f).follow? event = none := by
  rw [JumpTable.follow?_eq_none]
  intro e he
  obtain ⟨d, hd, rfl⟩ := List.mem_map.mp he
  apply JumpEntry.follow?_of_triggers_ne
  intro slot hslot
  obtain ⟨s, hs, rfl⟩ := List.mem_map.mp hslot
  exact hevent _ (ht d hd s hs).1

/-! ## Whole measures -/

/-- The events of a measure, if measure `m` starts at `f m`. Behind the start of the last one
there are all events that are left. -/
def measureBlock (f : Nat → Nat) (last size measure : Nat) : List Nat :=
  List.range' (f measure) ((if measure < last then f (measure + 1) else size) - f measure)

/-- No measure starts inside another. -/
theorem ne_of_between (hf : StrictMonoOn f (Set.Icc 1 last)) {measure event m : Nat}
    (hmeasure : measure ∈ Set.Icc 1 last) (hlt : f measure < event)
    (hnext : measure < last → event < f (measure + 1)) (hm : m ∈ Set.Icc 1 last) :
    f m ≠ event := by
  rintro rfl
  have h₁ : measure < m := (hf.lt_iff_lt hmeasure hm).mp hlt
  have h₂ : measure < last := lt_of_lt_of_le h₁ hm.2
  have h₃ : m < measure + 1 :=
    (hf.lt_iff_lt hm ⟨Nat.le_add_left 1 measure, h₂⟩).mp (hnext h₂)
  omega

/-- A measure that triggers no jump is played up to the next one, or to the end of all events. -/
theorem playFrom_measureBlock {size measure stop : Nat} (hf : StrictMonoOn f (Set.Icc 1 last))
    {t : JumpTable} (ht : t.Within last) (hmeasure : measure ∈ Set.Icc 1 last)
    (hfollow : t.follow? measure = none)
    (hstop : (if measure < last then f (measure + 1) else size) = stop)
    (hle : f measure ≤ stop) (hsize : stop ≤ size) :
    playFrom size (t.mapEvents f) (f measure) =
      measureBlock f last size measure ++ playFrom size (t.mapEvents f) stop := by
  rw [playFrom_of_quiet (stop - f measure) (by omega), measureBlock, hstop,
    Nat.add_sub_cancel' hle]
  intro event h₁ h₂
  rcases Nat.eq_or_lt_of_le h₁ with rfl | h₁
  · rw [JumpTable.follow?_mapEvents hf.injOn ht hmeasure, hfollow]
    rfl
  · refine JumpTable.follow?_mapEvents_eq_none ht fun m hm => ?_
    refine ne_of_between hf hmeasure h₁ (fun hlast => ?_) hm
    rw [if_pos hlast] at hstop
    omega

theorem playFrom_mapEvents {size : Nat} (hf : StrictMonoOn f (Set.Icc 1 last))
    (hsize : f last < size) {t : JumpTable} (ht : t.Within last) {measure : Nat}
    (hmeasure : measure ∈ Set.Icc 1 last) :
    playFrom size (t.mapEvents f) (f measure) =
      (playFrom (last + 1) t measure).flatMap (measureBlock f last size) := by
  induction t, measure using playFrom.induct (last + 1) with
  | case1 t measure hlt target rest hfollow ih =>
      have hle : f measure ≤ f last := hf.monotoneOn hmeasure ⟨by have := hmeasure.1; omega, le_rfl⟩
        hmeasure.2
      have htarget := ht.target_mem hfollow
      rw [playFrom_of_jump hlt hfollow, ← ih (ht.of_follow? hfollow) htarget]
      exact playFrom_of_jump (by omega)
        (by rw [JumpTable.follow?_mapEvents hf.injOn ht hmeasure, hfollow]; rfl)
  | case2 t measure hlt hfollow ih =>
      obtain ⟨h1, h2⟩ := hmeasure
      have hle : f measure ≤ f last := hf.monotoneOn ⟨h1, h2⟩ ⟨by omega, le_rfl⟩ h2
      rw [playFrom_of_play hlt hfollow, List.flatMap_cons]
      by_cases hlast : measure < last
      · have hnext : measure + 1 ∈ Set.Icc 1 last := ⟨by omega, hlast⟩
        have hstep : f measure < f (measure + 1) := hf ⟨h1, h2⟩ hnext (Nat.lt_succ_self _)
        have hle' : f (measure + 1) ≤ f last := hf.monotoneOn hnext ⟨by omega, le_rfl⟩ hlast
        rw [playFrom_measureBlock hf ht ⟨h1, h2⟩ hfollow (if_pos hlast) hstep.le (by omega),
          ih ht hnext]
      · rw [playFrom_measureBlock hf ht ⟨h1, h2⟩ hfollow (if_neg hlast) (by omega) le_rfl,
          playFrom_of_size_le _ le_rfl, playFrom_of_size_le _ (by omega)]
        rfl
  | case3 t measure hge => exact absurd (Nat.lt_succ_of_le hmeasure.2) hge

end
end ScorePlayback
