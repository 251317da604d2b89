import ScorePlayback.Proofs.Sound.Emission
import ScorePlayback.Compile
import ScorePlayback.Proofs.Sound.MeasureIndex
import ScorePlayback.Proofs.StableSort
import ScorePlayback.Proofs.Time.Order

/-! # The order of the events of a score

Where notes and rests take time and all other objects take none, the program changes are in front
of all other events and the end of the score is behind them. In between events are in the order of
time, releases first, and the time since the event before adds up to the time of an event. -/

namespace ScorePlayback

section Deltas

variable {τ : Type} [TimeValue τ]

/-! ## The time since the event before -/

/-- An event as it is before events are put in order. -/
def SoundEvent.withoutDelta (e : SoundEvent τ) : SoundEvent τ := { e with delta := TimeValue.zero }

/-- What a clock shows that starts at a time and is moved on by each event. -/
def clock (start : τ) (events : List (SoundEvent τ)) : τ :=
  events.foldl (fun time e => time + e.delta) start

theorem map_withoutDelta_withDeltas (previous : τ) (events : List (SoundEvent τ)) :
    (withDeltas previous events).map SoundEvent.withoutDelta =
      events.map SoundEvent.withoutDelta := by
  induction events generalizing previous with
  | nil => rfl
  | cons e rest ih => rw [withDeltas, List.map_cons, ih, List.map_cons]; rfl

theorem withoutDelta_of_mem_unorderedEvents {score : Score τ} {e : SoundEvent τ}
    (h : e ∈ unorderedEvents score) : e.withoutDelta = e := by
  rw [unorderedEvents_eq, List.mem_append, List.mem_append, List.mem_map, List.mem_singleton] at h
  obtain (⟨i, -, rfl⟩ | h) | rfl := h
  · rfl
  · obtain ⟨ref, i, object, -, he⟩ := mem_partEvents.mp h
    rcases exists_of_mem_objectEvents he with ⟨_, _, _, -, rfl⟩ | ⟨_, _, _, -, -, rfl⟩ <;> rfl
  · rfl

/-- Events in the order of time, at the same time in that of their ranks. -/
def inEventOrder (events : List (SoundEvent τ)) : List (SoundEvent τ) :=
  stableSort (TimeValue.notAfter SoundEvent.time fun e => e.kind.rank) events

theorem mem_inEventOrder {events : List (SoundEvent τ)} {e : SoundEvent τ} :
    e ∈ inEventOrder events ↔ e ∈ events :=
  (stableSort_perm _ _).mem_iff

theorem map_withoutDelta_soundEvents (score : Score τ) :
    (soundEvents score).map SoundEvent.withoutDelta = inEventOrder (unorderedEvents score) := by
  rw [soundEvents, map_withoutDelta_withDeltas]
  refine (List.map_congr_left fun e he => ?_).trans (List.map_id _)
  exact withoutDelta_of_mem_unorderedEvents (mem_inEventOrder.mp he)

/-- Whatever holds of events in order holds of those of a score, if it is not about deltas. -/
theorem pairwise_soundEvents {score : Score τ} {r : SoundEvent τ → SoundEvent τ → Prop}
    (h : (inEventOrder (unorderedEvents score)).Pairwise r) :
    (soundEvents score).Pairwise fun x y => r x.withoutDelta y.withoutDelta := by
  rwa [← map_withoutDelta_soundEvents, List.pairwise_map] at h

end Deltas

theorem clock_withDeltas (previous : Rat) (events : List (SoundEvent Rat)) (k : Nat) :
    ∀ e ∈ (withDeltas previous events)[k]?,
      clock previous ((withDeltas previous events).take (k + 1)) = e.time := by
  induction events generalizing previous k with
  | nil => simp [withDeltas]
  | cons e rest ih =>
      have hclock : previous + (e.time - previous) = e.time := by linarith
      cases k with
      | zero =>
          rintro _ ⟨⟩
          exact hclock
      | succ k =>
          intro last hlast
          rw [← ih e.time k last hlast]
          exact congrArg (clock · _) hclock

theorem zero_le_delta {previous : Rat} {events : List (SoundEvent Rat)}
    (hprevious : ∀ e ∈ events, previous ≤ e.time)
    (h : events.Pairwise fun x y => x.time ≤ y.time) :
    ∀ e ∈ withDeltas previous events, 0 ≤ e.delta := by
  induction events generalizing previous with
  | nil => simp [withDeltas]
  | cons e rest ih =>
      obtain ⟨he, hrest⟩ := List.pairwise_cons.mp h
      refine List.forall_mem_cons.mpr ⟨?_, ih he hrest⟩
      have hle : previous ≤ e.time := hprevious e (List.mem_cons_self ..)
      show 0 ≤ e.time - previous
      linarith

theorem withDeltas_append {previous : Rat} {front : List (SoundEvent Rat)}
    (h : ∀ e ∈ front, e.time = previous ∧ e.delta = 0) (rest : List (SoundEvent Rat)) :
    withDeltas previous (front ++ rest) = front ++ withDeltas previous rest := by
  induction front with
  | nil => rfl
  | cons e front ih =>
      obtain ⟨⟨rfl, hdelta⟩, hfront⟩ := List.forall_mem_cons.mp h
      have he : { e with delta := e.time - e.time } = e := by
        rw [show e.time - e.time = e.delta by rw [hdelta]; exact sub_self _]
      exact congrArg₂ _ he (ih hfront)

/-! ## Events between program changes and the end -/

def StaffSymbol.takesTime : StaffSymbol → Bool
  | .noteRest _ => true
  | _ => false

/-- Notes and rests take time and all other objects take none, from a time that is not negative. -/
def StaffObject.IsTimed (object : StaffObject Rat) : Prop :=
  0 ≤ object.time ∧
    if object.symbol.takesTime then 0 < object.duration else object.duration = 0

/-- All objects of a score are timed. -/
def Score.IsTimed (score : Score Rat) : Prop :=
  ∀ i ∈ score.instruments, ∀ object ∈ i.timeline, object.IsTimed

instance (object : StaffObject Rat) : Decidable object.IsTimed :=
  inferInstanceAs (Decidable (_ ∧ _))

instance (score : Score Rat) : Decidable score.IsTimed :=
  inferInstanceAs (Decidable (∀ _ ∈ _, _))

namespace StaffObject.IsTimed

variable {object : StaffObject Rat}

theorem lt_finish (h : object.IsTimed) {number : Nat} (hsymbol : object.symbol = .noteRest number) :
    object.time < object.finish := by
  obtain ⟨-, hduration⟩ := h
  rw [hsymbol, StaffSymbol.takesTime, if_pos rfl] at hduration
  exact lt_add_of_pos_right object.time hduration

theorem le_finish (h : object.IsTimed) : object.time ≤ object.finish := by
  obtain ⟨-, hduration⟩ := h
  refine le_add_of_nonneg_right (a := object.time) ?_
  split at hduration
  · exact hduration.le
  · exact hduration.ge

end StaffObject.IsTimed

theorem le_foldl_later (start : Rat) (times : List Rat) :
    start ≤ times.foldl TimeValue.later start ∧
      ∀ time ∈ times, time ≤ times.foldl TimeValue.later start := by
  induction times generalizing start with
  | nil => simp
  | cons time times ih =>
      obtain ⟨hstart, htimes⟩ := ih (TimeValue.later start time)
      rw [later_eq, max_le_iff] at hstart
      rw [List.foldl_cons, later_eq]
      rw [later_eq] at htimes
      exact ⟨hstart.1, List.forall_mem_cons.mpr ⟨hstart.2, htimes⟩⟩

theorem zero_le_endTime (score : Score Rat) : 0 ≤ endTime score :=
  (le_foldl_later _ _).1

theorem Score.Holds.finish_le {score : Score Rat} {ref : ObjectRef} {i : Instrument Rat}
    {object : StaffObject Rat} (h : score.Holds ref i object) : object.finish ≤ endTime score := by
  refine (le_foldl_later _ _).2 _ ?_
  exact List.mem_flatMap.mpr ⟨i, h.mem.1, List.mem_map_of_mem h.mem.2⟩

namespace Score.IsTimed

variable {score : Score Rat} (h : score.IsTimed)

include h

theorem time_of_mem_partEvents {e : SoundEvent Rat} (he : e ∈ partEvents score) :
    0 ≤ e.time ∧ (e.kind.isRelease = true → 0 < e.time) ∧ e.time ≤ endTime score := by
  obtain ⟨ref, i, object, hholds, he⟩ := mem_partEvents.mp he
  have htimed : object.IsTimed := h i hholds.mem.1 object hholds.mem.2
  have hfinish : object.finish ≤ endTime score := hholds.finish_le
  rcases exists_of_mem_objectEvents he with
    ⟨kind, _, _, hkind, rfl⟩ | ⟨_, kind, _, hsymbol, -, rfl⟩
  · refine ⟨htimed.1, fun hrelease => ?_, htimed.le_finish.trans hfinish⟩
    exact absurd (hrelease.symm.trans (EventKind.isRelease_eq_false hkind)) (by simp)
  · have hlt : 0 < object.finish := htimed.1.trans_lt (htimed.lt_finish hsymbol)
    exact ⟨hlt.le, fun _ => hlt, hfinish⟩

/-- Program changes stay in front of all other events and the end of the score behind them. -/
theorem inEventOrder_unorderedEvents : inEventOrder (unorderedEvents score) =
    score.instruments.map (fun i => programChange i.midi) ++ inEventOrder (partEvents score) ++
      [endOfScore score] := by
  rw [unorderedEvents_eq, inEventOrder, stableSort_concat, stableSort_append, inEventOrder]
  · rw [List.pairwise_map]
    exact List.pairwise_of_forall fun _ _ => notAfter_iff.mpr (.inr ⟨rfl, Nat.le_refl 1⟩)
  · intro x hx y hy
    obtain ⟨i, -, rfl⟩ := List.mem_map.mp hx
    obtain ⟨hzero, hrelease, -⟩ := h.time_of_mem_partEvents hy
    rw [notAfter_iff]
    rcases hzero.lt_or_eq with hlt | heq
    · exact .inl hlt
    · have hkind : y.kind.rank ≠ 0 := fun hrank =>
        absurd heq (hrelease (EventKind.isRelease_iff_rank.mpr hrank)).ne
      exact .inr ⟨heq, Nat.one_le_iff_ne_zero.mpr hkind⟩
  · intro x hx
    rw [notAfter_iff]
    refine (lt_or_eq_of_le ?_).imp_right fun heq => ⟨heq, x.kind.rank_le_two⟩
    rcases List.mem_append.mp hx with hx | hx
    · obtain ⟨i, -, rfl⟩ := List.mem_map.mp hx
      exact zero_le_endTime score
    · exact (h.time_of_mem_partEvents hx).2.2

end Score.IsTimed

/-! ## What is in order -/

/-- Events in order are in the order of time, and at the same time releases come first. -/
theorem inEventOrder_pairwise (events : List (SoundEvent Rat)) :
    (inEventOrder events).Pairwise fun x y => x.time ≤ y.time ∧
      (x.time = y.time → y.kind.isRelease = true → x.kind.isRelease = true) := by
  have htrue : events.Pairwise fun _ _ => True := List.pairwise_of_forall fun _ _ => trivial
  refine (stableSort_pairwise notAfter_trans notAfter_total htrue).imp fun {x y} hxy => ?_
  obtain ⟨hle, -⟩ := hxy
  rw [notAfter_iff] at hle
  refine ⟨hle.elim le_of_lt fun heq => heq.1.le, fun htime hrelease => ?_⟩
  obtain hlt | ⟨-, hrank⟩ := hle
  · exact absurd htime hlt.ne
  · rw [EventKind.isRelease_iff_rank] at hrelease ⊢
    omega

theorem inEventOrder_partEvents_pairwise (score : Score Rat) :
    (inEventOrder (partEvents score)).Pairwise fun x y => x.time = y.time →
      x.kind.isRelease = y.kind.isRelease →
        ∀ r ∈ x.object, ∀ s ∈ y.object, score.EmittedBefore r s := by
  refine (stableSort_pairwise notAfter_trans notAfter_total
    (partEvents_pairwise score)).imp_of_mem fun {x y} hx hy hxy htime hrelease r hr s hs => ?_
  have hkinds := EventKind.rank_eq_of_isRelease_eq
    (kind_of_mem_partEvents (mem_inEventOrder.mp hx)).2
    (kind_of_mem_partEvents (mem_inEventOrder.mp hy)).2 hrelease
  rcases hxy.2 (notAfter_iff.mpr (.inr ⟨htime.symm, hkinds.ge⟩)) r hr s hs with
    hbefore | ⟨-, hx, hy⟩
  · exact hbefore
  · simp [hx, hy] at hrelease

/-- The events that refer to an object are those of the object, the attack first. -/
theorem filter_soundEvents {score : Score Rat} {ref : ObjectRef} {i : Instrument Rat}
    {object : StaffObject Rat} (htimed : score.IsTimed) (h : score.Holds ref i object) :
    ((soundEvents score).filter fun e => e.object = some ref).map SoundEvent.withoutDelta =
      objectEvents score i.midi object ref := by
  have hmap : ((soundEvents score).filter fun e => e.object = some ref).map
      SoundEvent.withoutDelta =
        (inEventOrder (unorderedEvents score)).filter fun e => e.object = some ref := by
    rw [← map_withoutDelta_soundEvents, List.filter_map]
    rfl
  rw [hmap, inEventOrder, filter_stableSort, filter_unorderedEvents h]
  rw [filter_unorderedEvents h]
  have hobject : object.IsTimed := htimed i h.mem.1 object h.mem.2
  rcases objectEvents_cases score i.midi object ref with
    hevents | ⟨_, on, off, pitch, hsymbol, -, -, hevents⟩ | ⟨_, -, hevents⟩
  · simp [hevents]
  · rw [hevents]
    exact List.pairwise_pair.mpr (notAfter_iff.mpr (.inl (hobject.lt_finish hsymbol)))
  · simp [hevents]

/-! ## The table -/

/-- The measure behind the last one starts with the event behind all those of earlier measures. -/
theorem measureIndex_behind {eventMeasures : List Nat} {count : Nat}
    (h : ∀ measure ∈ eventMeasures, measure ≤ count) :
    (measureIndex (eventMeasures ++ [count + 1]) count)[count + 1]? = some eventMeasures.length := by
  rw [getElem?_measureIndex (Nat.le_refl _),
    startOf_append_cons (fun m hm => Nat.lt_succ_of_le (h m hm)) (Nat.le_refl _)]

/-- What a player relies on in the table of a score. -/
structure SoundTable.IsInOrder (score : Score Rat) (t : SoundTable Rat) : Prop where
  times : t.events.Pairwise fun x y => x.time ≤ y.time
  releases : t.events.Pairwise fun x y =>
    x.time = y.time → y.kind.isRelease = true → x.kind.isRelease = true
  /-- Releases at the same time, and other events at the same time, keep the order of emission. -/
  emission : t.events.Pairwise fun x y => x.time = y.time → x.kind.isRelease = y.kind.isRelease →
    ∀ r ∈ x.object, ∀ s ∈ y.object, score.EmittedBefore r s
  programs : ∃ rest, t.events = score.instruments.map (fun i => programChange i.midi) ++ rest ∧
    ∀ e ∈ rest, e.kind ≠ .programChange
  finish : ∃ front last, t.events = front ++ [last] ∧ last.kind = .endOfScore ∧
    (∀ e ∈ front, e.kind ≠ .endOfScore) ∧ t.measures[t.measureCount + 1]? = some front.length
  /-- A note or visible rest has two events, its attack and behind it its release. -/
  sounds : ∀ ref i object number note, score.Holds ref i object →
    object.symbol = .noteRest number → score.notes[number]? = some note →
      (note.pitch.isSome = true ∨ note.visible = true) →
        ∃ on off, t.events.filter (fun e => e.object = some ref) = [on, off] ∧
          on.kind.isAttack = true ∧ on.time = object.time ∧
          off.kind.isRelease = true ∧ off.time = object.finish
  /-- The times since the events before, up to an event, add up to its time. -/
  deltas : ∀ k, ∀ e ∈ t.events[k]?, 0 ≤ e.delta ∧ clock 0 (t.events.take (k + 1)) = e.time

theorem kind_of_mem_inner {score : Score Rat} {e : SoundEvent Rat}
    (h : e ∈ inEventOrder (partEvents score)) :
    e.kind ≠ .programChange ∧ e.kind ≠ .endOfScore :=
  kind_of_mem_partEvents (mem_inEventOrder.mp h)

namespace Score.IsTimed

variable {score : Score Rat} (h : score.IsTimed)

include h

/-- Program changes are at time 0, so the events of objects count from there. -/
theorem programs_soundEvents : ∃ rest,
    soundEvents score = score.instruments.map (fun i => programChange i.midi) ++ rest ∧
      ∀ e ∈ rest, e.kind ≠ .programChange := by
  have hsorted : soundEvents score = withDeltas 0 (inEventOrder (unorderedEvents score)) := rfl
  rw [h.inEventOrder_unorderedEvents, List.append_assoc, withDeltas_append] at hsorted
  · refine ⟨_, hsorted, fun e he => ?_⟩
    have hmem : e.withoutDelta ∈ _ := List.mem_map_of_mem he
    rw [map_withoutDelta_withDeltas] at hmem
    obtain ⟨e', he', heq⟩ := List.mem_map.mp hmem
    show e.withoutDelta.kind ≠ _
    rw [← heq]
    rcases List.mem_append.mp he' with he' | he'
    · exact (kind_of_mem_inner he').1
    · rw [List.mem_singleton.mp he']
      exact nofun
  · intro e he
    obtain ⟨i, -, rfl⟩ := List.mem_map.mp he
    exact ⟨rfl, rfl⟩

theorem finish_soundEvents : ∃ front last, soundEvents score = front ++ [last] ∧
    last.kind = .endOfScore ∧ last.measure = lastMeasure score + 1 ∧
      ∀ e ∈ front, e.kind ≠ .endOfScore ∧ e.measure ≤ lastMeasure score := by
  obtain ⟨front, tail, hevents, hfront, htail⟩ := List.map_eq_append_iff.mp
    ((map_withoutDelta_soundEvents score).trans h.inEventOrder_unorderedEvents)
  obtain ⟨last, rfl, hlast⟩ := List.map_eq_singleton_iff.mp htail
  refine ⟨front, last, hevents, congrArg SoundEvent.kind hlast, congrArg SoundEvent.measure hlast,
    fun e he => ?_⟩
  have hmem : e.withoutDelta ∈ front.map SoundEvent.withoutDelta := List.mem_map_of_mem he
  rw [hfront] at hmem
  show e.withoutDelta.kind ≠ _ ∧ e.withoutDelta.measure ≤ _
  rcases List.mem_append.mp hmem with hmem | hmem
  · obtain ⟨i, -, hi⟩ := List.mem_map.mp hmem
    rw [← hi]
    exact ⟨nofun, Nat.zero_le _⟩
  · exact ⟨(kind_of_mem_inner hmem).2, measure_le_of_mem_partEvents (mem_inEventOrder.mp hmem)⟩

theorem emission_unorderedEvents :
    (inEventOrder (unorderedEvents score)).Pairwise fun x y => x.time = y.time →
      x.kind.isRelease = y.kind.isRelease →
        ∀ r ∈ x.object, ∀ s ∈ y.object, score.EmittedBefore r s := by
  rw [h.inEventOrder_unorderedEvents, List.pairwise_append, List.pairwise_append]
  refine ⟨⟨?_, inEventOrder_partEvents_pairwise score, ?_⟩, List.pairwise_singleton _ _, ?_⟩
  · exact List.pairwise_map.mpr (List.pairwise_of_forall fun _ _ _ _ => nofun)
  · intro x hx y _ _ _
    obtain ⟨i, -, rfl⟩ := List.mem_map.mp hx
    exact nofun
  · intro x _ y hy _ _ r _
    rw [List.mem_singleton.mp hy]
    exact nofun

theorem zero_le_time {e : SoundEvent Rat} (he : e ∈ unorderedEvents score) : 0 ≤ e.time := by
  rw [unorderedEvents_eq, List.mem_append, List.mem_append, List.mem_map, List.mem_singleton] at he
  obtain (⟨i, -, rfl⟩ | he) | rfl := he
  · exact le_refl (0 : Rat)
  · exact (h.time_of_mem_partEvents he).1
  · exact zero_le_endTime score

/-- If notes and rests take time and all other objects take none, a score is played in order. -/
theorem soundTable_isInOrder : (SoundTable.ofScore score).IsInOrder score := by
  have hpairs := pairwise_soundEvents (inEventOrder_pairwise (unorderedEvents score))
  refine ⟨hpairs.imp And.left, hpairs.imp And.right, ?_, h.programs_soundEvents, ?_, ?_, ?_⟩
  · exact pairwise_soundEvents h.emission_unorderedEvents
  · obtain ⟨front, last, hevents, hkind, hmeasure, hfront⟩ := h.finish_soundEvents
    refine ⟨front, last, hevents, hkind, fun e he => (hfront e he).1, ?_⟩
    have hmeasures : ∀ measure ∈ front.map SoundEvent.measure, measure ≤ lastMeasure score :=
      List.forall_mem_map.mpr fun e he => (hfront e he).2
    have hbehind := measureIndex_behind hmeasures
    have hmap : front.map SoundEvent.measure ++ [lastMeasure score + 1] =
        (soundEvents score).map SoundEvent.measure := by
      rw [hevents, List.map_append, List.map_singleton, hmeasure]
    rw [hmap, List.length_map] at hbehind
    exact hbehind
  · intro ref i object number note hholds hsymbol hnote hshown
    obtain ⟨on, off, pitch, hon, hoff, hevents⟩ :=
      objectEvents_of_shown i.midi ref hsymbol hnote hshown
    have hfilter := (filter_soundEvents h hholds).trans hevents
    obtain ⟨x, _, hxy, hx, htail⟩ := List.map_eq_cons_iff.mp hfilter
    obtain ⟨y, rfl, hy⟩ := List.map_eq_singleton_iff.mp htail
    obtain ⟨hxkind, hxtime⟩ : x.kind = on ∧ x.time = object.time :=
      ⟨congrArg SoundEvent.kind hx, congrArg SoundEvent.time hx⟩
    obtain ⟨hykind, hytime⟩ : y.kind = off ∧ y.time = object.finish :=
      ⟨congrArg SoundEvent.kind hy, congrArg SoundEvent.time hy⟩
    exact ⟨x, y, hxy, hxkind ▸ hon, hxtime, hykind ▸ hoff, hytime⟩
  · intro k e he
    refine ⟨zero_le_delta (fun e he => ?_) ?_ e (List.mem_of_getElem? he),
      clock_withDeltas 0 _ k e he⟩
    · exact h.zero_le_time (mem_inEventOrder.mp he)
    · exact (inEventOrder_pairwise _).imp And.left

end Score.IsTimed

/-- Two voices of one instrument, and a tie of another one. -/
def voicesAndTie : Node :=
  let here : Position := ⟨1, 1⟩
  let word (text : String) : Node := .atom .label text here
  let note (parts : List Node) : Node := .element .note parts here
  let tie (role : String) : Node := .element .tie [word role] here
  .element .score
    [.element .instrument [.element .music
      [note [word "c4", word "h"], .element .goBack [word "start"] here,
        note [word "e4", word "q", word "v2"], .element .rest [word "q"] here] here] here,
    .element .instrument [.element .music
      [note [word "g3", word "q", tie "start"], note [word "g3", word "q", tie "stop"]] here] here]
    here

theorem soundTable_isInOrder_voicesAndTie :
    ∃ analysis : Analysis Rat, analyse {} voicesAndTie = .ok analysis ∧
      ∃ score ∈ analysis.document.scores, score.IsTimed ∧
        (SoundTable.ofScore score).events.map (fun e => (e.kind, e.time, e.object)) =
          [(.programChange, 0, none), (.programChange, 0, none),
            (.noteOn, 0, some ⟨0, 0⟩), (.noteOn, 0, some ⟨0, 1⟩), (.noteOn, 0, some ⟨1, 0⟩),
            (.noteOff, 64, some ⟨0, 1⟩), (.visualOff, 64, some ⟨1, 0⟩),
            (.visualOn, 64, some ⟨0, 2⟩), (.visualOn, 64, some ⟨1, 1⟩),
            (.noteOff, 128, some ⟨0, 0⟩), (.visualOff, 128, some ⟨0, 2⟩),
            (.noteOff, 128, some ⟨1, 1⟩), (.endOfScore, 128, none)] ∧
        (SoundTable.ofScore score).IsInOrder score := by
  have h : (analyse {} voicesAndTie : Except CompileError (Analysis Rat)) = .ok _ := rfl
  refine ⟨_, h, _, List.mem_singleton.mpr rfl, ?_⟩
  refine ⟨by decide +kernel, by decide +kernel, ?_⟩
  exact Score.IsTimed.soundTable_isInOrder (by decide +kernel)

end ScorePlayback
