import ScorePlayback.Proofs.Repeat.Marks
import ScorePlayback.Sound.Generate

/-! # Where the events of a score come from

Besides the program changes and the end of the score, every event belongs to an object of a
timeline, and it is at the start or at the end of this object. Events are emitted instrument by
instrument, and for each instrument in the order of time of its objects. -/

namespace ScorePlayback

namespace EventKind

/-- A note or rest starts to sound, or to be shown. -/
def isAttack : EventKind → Bool
  | .noteOn => true
  | .visualOn => true
  | _ => false

/-- A note or rest stops to sound, or to be shown. -/
def isRelease : EventKind → Bool
  | .noteOff => true
  | .visualOff => true
  | _ => false

theorem isRelease_eq_false {kind : EventKind} (h : kind.isAttack = true ∨ kind = .rhythmChange) :
    kind.isRelease = false := by
  cases kind <;> simp_all [isRelease, isAttack]

theorem isRelease_iff_rank {kind : EventKind} : kind.isRelease = true ↔ kind.rank = 0 := by
  cases kind <;> simp [isRelease, rank]

theorem rank_le_two (kind : EventKind) : kind.rank ≤ 2 := by
  cases kind <;> decide

theorem rank_eq_of_isRelease_eq {a b : EventKind} (ha : a ≠ .endOfScore) (hb : b ≠ .endOfScore)
    (h : a.isRelease = b.isRelease) : a.rank = b.rank := by
  cases a <;> cases b <;> simp_all [isRelease, rank]

end EventKind

section

variable {τ : Type} [TimeValue τ]

/-! ## One object -/

/-- A note, or a rest that is visible, has an attack at its start and a release at its end. -/
theorem objectEvents_of_shown {score : Score τ} {object : StaffObject τ} {number : Nat}
    {note : NoteRest τ} (midi : MidiInfo) (ref : ObjectRef)
    (hsymbol : object.symbol = .noteRest number) (hnote : score.notes[number]? = some note)
    (hshown : note.pitch.isSome = true ∨ note.visible = true) :
    ∃ (on off : EventKind) (pitch : Nat), on.isAttack = true ∧ off.isRelease = true ∧
      objectEvents score midi object ref =
        [objectEvent midi object ref on object.time pitch none,
          objectEvent midi object ref off object.finish pitch none] := by
  simp only [objectEvents, hsymbol, hnote]
  cases hpitch : note.pitch with
  | some pitch =>
      refine ⟨_, _, pitch.midi, ?_, ?_, rfl⟩
      · split <;> rfl
      · split <;> rfl
  | none =>
      have hvisible : note.visible = true := hshown.resolve_left (by simp [hpitch])
      exact ⟨.visualOn, .visualOff, 0, rfl, rfl, by simp [hvisible]⟩

/-- An object has no event, or an attack and its release, or a change of the meter. -/
theorem objectEvents_cases (score : Score τ) (midi : MidiInfo) (object : StaffObject τ)
    (ref : ObjectRef) :
    objectEvents score midi object ref = [] ∨
    (∃ (number : Nat) (on off : EventKind) (pitch : Nat), object.symbol = .noteRest number ∧
      on.isAttack = true ∧ off.isRelease = true ∧
      objectEvents score midi object ref =
        [objectEvent midi object ref on object.time pitch none,
          objectEvent midi object ref off object.finish pitch none]) ∨
    ∃ meter : Meter, object.symbol = .meter meter ∧
      objectEvents score midi object ref =
        [objectEvent midi object ref .rhythmChange object.time 0
          (some ⟨meter.pulses, meter.measureDuration⟩)] := by
  cases hsymbol : object.symbol with
  | noteRest number =>
      cases hnote : score.notes[number]? with
      | none => exact .inl (by simp [objectEvents, hsymbol, hnote])
      | some note =>
          by_cases hshown : note.pitch.isSome = true ∨ note.visible = true
          · obtain ⟨on, off, pitch, hon, hoff, hevents⟩ :=
              objectEvents_of_shown midi ref hsymbol hnote hshown
            exact .inr (.inl ⟨number, on, off, pitch, rfl, hon, hoff, hevents⟩)
          · simp only [not_or, Bool.not_eq_true, Option.isSome_eq_false_iff,
              Option.isNone_iff_eq_none] at hshown
            exact .inl (by simp [objectEvents, hsymbol, hnote, hshown.1, hshown.2])
  | meter meter => exact .inr (.inr ⟨meter, rfl, by simp [objectEvents, hsymbol]⟩)
  | barline shape times => exact .inl (by simp [objectEvents, hsymbol])
  | clef clef => exact .inl (by simp [objectEvents, hsymbol])
  | key key => exact .inl (by simp [objectEvents, hsymbol])
  | volta ending span => exact .inl (by simp [objectEvents, hsymbol])

/-- An event of an object is at its start, or it is the release of a note or rest at its end. -/
theorem exists_of_mem_objectEvents {score : Score τ} {midi : MidiInfo} {object : StaffObject τ}
    {ref : ObjectRef} {e : SoundEvent τ} (h : e ∈ objectEvents score midi object ref) :
    (∃ (kind : EventKind) (pitch : Nat) (rhythm : Option (Rhythm τ)),
      (kind.isAttack = true ∨ kind = .rhythmChange) ∧
        e = objectEvent midi object ref kind object.time pitch rhythm) ∨
    ∃ (number : Nat) (kind : EventKind) (pitch : Nat), object.symbol = .noteRest number ∧
      kind.isRelease = true ∧ e = objectEvent midi object ref kind object.finish pitch none := by
  rcases objectEvents_cases score midi object ref with
    hevents | ⟨number, on, off, pitch, hsymbol, hon, hoff, hevents⟩ | ⟨meter, -, hevents⟩
  · simp [hevents] at h
  · rw [hevents, List.mem_cons, List.mem_singleton] at h
    rcases h with rfl | rfl
    · exact .inl ⟨on, pitch, none, .inl hon, rfl⟩
    · exact .inr ⟨number, off, pitch, hsymbol, hoff, rfl⟩
  · rw [hevents, List.mem_singleton] at h
    exact .inl ⟨.rhythmChange, 0, _, .inr rfl, h⟩

theorem object_of_mem_objectEvents {score : Score τ} {midi : MidiInfo} {object : StaffObject τ}
    {ref : ObjectRef} {e : SoundEvent τ} (h : e ∈ objectEvents score midi object ref) :
    e.object = some ref := by
  rcases exists_of_mem_objectEvents h with ⟨_, _, _, -, rfl⟩ | ⟨_, _, _, -, -, rfl⟩ <;> rfl

/-! ## All objects -/

/-- A reference leads to an object on the timeline of an instrument. -/
structure Score.Holds (score : Score τ) (ref : ObjectRef) (i : Instrument τ)
    (object : StaffObject τ) : Prop where
  instrument : score.instruments[ref.instrument]? = some i
  object : i.timeline[ref.index]? = some object

omit [TimeValue τ] in
theorem Score.Holds.mem {score : Score τ} {ref : ObjectRef} {i : Instrument τ}
    {object : StaffObject τ} (h : score.Holds ref i object) :
    i ∈ score.instruments ∧ object ∈ i.timeline :=
  ⟨List.mem_of_getElem? h.instrument, List.mem_of_getElem? h.object⟩

theorem pairwise_zipIdx {α : Type} (xs : List α) : xs.zipIdx.Pairwise fun a b => a.2 < b.2 := by
  rw [← List.pairwise_map, List.zipIdx_map_snd]
  exact List.pairwise_lt_range'

theorem mem_inTimeOrder {timeline : List (StaffObject τ)} {entry : StaffObject τ × Nat} :
    entry ∈ inTimeOrder timeline ↔ timeline[entry.2]? = some entry.1 := by
  rw [inTimeOrder, (stableSort_perm _ _).mem_iff, List.mem_zipIdx_iff_getElem?]

/-- The events of all objects of a score, as they are emitted. -/
def partEvents (score : Score τ) : List (SoundEvent τ) :=
  score.instruments.zipIdx.flatMap fun (i, number) => instrumentEvents score i number

theorem unorderedEvents_eq (score : Score τ) :
    unorderedEvents score = score.instruments.map (fun i => programChange i.midi) ++
      partEvents score ++ [endOfScore score] := rfl

theorem mem_partEvents {score : Score τ} {e : SoundEvent τ} :
    e ∈ partEvents score ↔ ∃ (ref : ObjectRef) (i : Instrument τ) (object : StaffObject τ),
      score.Holds ref i object ∧ e ∈ objectEvents score i.midi object ref := by
  simp only [partEvents, instrumentEvents, List.mem_flatMap, mem_inTimeOrder,
    List.mem_zipIdx_iff_getElem?]
  constructor
  · rintro ⟨⟨i, number⟩, hi, ⟨object, index⟩, hobject, he⟩
    exact ⟨⟨number, index⟩, i, object, ⟨hi, hobject⟩, he⟩
  · rintro ⟨⟨number, index⟩, i, object, ⟨hi, hobject⟩, he⟩
    exact ⟨⟨i, number⟩, hi, ⟨object, index⟩, hobject, he⟩

theorem flatMap_eq_of_nodup {α β : Type} {xs : List α} {f : α → List β} {key : α → Nat}
    (hkeys : (xs.map key).Nodup) {x : α} (hx : x ∈ xs)
    (hother : ∀ y ∈ xs, key y ≠ key x → f y = []) : xs.flatMap f = f x := by
  obtain ⟨before, after, rfl⟩ := List.append_of_mem hx
  rw [List.map_append, List.map_cons, List.nodup_append, List.nodup_cons] at hkeys
  obtain ⟨-, ⟨hafter, -⟩, hbefore⟩ := hkeys
  have hb : before.flatMap f = [] := List.flatMap_eq_nil_iff.mpr fun y hy =>
    hother y (by simp [hy]) (hbefore _ (List.mem_map_of_mem hy) _ (List.mem_cons_self ..))
  have ha : after.flatMap f = [] := List.flatMap_eq_nil_iff.mpr fun y hy =>
    hother y (by simp [hy]) fun heq => hafter (heq ▸ List.mem_map_of_mem hy)
  rw [List.flatMap_append, List.flatMap_cons, hb, ha, List.append_nil, List.nil_append]

/-- No other events than those of an object refer to it. -/
theorem filter_partEvents {score : Score τ} {ref : ObjectRef} {i : Instrument τ}
    {object : StaffObject τ} (h : score.Holds ref i object) :
    (partEvents score).filter (fun e => e.object = some ref) =
      objectEvents score i.midi object ref := by
  have hnumbers : (score.instruments.zipIdx.map Prod.snd).Nodup := by
    rw [List.zipIdx_map_snd]
    exact List.nodup_range'
  have hindices : ((inTimeOrder i.timeline).map Prod.snd).Nodup := by
    rw [inTimeOrder, ((stableSort_perm _ _).map _).nodup_iff, List.zipIdx_map_snd]
    exact List.nodup_range'
  have hinstrument : (i, ref.instrument) ∈ score.instruments.zipIdx :=
    List.mem_zipIdx_iff_getElem?.mpr h.instrument
  have hobject : (object, ref.index) ∈ inTimeOrder i.timeline := mem_inTimeOrder.mpr h.object
  rw [partEvents, List.filter_flatMap, flatMap_eq_of_nodup hnumbers hinstrument]
  · simp only [instrumentEvents]
    rw [List.filter_flatMap, flatMap_eq_of_nodup hindices hobject]
    · refine List.filter_eq_self.mpr fun e he => ?_
      simp [object_of_mem_objectEvents he]
    · intro entry _ hne
      refine List.filter_eq_nil_iff.mpr fun e he => ?_
      simp only [object_of_mem_objectEvents he, decide_eq_true_eq, Option.some.injEq]
      exact fun heq => hne (congrArg ObjectRef.index heq)
  · intro entry _ hne
    refine List.filter_eq_nil_iff.mpr fun e he => ?_
    obtain ⟨_, -, he⟩ := List.mem_flatMap.mp he
    simp only [object_of_mem_objectEvents he, decide_eq_true_eq, Option.some.injEq]
    exact fun heq => hne (congrArg ObjectRef.instrument heq)

theorem filter_unorderedEvents {score : Score τ} {ref : ObjectRef} {i : Instrument τ}
    {object : StaffObject τ} (h : score.Holds ref i object) :
    (unorderedEvents score).filter (fun e => e.object = some ref) =
      objectEvents score i.midi object ref := by
  have hprograms : (score.instruments.map fun i => (programChange i.midi : SoundEvent τ)).filter
      (fun e => e.object = some ref) = [] := by
    simp [programChange]
  have hend : [endOfScore score].filter (fun e => e.object = some ref) = [] := by
    simp [endOfScore]
  rw [unorderedEvents_eq, List.filter_append, List.filter_append, filter_partEvents h, hprograms,
    hend, List.nil_append, List.append_nil]

omit [TimeValue τ] in
theorem Score.Holds.measure_le {score : Score τ} {ref : ObjectRef} {i : Instrument τ}
    {object : StaffObject τ} (h : score.Holds ref i object) :
    object.measure ≤ lastMeasure score := by
  refine (foldl_max_le_iff.mp (Nat.le_refl (lastMeasure score))).2 _ ?_
  exact List.mem_flatMap.mpr ⟨i, h.mem.1, List.mem_map_of_mem h.mem.2⟩

theorem measure_le_of_mem_partEvents {score : Score τ} {e : SoundEvent τ}
    (h : e ∈ partEvents score) : e.measure ≤ lastMeasure score := by
  obtain ⟨ref, i, object, hholds, he⟩ := mem_partEvents.mp h
  rcases exists_of_mem_objectEvents he with ⟨_, _, _, -, rfl⟩ | ⟨_, _, _, -, -, rfl⟩
  · exact hholds.measure_le
  · exact hholds.measure_le

theorem kind_of_mem_partEvents {score : Score τ} {e : SoundEvent τ} (h : e ∈ partEvents score) :
    e.kind ≠ .programChange ∧ e.kind ≠ .endOfScore := by
  obtain ⟨ref, i, object, -, he⟩ := mem_partEvents.mp h
  rcases exists_of_mem_objectEvents he with ⟨kind, _, _, hkind, rfl⟩ | ⟨_, kind, _, -, hkind, rfl⟩ <;>
    cases kind <;> simp_all [objectEvent, EventKind.isAttack, EventKind.isRelease]

end

/-! ## The order of emission -/

/-- An object stands before another one on a timeline in the order of time: it is earlier, or of a
lower voice, or written before it. -/
def StaffObject.StandsBefore (a b : StaffObject Rat × Nat) : Prop :=
  a.1.time < b.1.time ∨ (a.1.time = b.1.time ∧
    (a.1.voice < b.1.voice ∨ (a.1.voice = b.1.voice ∧ a.2 < b.2)))

/-- The events of one object are emitted before those of another one. -/
def Score.EmittedBefore (score : Score Rat) (r s : ObjectRef) : Prop :=
  r.instrument < s.instrument ∨ (r.instrument = s.instrument ∧ ∃ i a b,
    score.Holds r i a ∧ score.Holds s i b ∧ StaffObject.StandsBefore (a, r.index) (b, s.index))

theorem inTimeOrder_pairwise (timeline : List (StaffObject Rat)) :
    (inTimeOrder timeline).Pairwise StaffObject.StandsBefore := by
  refine (stableSort_pairwise notAfter_trans notAfter_total
    (pairwise_zipIdx timeline)).imp fun {a b} hab => ?_
  obtain ⟨hle, htie⟩ := hab
  rw [notAfter_iff] at hle htie
  rcases hle with hlt | ⟨htime, hvoice⟩
  · exact .inl hlt
  · refine .inr ⟨htime, (Nat.lt_or_eq_of_le hvoice).imp_right fun heq => ⟨heq, ?_⟩⟩
    exact htie (.inr ⟨htime.symm, heq.ge⟩)

/-- Events are emitted object after object, and for each object the attack before the release. -/
theorem partEvents_pairwise (score : Score Rat) :
    (partEvents score).Pairwise fun x y => ∀ r ∈ x.object, ∀ s ∈ y.object,
      score.EmittedBefore r s ∨
        (r = s ∧ x.kind.isRelease = false ∧ y.kind.isRelease = true) := by
  refine List.pairwise_flatMap.mpr ⟨fun ⟨i, number⟩ hi => ?_, ?_⟩
  · rw [List.mem_zipIdx_iff_getElem?] at hi
    refine List.pairwise_flatMap.mpr ⟨fun ⟨object, index⟩ _ => ?_, ?_⟩
    · dsimp only
      rcases objectEvents_cases score i.midi object ⟨number, index⟩ with
        hevents | ⟨_, on, off, pitch, -, hon, hoff, hevents⟩ | ⟨meter, -, hevents⟩
      · simp [hevents]
      · rw [hevents]
        refine List.pairwise_pair.mpr ?_
        rintro r ⟨⟩ s ⟨⟩
        exact .inr ⟨rfl, EventKind.isRelease_eq_false (.inl hon), hoff⟩
      · simp [hevents]
    · refine (inTimeOrder_pairwise i.timeline).imp_of_mem fun {a b} ha hb hab x hx y hy => ?_
      rw [mem_inTimeOrder] at ha hb
      rw [object_of_mem_objectEvents hx, object_of_mem_objectEvents hy]
      rintro r ⟨⟩ s ⟨⟩
      exact .inl (.inr ⟨rfl, i, a.1, b.1, ⟨hi, ha⟩, ⟨hi, hb⟩, hab⟩)
  · refine (pairwise_zipIdx score.instruments).imp fun {a b} hab x hx y hy => ?_
    obtain ⟨entry, -, hx⟩ := List.mem_flatMap.mp hx
    obtain ⟨entry', -, hy⟩ := List.mem_flatMap.mp hy
    rw [object_of_mem_objectEvents hx, object_of_mem_objectEvents hy]
    rintro r ⟨⟩ s ⟨⟩
    exact .inl (.inl hab)

end ScorePlayback
